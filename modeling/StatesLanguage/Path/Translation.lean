import StatesLanguage.Jmespath.Reader
import StatesLanguage.Json.Writer
import StatesLanguage.Path.Segment
/-!
Paths as texts of the query language. The conditions of filters are taken apart into clauses, and
clauses into operands, which are put together again with a blank on each side of what joins them.
-/
namespace StatesLanguage.Path

open Jmespath (Comparator backtick)

/-- A bound as it is written, if it is. -/
def boundText : Option Int → List Char
  | some i => (toString i).toList
  | none => []

/-- What a segment is in the query language. Names and the star for values have a point in front of
them, but not where an expression starts. -/
def Selector.translate (first : Bool) : Selector → List Char
  | .key (.field name) => (if first then [] else ['.']) ++ (quoted name).toList
  | .key (.index i) => '[' :: (toString i).toList ++ [']']
  | .items => ['[', '*', ']']
  | .values => if first then ['*'] else ['.', '*']
  | .slice start stop step =>
    let last := match step with
      | some n => ':' :: (toString n).toList
      | none => []
    '[' :: boundText start ++ ':' :: boundText stop ++ last ++ [']']

/-- The texts of segments one behind the other, with the conditions as `condition` has them. -/
def pieces (condition : String → Except Fault (List Char)) (first : Bool) :
    List Segment → Except Fault (List Char)
  | [] => .ok []
  | .select s :: rest => (pieces condition false rest).map (s.translate first ++ ·)
  | .filter text :: rest => do
    let inner ← condition text
    let behind ← pieces condition false rest
    return '[' :: '?' :: inner ++ ']' :: behind

/-- The expression of segments. Without any it is the current item. -/
def translate (condition : String → Except Fault (List Char)) (segments : List Segment) :
    Except Fault (List Char) :=
  (pieces condition true segments).map fun text => if text.isEmpty then ['@'] else text

/-- The order in which comparators are looked for in a clause. -/
def comparators : List Comparator := [.equal, .unequal, .atMost, .atLeast, .less, .greater]

/-- What quotes a character, behind a quote or outside. -/
def quoteAfter (quote : Option Char) (c : Char) : Option Char :=
  match quote with
  | some q => if c = q then none else some q
  | none => if c = '\'' ∨ c = '"' then some c else none

/-- The text before the first occurrence of `mark` outside of quotes, and the text behind it. -/
def splitOutside? (mark : List Char) (quote : Option Char) :
    List Char → Option (List Char × List Char)
  | [] => none
  | c :: cs =>
    let inside := quoteAfter quote c
    if quote.isNone && inside.isNone && mark.isPrefixOf (c :: cs) then
      some ([], (c :: cs).drop mark.length)
    else (splitOutside? mark inside cs).map fun (before, rest) => (c :: before, rest)

/-- The text of a string in single quotes. -/
def singleQuoted? : List Char → Option (List Char)
  | '\'' :: rest =>
    match rest.reverse with
    | '\'' :: text => some text.reverse
    | _ => none
  | _ => none

/-- A literal of the query language. -/
def literalText (v : Value) : List Char := backtick :: v.text.toList ++ [backtick]

/-- An operand. There is no filter in it, for it would end the one that the operand stands in. -/
def translateOperand (cs : List Char) : Except Fault (List Char) :=
  match cs with
  | '@' :: rest => do translate (fun _ => .error .openFilter) (← readSegments rest)
  | cs =>
    match singleQuoted? cs with
    | some text => .ok (literalText (.str (String.ofList text)))
    | none =>
      match Value.parse? cs with
      | some v => .ok (literalText v)
      | none => .error (.operand (String.ofList cs))

/-- A clause. The comparators are looked for one after the other. -/
def translateClause (cs : List Char) : Except Fault (List Char) :=
  let found := comparators.findSome? fun c =>
    (splitOutside? c.text none cs).map fun (left, right) => (c, left, right)
  match found with
  | some (c, left, right) => do
    let l ← translateOperand (trim left)
    let r ← translateOperand (trim right)
    return l ++ ' ' :: c.text ++ ' ' :: r
  | none => translateOperand cs

/-- A text cut in two at a mark: what stands before it, the mark, and what stands behind it. -/
structure Cut where
  before : List Char
  mark : List Char
  rest : List Char

/-- The text cut at the first mark outside of quotes. -/
def cut? (mark cs : List Char) : Option Cut :=
  (splitOutside? mark none cs).map fun (before, rest) => ⟨before, mark, rest⟩

/-- A condition cut at its first connective. -/
def connective? (cs : List Char) : Option Cut :=
  match cut? ['&', '&'] cs, cut? ['|', '|'] cs with
  | some a, some b => if a.before.length ≤ b.before.length then some a else some b
  | some a, none => some a
  | none, b => b

theorem splitOutside?_length {m : Char} {ms : List Char} {quote : Option Char}
    {cs before rest : List Char} (h : splitOutside? (m :: ms) quote cs = some (before, rest)) :
    rest.length < cs.length := by
  induction cs generalizing quote before with
  | nil => cases h
  | cons c cs ih =>
    rw [splitOutside?] at h
    split at h
    · cases h
      simp only [List.length_drop, List.length_cons]
      omega
    · obtain ⟨⟨b, r⟩, hr, he⟩ := Option.map_eq_some_iff.mp h
      cases he
      exact Nat.lt_succ_of_lt (ih hr)

theorem cut?_length {m : Char} {ms cs : List Char} {cut : Cut} (h : cut? (m :: ms) cs = some cut) :
    cut.rest.length < cs.length := by
  obtain ⟨⟨before, rest⟩, hsplit, rfl⟩ := Option.map_eq_some_iff.mp h
  exact splitOutside?_length hsplit

/-- The text gets shorter at every connective. -/
theorem connective?_length {cs : List Char} {cut : Cut} (h : connective? cs = some cut) :
    cut.rest.length < cs.length := by
  unfold connective? at h
  split at h
  · rename_i hand hor
    split at h <;> cases h
    · exact cut?_length hand
    · exact cut?_length hor
  · rename_i hand hor
    cases h
    exact cut?_length hand
  · exact cut?_length h

/-- A condition, clause by clause. -/
def translateFilter (cs : List Char) : Except Fault (List Char) :=
  match h : connective? cs with
  | none => translateClause (trim cs)
  | some cut => do
    have := connective?_length h
    let clause ← translateClause (trim cut.before)
    let rest ← translateFilter cut.rest
    return clause ++ ' ' :: cut.mark ++ ' ' :: rest
termination_by cs.length

end StatesLanguage.Path
