import StatesLanguage.Jmespath.Dialect
import StatesLanguage.Jmespath.Syntax
import StatesLanguage.Json.Source
/-!
Reading the text of an expression: its tokens first, and then its steps.
-/
namespace StatesLanguage.Jmespath

/-- The quote of literals. -/
def backtick : Char := Char.ofNat 0x60

/-- Why a text is not read. A number that is too large stops the program. -/
inductive Refusal where
  | number (n : Int)
  | literal
  | form
  deriving DecidableEq

/-- The text of a refusal, if the program is there to give it. -/
def Refusal.text? : Refusal → Option String
  | .number _ => none
  | .literal => some "malformed literal"
  | .form => some "malformed expression"

/-- What texts consist of. A pair of brackets is one token with what it selects, unless there is a
condition in it. -/
inductive Token where
  | name (text : String)
  | bracket (s : Selector)
  | literal (value : Value)
  | comparator (c : Comparator)
  | current
  | dot
  | star
  | filter
  | close
  | and
  | or
  deriving Inhabited

/-- The text up to a quote that no backslash stands before, and the text behind it. -/
def closing? (quote : Char) : List Char → Option (List Char × List Char)
  | [] => none
  | '\\' :: c :: cs => (closing? quote cs).map fun (inner, rest) => ('\\' :: c :: inner, rest)
  | c :: cs =>
    if c = quote then some ([], cs)
    else (closing? quote cs).map fun (inner, rest) => (c :: inner, rest)

/-- A literal without the backslashes that stand before backticks. -/
def unescaped : List Char → List Char
  | [] => []
  | '\\' :: c :: cs => if c = backtick then c :: unescaped cs else '\\' :: c :: unescaped cs
  | c :: cs => c :: unescaped cs

/-- A name behind its first quote. -/
def readName (cs : List Char) : Except Refusal (Token × List Char) :=
  match closing? '"' cs with
  | none => .error .form
  | some (inner, rest) =>
    match Value.parse? ('"' :: inner ++ ['"']) with
    | some (.str name) => .ok (.name name, rest)
    | _ => .error .form

/-- A literal behind its first backtick. -/
def readLiteral (cs : List Char) : Except Refusal (Token × List Char) :=
  match closing? backtick cs with
  | none => .error .form
  | some (inner, rest) =>
    match Value.parse? (unescaped inner) with
    | some v => .ok (.literal v, rest)
    | none => .error .literal

/-- A position or a bound. -/
def readNumber (d : Dialect) (cs : List Char) : Except Refusal Int :=
  let (negative, digits) := match cs with
    | '-' :: rest => (true, rest)
    | rest => (false, rest)
  if digits.isEmpty || !digits.all Char.isDigit then .error .form
  else
    let size := Int.ofNat (Source.digitsValue digits)
    let n := if negative then -size else size
    if d.reads n then .ok n else .error (.number n)

/-- A bound, which may be left out. -/
def readBound (d : Dialect) (cs : List Char) : Except Refusal (Option Int) :=
  if cs.isEmpty then .ok none else (readNumber d cs).map some

/-- What stands in brackets: a star, a position or the bounds of a slice. -/
def readBracket (d : Dialect) (inner : List Char) : Except Refusal Selector :=
  if inner = ['*'] then .ok .items
  else
    match inner.splitOn ':' with
    | [i] => (readNumber d i).map .index
    | [a, b] => do return .slice (← readBound d a) (← readBound d b) none
    | [a, b, c] => do return .slice (← readBound d a) (← readBound d b) (← readBound d c)
    | _ => .error .form

/-- The token at the start of a text, and the text behind it. -/
def readToken (d : Dialect) : List Char → Except Refusal (Token × List Char)
  | '.' :: rest => .ok (.dot, rest)
  | '*' :: rest => .ok (.star, rest)
  | '@' :: rest => .ok (.current, rest)
  | ']' :: rest => .ok (.close, rest)
  | '&' :: '&' :: rest => .ok (.and, rest)
  | '|' :: '|' :: rest => .ok (.or, rest)
  | '=' :: '=' :: rest => .ok (.comparator .equal, rest)
  | '!' :: '=' :: rest => .ok (.comparator .unequal, rest)
  | '<' :: '=' :: rest => .ok (.comparator .atMost, rest)
  | '>' :: '=' :: rest => .ok (.comparator .atLeast, rest)
  | '<' :: rest => .ok (.comparator .less, rest)
  | '>' :: rest => .ok (.comparator .greater, rest)
  | '"' :: rest => readName rest
  | '[' :: '?' :: rest => .ok (.filter, rest)
  | '[' :: rest =>
    match rest.dropWhile (· ≠ ']') with
    | _ :: behind => (readBracket d (rest.takeWhile (· ≠ ']'))).map fun s => (.bracket s, behind)
    | [] => .error .form
  | c :: rest => if c = backtick then readLiteral rest else .error .form
  | [] => .error .form

theorem closing?_length {quote : Char} {cs inner rest : List Char}
    (h : closing? quote cs = some (inner, rest)) : rest.length < cs.length := by
  induction cs using closing?.induct quote generalizing inner with
  | case1 => cases h
  | case2 c cs ih =>
    obtain ⟨⟨i, r⟩, hr, he⟩ := Option.map_eq_some_iff.mp h
    cases he
    exact Nat.lt_succ_of_lt (Nat.lt_succ_of_lt (ih hr))
  | case3 cs hpair =>
    rw [closing?, if_pos rfl] at h
    · cases h
      exact Nat.lt_succ_self _
    · exact hpair
  | case4 c cs hpair hc ih =>
    rw [closing?, if_neg hc] at h
    · obtain ⟨⟨i, r⟩, hr, he⟩ := Option.map_eq_some_iff.mp h
      cases he
      exact Nat.lt_succ_of_lt (ih hr)
    · exact hpair

theorem readName_length {cs rest : List Char} {t : Token} (h : readName cs = .ok (t, rest)) :
    rest.length < cs.length := by
  unfold readName at h
  split at h
  · cases h
  · rename_i inner behind hclosing
    split at h
    · cases h
      exact closing?_length hclosing
    · cases h

theorem readLiteral_length {cs rest : List Char} {t : Token} (h : readLiteral cs = .ok (t, rest)) :
    rest.length < cs.length := by
  unfold readLiteral at h
  split at h
  · cases h
  · rename_i inner behind hclosing
    split at h
    · cases h
      exact closing?_length hclosing
    · cases h

/-- A token takes at least one character. -/
theorem readToken_length {d : Dialect} {cs rest : List Char} {t : Token}
    (h : readToken d cs = .ok (t, rest)) : rest.length < cs.length := by
  unfold readToken at h
  split at h
  case h_13 => exact Nat.lt_succ_of_lt (readName_length h)
  case h_15 cs hfilter =>
    split at h
    · rename_i c behind hdrop
      have hlength : (cs.dropWhile (· ≠ ']')).length ≤ cs.length :=
        (List.dropWhile_sublist _).length_le
      cases hread : readBracket d (cs.takeWhile (· ≠ ']')) with
      | ok s =>
        rw [hread] at h
        cases h
        rw [hdrop, List.length_cons] at hlength
        exact Nat.lt_succ_of_lt hlength
      | error e =>
        rw [hread] at h
        cases h
    · cases h
  case h_16 =>
    split at h
    · exact Nat.lt_succ_of_lt (readLiteral_length h)
    · cases h
  case h_17 => cases h
  -- what is left are the tokens of a fixed text
  all_goals
    cases h
    simp only [List.length_cons]
    omega

/-- The tokens of a text, with blanks between them. -/
def tokens (d : Dialect) (cs : List Char) : Except Refusal (List Token) :=
  match cs with
  | [] => .ok []
  | c :: cs =>
    if Source.isSpace c then tokens d cs
    else
      match h : readToken d (c :: cs) with
      | .error e => .error e
      | .ok (t, rest) =>
        have : rest.length < cs.length + 1 := readToken_length h
        (tokens d rest).map (t :: ·)
termination_by cs.length

/-- Selectors, each behind a point or in brackets. -/
def readSelectors : List Token → Except Refusal (List Selector)
  | [] => .ok []
  | .dot :: .name n :: ts => (readSelectors ts).map (.field n :: ·)
  | .dot :: .star :: ts => (readSelectors ts).map (.values :: ·)
  | .bracket s :: ts => (readSelectors ts).map (s :: ·)
  | _ => .error .form

/-- The tokens of an expression with a point in front if it begins with what stands behind one
further on. -/
def begun : List Token → Except Refusal (List Token)
  | .name n :: ts => .ok (.dot :: .name n :: ts)
  | .star :: ts => .ok (.dot :: .star :: ts)
  | .bracket s :: ts => .ok (.bracket s :: ts)
  | .filter :: ts => .ok (.filter :: ts)
  | _ => .error .form

def readOperand : List Token → Except Refusal Operand
  | [.current] => .ok (.path [])
  | [.literal v] => .ok (.literal v)
  | ts => do return .path (← readSelectors (← begun ts))

/-- The tokens before the first comparator, and those behind it. -/
def comparison? : List Token → Option (List Token × Comparator × List Token)
  | [] => none
  | .comparator c :: ts => some ([], c, ts)
  | t :: ts => (comparison? ts).map fun (left, c, right) => (t :: left, c, right)

def readClause (ts : List Token) : Except Refusal Clause :=
  match comparison? ts with
  | some (left, c, right) => do return .compare c (← readOperand left) (← readOperand right)
  | none => (readOperand ts).map .test

def Token.isOr : Token → Bool
  | .or => true
  | _ => false

def Token.isAnd : Token → Bool
  | .and => true
  | _ => false

/-- A condition, in which "and" binds tighter than "or". -/
def readCondition (ts : List Token) : Except Refusal Condition :=
  (ts.splitOnP Token.isOr).mapM fun part => (part.splitOnP Token.isAnd).mapM readClause

mutual

/-- The steps of an expression, each behind a point or in brackets. -/
def readSteps : List Token → Except Refusal (List Step)
  | [] => .ok []
  | .dot :: .name n :: ts => (readSteps ts).map (.select (.field n) :: ·)
  | .dot :: .star :: ts => (readSteps ts).map (.select .values :: ·)
  | .bracket s :: ts => (readSteps ts).map (.select s :: ·)
  | .filter :: ts => readInside [] ts
  | _ => .error .form

/-- The steps from within a filter on. The tokens of its condition are kept in reverse. -/
def readInside (inner : List Token) : List Token → Except Refusal (List Step)
  | [] => .error .form
  | .close :: ts => do return .filter (← readCondition inner.reverse) :: (← readSteps ts)
  | t :: ts => readInside (t :: inner) ts

end

/-- The expression of a text. -/
def compile (d : Dialect) (cs : List Char) : Except Refusal Query := do
  match ← tokens d cs with
  | [.current] => return .here
  | ts => return .ofSteps (← readSteps (← begun ts))

end StatesLanguage.Jmespath
