import StatesLanguage.Json.Writer
import StatesLanguage.Text.Class
/-!
Paths as lists of segments, and how their text is split into them.
-/
namespace StatesLanguage.Path

/-- A step to a single place: a field of an object or a position in an array, counted from the end
when it is negative. -/
inductive Key where
  | field (name : String)
  | index (position : Int)
  deriving Inhabited, DecidableEq

/-- What a segment without a condition selects: a single place, the items of an array, the values of
an object, or a part of an array. -/
inductive Selector where
  | key (k : Key)
  | items
  | values
  | slice (start stop step : Option Int)
  deriving Inhabited, DecidableEq

/-- One segment of a path. A filter is kept as the text between its parentheses. -/
inductive Segment where
  | select (s : Selector)
  | filter (text : String)
  deriving Inhabited, DecidableEq

/-- What is wrong with the text of a path. -/
inductive Fault where
  | emptyName
  | openName
  | openFilter
  | openBracket
  | slice
  | index
  | character
  | operand (text : String)
  deriving DecidableEq

def Fault.text : Fault → String
  | .emptyName => "empty field name"
  | .openName => "unterminated ['...']"
  | .openFilter => "unterminated filter"
  | .openBracket => "unterminated ["
  | .slice => "malformed slice"
  | .index => "malformed index"
  | .character => "unexpected character"
  | .operand text => s!"unsupported filter operand {text}"

/-- The text before the first occurrence of `mark`, and the text behind it. -/
def splitAt? (mark : List Char) : List Char → Option (List Char × List Char)
  | [] => if mark.isEmpty then some ([], []) else none
  | c :: cs =>
    if mark.isPrefixOf (c :: cs) then some ([], (c :: cs).drop mark.length)
    else (splitAt? mark cs).map fun (before, rest) => (c :: before, rest)

theorem splitAt?_length {mark cs before rest : List Char}
    (h : splitAt? mark cs = some (before, rest)) : rest.length ≤ cs.length := by
  induction cs generalizing before with
  | nil =>
    simp only [splitAt?] at h
    split at h
    · cases h; exact Nat.le_refl _
    · cases h
  | cons c cs ih =>
    simp only [splitAt?] at h
    split at h
    · cases h; simp
    · obtain ⟨⟨b, r⟩, hr, he⟩ := Option.map_eq_some_iff.1 h
      simp only [Prod.mk.injEq] at he
      obtain ⟨-, rfl⟩ := he
      exact Nat.le_succ_of_le (ih hr)

/-- A signed 64-bit decimal. -/
def integer? (cs : List Char) : Option Int :=
  let (negative, digits) := match cs with
    | '-' :: rest => (true, rest)
    | '+' :: rest => (false, rest)
    | rest => (false, rest)
  if digits.isEmpty || !digits.all Char.isDigit then none
  else
    let n := digits.foldl (fun n c => n * 10 + (c.toNat - 48)) 0
    let i := if negative then -(Int.ofNat n) else Int.ofNat n
    if Value.minInt ≤ i ∧ i ≤ Value.maxSigned then some i else none

/-- The parts of a text between single marks. -/
def splitOnChar (mark : Char) : List Char → List (List Char)
  | [] => [[]]
  | c :: cs =>
    match splitOnChar mark cs with
    | [] => [[c]]
    | part :: parts => if c = mark then [] :: part :: parts else (c :: part) :: parts

/-- A bound of a slice, which may be left out. -/
def bound? (cs : List Char) : Option (Option Int) :=
  let cs := trim cs
  if cs.isEmpty then some none else (integer? cs).map some

/-- Two or three bounds between colons. -/
def slice? (cs : List Char) : Option Selector :=
  match splitOnChar ':' cs with
  | [a, b] => do return .slice (← bound? a) (← bound? b) none
  | [a, b, c] => do return .slice (← bound? a) (← bound? b) (← bound? c)
  | _ => none

/-- What stands in plain brackets: a star, a slice or a position. -/
def bracketed? (inner : List Char) : Except Fault Selector :=
  let inner := trim inner
  if inner = ['*'] then .ok .items
  else if inner.contains ':' then
    match slice? inner with
    | some s => .ok s
    | none => .error .slice
  else
    match integer? inner with
    | some i => .ok (.key (.index i))
    | none => .error .index

/-- Whether a name behind a point ends before the character. -/
def endsName (c : Char) : Bool := c == '.' || c == '['

/-- The segment at the start of a text that is not empty, and the text behind it. -/
def readSegment : List Char → Except Fault (Segment × List Char)
  | '.' :: '*' :: rest => .ok (.select .values, rest)
  | '.' :: rest =>
    let name := rest.takeWhile fun c => !endsName c
    if name.isEmpty then .error .emptyName
    else .ok (.select (.key (.field (String.ofList name))), rest.dropWhile fun c => !endsName c)
  | '[' :: '\'' :: rest =>
    match splitAt? ['\'', ']'] rest with
    | some (name, rest) => .ok (.select (.key (.field (String.ofList name))), rest)
    | none => .error .openName
  | '[' :: '?' :: '(' :: rest =>
    match splitAt? [')', ']'] rest with
    | some (text, rest) => .ok (.filter (String.ofList (trim text)), rest)
    | none => .error .openFilter
  | '[' :: rest =>
    match splitAt? [']'] rest with
    | some (inner, rest) => (bracketed? inner).map fun s => (.select s, rest)
    | none => .error .openBracket
  | _ => .error .character

theorem length_dropWhile_le {p : Char → Bool} (cs : List Char) :
    (cs.dropWhile p).length ≤ cs.length := by
  induction cs with
  | nil => exact Nat.le_refl _
  | cons c cs ih =>
    rw [List.dropWhile_cons]
    split
    · exact Nat.le_succ_of_le ih
    · exact Nat.le_refl _

/-- A segment takes at least one character. -/
theorem readSegment_length {cs rest : List Char} {s : Segment}
    (h : readSegment cs = .ok (s, rest)) : rest.length < cs.length := by
  unfold readSegment at h
  split at h
  · cases h
    simp only [List.length_cons]
    omega
  · simp only at h
    split at h
    · cases h
    · cases h
      exact Nat.lt_succ_of_le (length_dropWhile_le _)
  · split at h
    · cases h
      have := splitAt?_length ‹_›
      simp; omega
    · cases h
  · split at h
    · cases h
      have := splitAt?_length ‹_›
      simp; omega
    · cases h
  · split at h
    · rename_i inner rest' hs
      have := splitAt?_length hs
      cases hb : bracketed? inner with
      | ok t =>
        simp only [hb, Except.map] at h
        cases h
        exact Nat.lt_succ_of_le this
      | error e => simp [hb, Except.map] at h
    · cases h
  · cases h

/-- All segments of a text. -/
def readSegments (cs : List Char) : Except Fault (List Segment) :=
  if cs.isEmpty then .ok []
  else
    match h : readSegment cs with
    | .error e => .error e
    | .ok (s, rest) =>
      have := readSegment_length h
      (readSegments rest).map (s :: ·)
termination_by cs.length

end StatesLanguage.Path
