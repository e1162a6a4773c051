/-!
JSON documents. An integer is kept apart from a float of the same size, and an object keeps the
order in which its keys were first set.
-/
namespace StatesLanguage

/-- The value of `key`, set in place when the key is there and appended when it is not. -/
def setField {α : Type} (key : String) (value : α) : List (String × α) → List (String × α)
  | [] => [(key, value)]
  | (k, v) :: rest => if k = key then (key, value) :: rest else (k, v) :: setField key value rest

theorem lookup_setField {α : Type} (key : String) (v : α) (fields : List (String × α)) (k : String) :
    (setField key v fields).lookup k = if k = key then some v else fields.lookup k := by
  induction fields with
  | nil =>
    rw [setField, List.lookup_cons, List.lookup_nil]
    by_cases hk : k = key
    · rw [if_pos hk, beq_iff_eq.mpr hk]
    · rw [if_neg hk, beq_false_of_ne hk]
  | cons x rest ih =>
    obtain ⟨name, w⟩ := x
    rw [setField]
    by_cases hname : name = key
    · subst hname
      rw [if_pos rfl, List.lookup_cons, List.lookup_cons]
      by_cases hk : k = name
      · rw [if_pos hk, beq_iff_eq.mpr hk]
      · rw [if_neg hk, beq_false_of_ne hk]
    · rw [if_neg hname, List.lookup_cons, List.lookup_cons, ih]
      by_cases hk : k = name
      · subst hk
        rw [beq_self_eq_true, if_neg hname, if_neg hname]
      · rw [beq_false_of_ne hk]

theorem setField_setField {α : Type} (key : String) (v w : α) (fields : List (String × α)) :
    setField key w (setField key v fields) = setField key w fields := by
  induction fields with
  | nil => simp [setField]
  | cons x rest ih =>
    obtain ⟨name, u⟩ := x
    by_cases hname : name = key
    · simp [setField, hname]
    · simp [setField, hname, ih]

/-- To set a field to what it is changes nothing. -/
theorem setField_of_lookup {α : Type} {key : String} {v : α} {fields : List (String × α)}
    (h : fields.lookup key = some v) : setField key v fields = fields := by
  induction fields with
  | nil => cases h
  | cons x rest ih =>
    obtain ⟨name, u⟩ := x
    rw [List.lookup_cons] at h
    by_cases hname : name = key
    · rw [beq_iff_eq.mpr hname.symm] at h
      cases h
      rw [setField, if_pos hname, hname]
    · rw [beq_false_of_ne (Ne.symm hname)] at h
      rw [setField, if_neg hname, ih h]

/-- Entries in the order given, a later entry overriding an earlier one of the same key. -/
def collectFields {α : Type} (entries : List (String × α)) : List (String × α) :=
  entries.foldl (fun fields entry => setField entry.1 entry.2 fields) []

/-- A JSON value. Integers lie in the signed or the unsigned 64-bit range. -/
inductive Value where
  | null
  | bool (b : Bool)
  | int (n : Int)
  | float (x : Float)
  | str (s : String)
  | arr (items : List Value)
  | obj (fields : List (String × Value))
  deriving Inhabited

namespace Value

mutual

/-- Equality of documents: an integer is never equal to a float, and the order of the keys of an
object does not count. -/
def same : Value → Value → Bool
  | .null, .null => true
  | .bool a, .bool b => a == b
  | .int a, .int b => a == b
  | .float a, .float b => a == b
  | .str a, .str b => a == b
  | .arr xs, .arr ys => sameItems xs ys
  | .obj fs, .obj gs => fs.length == gs.length && coveredBy gs fs
  | _, _ => false

/-- Equality of lists of documents, item by item. -/
def sameItems : List Value → List Value → Bool
  | [], [] => true
  | x :: xs, y :: ys => same x y && sameItems xs ys
  | _, _ => false

/-- Every entry of the second object is in the first with an equal value. -/
def coveredBy (gs : List (String × Value)) : List (String × Value) → Bool
  | [] => true
  | (k, v) :: rest =>
    (match gs.lookup k with
      | some w => same v w
      | none => false) && coveredBy gs rest

end

/-- The least integer a document can hold. -/
def minInt : Int := -9223372036854775808

/-- The largest integer of the signed 64-bit range. -/
def maxSigned : Int := 9223372036854775807

/-- The largest integer a document can hold. -/
def maxInt : Int := 18446744073709551615

/-- A float as a document; there is no document for an infinity or a NaN, and null stands for it. -/
def ofFloat (x : Float) : Value := if x.isFinite then .float x else .null

/-- A value that may be missing, missing being null. -/
def ofOption : Option Value → Value
  | some v => v
  | none => .null

/-- A string that may be missing, missing being null. -/
def ofString? : Option String → Value
  | some s => .str s
  | none => .null

/-- A natural number as a document. -/
def ofNat (n : Nat) : Value := .int n

/-- The field of an object; other documents have none. -/
def field? (key : String) : Value → Option Value
  | .obj fields => fields.lookup key
  | _ => none

/-- The text of a string. -/
def str? : Value → Option String
  | .str s => some s
  | _ => none

/-- An integer of the signed 64-bit range. -/
def signed? : Value → Option Int
  | .int n => if n ≤ maxSigned then some n else none
  | _ => none

/-- The number nearest to a number that a float can hold. -/
def float? : Value → Option Float
  | .int n => some (Float.ofInt n)
  | .float x => some x
  | _ => none

/-- Whether the value is null. -/
def isNull : Value → Bool
  | .null => true
  | _ => false

end Value

end StatesLanguage
