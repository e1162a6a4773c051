import StatesLanguage.Proofs.Comparisons
import StatesLanguage.Proofs.Floats

/-! How choice rules compare integers: exactly in the signed range, and as floats when one of them
is beyond it. -/
namespace StatesLanguage

/-- Two integers are taken for one: one of them is beyond the signed range, and rounding leaves no
difference. -/
def Merged (a b : Int) : Prop :=
  (Value.maxSigned < a ∨ Value.maxSigned < b) ∧ rounded a = rounded b

instance (a b : Int) : Decidable (Merged a b) := inferInstanceAs (Decidable (_ ∧ _))

/-- Whether the relation holds of two integers. -/
def Relation.Relates : Relation → Int → Int → Prop
  | .equals, a, b => a = b
  | .lessThan, a, b => a < b
  | .greaterThan, a, b => b < a
  | .lessThanEquals, a, b => a ≤ b
  | .greaterThanEquals, a, b => b ≤ a

/-- An answer about two integers: the right one, or that of equal integers when they are merged. -/
structure Relation.Settles (r : Relation) (a b : Int) (answer : Bool) : Prop where
  apart : ¬ Merged a b → (answer = true ↔ r.Relates a b)
  merged : Merged a b → (answer = true ↔ r.Relates a a)

section

variable {a b : Int} {r : Relation}

theorem Relation.admits_compare : r.admits (compare a b) = true ↔ r.Relates a b := by
  rcases Int.lt_trichotomy a b with h | rfl | h
  · rw [Int.compare_eq_lt.mpr h]
    cases r <;> simp [admits, Relates] <;> omega
  · rw [compare_eq_iff_eq.mpr rfl]
    cases r <;> simp [admits, Relates]
  · rw [Int.compare_eq_gt.mpr h]
    cases r <;> simp [admits, Relates] <;> omega

theorem compare_rounded (h : rounded a ≠ rounded b) :
    compare (rounded a) (rounded b) = compare a b := by
  rcases Int.lt_trichotomy a b with hlt | rfl | hgt
  · have hle := rounded_mono hlt.le
    rw [Int.compare_eq_lt.mpr hlt, Int.compare_eq_lt.mpr (by omega)]
  · exact (h rfl).elim
  · have hle := rounded_mono hgt.le
    rw [Int.compare_eq_gt.mpr hgt, Int.compare_eq_gt.mpr (by omega)]

theorem numericOrder?_signed (ha : a ≤ Value.maxSigned) (hb : b ≤ Value.maxSigned) :
    numericOrder? (.int a) (.int b) = some (compare a b) := by
  rw [numericOrder?, Value.signed?_of_le ha, Value.signed?_of_le hb]
  rfl

/-- Integers are compared as floats when one of them is beyond the signed range. -/
theorem numericOrder?_beyond (ha : Value.InRange a) (hb : Value.InRange b)
    (h : Value.maxSigned < a ∨ Value.maxSigned < b) :
    numericOrder? (.int a) (.int b) = some (compare (rounded a) (rounded b)) := by
  have ha := ha.natAbs_lt
  have hb := hb.natAbs_lt
  have horder : floatOrder? (Float.ofInt a) (Float.ofInt b) =
      some (compare (rounded a) (rounded b)) :=
    (holds_ofInt (by omega)).order (holds_ofInt (by omega))
  rw [← horder, numericOrder?]
  rcases h with h | h
  · rw [Value.signed?_of_lt h]
    rfl
  · rw [Value.signed?_of_lt h]
    cases (Value.int a).signed? <;> rfl

theorem settles_numeric (ha : Value.InRange a) (hb : Value.InRange b) :
    r.Settles a b ((Operator.numeric r).answers (some (.int a)) (some (.int b))) := by
  have hanswer : (Operator.numeric r).answers (some (.int a)) (some (.int b)) =
      (numericOrder? (.int a) (.int b)).any r.admits := rfl
  rw [hanswer]
  constructor
  · intro hapart
    by_cases hbeyond : Value.maxSigned < a ∨ Value.maxSigned < b
    · rw [numericOrder?_beyond ha hb hbeyond, Option.any_some,
        compare_rounded fun h => hapart ⟨hbeyond, h⟩, Relation.admits_compare]
    · rw [numericOrder?_signed (by omega) (by omega), Option.any_some, Relation.admits_compare]
  · rintro ⟨hbeyond, heq⟩
    rw [numericOrder?_beyond ha hb hbeyond, Option.any_some, heq, ← Relation.admits_compare,
      compare_eq_iff_eq.mpr rfl, compare_eq_iff_eq.mpr rfl]

end

section

variable {p q : String} {P Q : Path}

/-- Rules that compare numbers, with a literal or with what a path leads to, can be asked. Of two
integers they answer what is true, unless the integers are merged: these count as equal. -/
theorem integers_compared (hp : Path.parse p = .ok P) (hq : Path.parse q = .ok Q) (r : Relation) :
    (∀ b, Value.InRange b →
      ∃ rule, ChoiceRule.compile (.comparing p (Operator.numeric r).name (.int b)) = .ok rule ∧
        ∀ input context a, P.evaluate input context = .ok (.int a) → Value.InRange a →
          r.Settles a b (rule.holds input context)) ∧
    ∃ rule, ChoiceRule.compile (.comparing p ((Operator.numeric r).name ++ "Path") (.str q)) =
        .ok rule ∧
      ∀ input context a b, P.evaluate input context = .ok (.int a) →
        Q.evaluate input context = .ok (.int b) → Value.InRange a → Value.InRange b →
          r.Settles a b (rule.holds input context) := by
  constructor
  · intro b hb
    refine ⟨_, ChoiceRule.compile_literal hp rfl, fun input context a ha hrange => ?_⟩
    rw [ChoiceRule.holds, ha]
    exact settles_numeric hrange hb
  · refine ⟨_, ChoiceRule.compile_path hp hq rfl, fun input context a b ha hb hrange hrange' => ?_⟩
    rw [ChoiceRule.holds, ha, hb]
    exact settles_numeric hrange hrange'

/-- The first two integers beyond the signed range count as equal, and one that is farther away does
not. -/
theorem neighbours_merged : Path.parse "$.id" = .ok (.dotted "id") ∧
    Value.InRange 9223372036854775808 ∧ Value.InRange 9223372036854775809 ∧
    Value.InRange 9223372036854777857 ∧
    ∃ rule, ChoiceRule.compile (.comparing "$.id" "NumericEquals" (.int 9223372036854775809)) =
        .ok rule ∧
      rule.holds (.obj [("id", .int 9223372036854775808)]) .null = true ∧
      ¬ rule.holds (.obj [("id", .int 9223372036854777857)]) .null = true := by
  have hp : Path.parse "$.id" = .ok (.dotted "id") := by cbv
  have hfirst : Value.InRange 9223372036854775808 := by decide
  have hsecond : Value.InRange 9223372036854775809 := by decide
  have hfar : Value.InRange 9223372036854777857 := by decide
  have hmerged : Merged 9223372036854775808 9223372036854775809 := by decide
  have hapart : ¬ Merged 9223372036854777857 9223372036854775809 := by decide
  obtain ⟨rule, hrule, hsettles⟩ := (integers_compared hp hp .equals).1 _ hsecond
  refine ⟨hp, hfirst, hsecond, hfar, rule, hrule, ?_, fun h => ?_⟩
  · exact ((hsettles _ .null _ rfl hfirst).merged hmerged).mpr rfl
  · have heq : (9223372036854777857 : Int) = 9223372036854775809 :=
      ((hsettles _ .null _ rfl hfar).apart hapart).mp h
    exact absurd heq (by decide)

end

end StatesLanguage
