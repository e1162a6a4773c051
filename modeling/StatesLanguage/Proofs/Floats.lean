import StatesLanguage.Choice.Rule
import StatesLanguage.Proofs.Mantissas

/-! Whole numbers in floats. The float of a number holds the number rounded to 53 digits, floats are
in the order of the numbers that they hold, and a sum holds the rounded sum. -/
namespace StatesLanguage

open Float.Model Float.Model.UnpackedFloat

/-- A float holds a whole number. -/
def Holds (x : Float) (n : Int) : Prop := Stands x.toModel.unpack n

theorem holds_pack {u : UnpackedFloat} {n : Int} (h : Stands u n) :
    Holds ⟨Float.Model.pack u⟩ n := by
  have hunpack : (Float.Model.pack u).unpack = u := h.unpack_pack
  rwa [Holds, hunpack]

namespace Holds

variable {x y : Float} {a b : Int}

/-- One float holds a number. -/
theorem unique (hx : Holds x a) (hy : Holds y a) : x = y := by
  have hbits := (unpack_inj_of_valid x.toModel.valid y.toModel.valid).mp (Stands.unique hx hy rfl)
  exact Float.toBits_inj.mp (UInt64.toBitVec_inj.mp hbits)

theorem isFinite (h : Holds x a) : x.isFinite = true := Stands.isFinite h

theorem lt_iff (hx : Holds x a) (hy : Holds y b) : x < y ↔ a < b := by
  have hcompare := Stands.compare_eq hx hy
  change decide (x.toModel.lt y.toModel = true) = true ↔ _
  rw [decide_eq_true_eq, Float.Model.lt, UnpackedFloat.lt, hcompare, beq_iff_eq,
    Option.some.injEq, Int.compare_eq_lt]

theorem beq_iff (hx : Holds x a) (hy : Holds y b) : (x == y) = true ↔ a = b := by
  have hcompare := Stands.compare_eq hx hy
  change x.toModel.beq y.toModel = true ↔ _
  rw [Float.Model.beq, UnpackedFloat.beq, hcompare, beq_iff_eq, Option.some.injEq,
    compare_eq_iff_eq]

/-- Floats are in the order of the numbers that they hold. -/
theorem order (hx : Holds x a) (hy : Holds y b) : floatOrder? x y = some (compare a b) := by
  rw [floatOrder?]
  simp only [hx.lt_iff hy, hy.lt_iff hx, hx.beq_iff hy]
  rcases Int.lt_trichotomy a b with h | rfl | h
  · rw [if_pos h, Int.compare_eq_lt.mpr h]
  · rw [if_neg (Int.lt_irrefl a), if_neg (Int.lt_irrefl a), if_pos rfl, compare_eq_iff_eq.mpr rfl]
  · rw [if_neg (by omega), if_pos h, Int.compare_eq_gt.mpr h]

theorem neg (hx : Holds x a) (ha : a ≠ 0) : Holds x.neg (-a) := holds_pack (Stands.neg hx ha)

theorem add (hx : Holds x a) (hy : Holds y b) (hab : (a + b).natAbs < 2 ^ 128) :
    Holds (x + y) (rounded (a + b)) :=
  holds_pack (Stands.add hx hy hab)

theorem mul (hx : Holds x a) (hy : Holds y b) (ha : a ≠ 0) (hb : b ≠ 0)
    (hab : (a * b).natAbs < 2 ^ 128) : Holds (x * y) (rounded (a * b)) :=
  holds_pack (Stands.mul hx hy ha hb hab)

end Holds

section

variable {n : Nat}

theorem rounded_natCast (n : Nat) : rounded n = roundedNat n := rounded_apply .positive n

theorem holds_toFloat (n : UInt64) : Holds n.toFloat (rounded n.toNat) := by
  have hn := n.toNat_lt
  exact holds_pack (stands_normalize (by omega) (by omega) (by simp))

theorem holds_one : Holds (Float.ofBits 0x3FF0000000000000) 1 := by
  have hpack : Float.ofBits 0x3FF0000000000000 =
      ⟨Float.Model.pack (.finite .positive (2 ^ 52) (-52) (by decide))⟩ := by decide
  rw [hpack]
  exact holds_pack (@Stands.finite .positive _ 1 _ _ ⟨by decide, by decide, by decide, by norm_num⟩)

/-- A number with more digits than a mantissa is cut as a product with one. -/
theorem ofScientific_eq (hn : 0 < n) : UnpackedFloat.ofScientific .binary64 n 0 =
    roundWithAccuracy .binary64 .positive (n * 2 ^ 53) (-53) .exact := by
  have hlow : ¬ (0 : Int) < -((2 ^ 11 : Int) + n.log2) := by omega
  have hpow : 10 ^ Int.toNat 0 = 1 := rfl
  rw [UnpackedFloat.ofScientific, dif_neg hn.ne', if_neg (by decide), if_neg hlow,
    if_pos (by decide), UnpackedFloat.mul, Nat.shiftLeft_eq, hpow, Nat.mul_one]
  rfl

theorem holds_ofNat (h : n < 2 ^ 128) : Holds (Float.ofNat n) (roundedNat n) := by
  rcases Nat.eq_zero_or_pos n with rfl | hn
  · exact Stands.zero
  · have hfloat : Float.ofNat n = Float.ofScientific n false 0 := rfl
    rw [Float.ofScientific] at hfloat
    -- a short number is converted as a machine word, a long one by exact arithmetic
    by_cases hshort : n < 2 ^ 53
    · rw [dif_pos ⟨hshort, by decide⟩] at hfloat
      have hbits : n.toUInt64.toNat = n := Nat.mod_eq_of_lt (by omega)
      have hleft := holds_toFloat n.toUInt64
      rw [hbits, rounded_natCast, roundedNat_of_lt hshort] at hleft
      have hproduct := hleft.mul holds_one (by omega) (by decide) (by omega)
      rw [Int.mul_one, rounded_natCast] at hproduct
      exact hfloat ▸ hproduct
    · rw [dif_neg (by omega)] at hfloat
      rw [hfloat]
      refine holds_pack ?_
      change Stands (UnpackedFloat.ofScientific .binary64 n 0) _
      rw [ofScientific_eq hn]
      refine stands_roundWithAccuracy .positive (by omega) (by decide) h ?_
      rw [Nat.cast_mul, mul_assoc, zpow_neg]
      norm_num

/-- The float of a number holds the number rounded. -/
theorem holds_ofInt {n : Int} (h : n.natAbs < 2 ^ 128) : Holds (Float.ofInt n) (rounded n) := by
  cases n with
  | ofNat n =>
    have hn := holds_ofNat h
    rw [← rounded_natCast] at hn
    exact hn
  | negSucc n =>
    have hn := @holds_ofNat (n + 1) h
    have hpos : 2 ^ (n + 1).log2 ≤ roundedNat (n + 1) := (roundedNat_within (by omega)).1
    have hpow := Nat.two_pow_pos (n + 1).log2
    have hrounded : rounded (Int.negSucc n) = -(roundedNat (n + 1) : Int) :=
      rounded_apply .negative (n + 1)
    rw [hrounded]
    exact hn.neg (by omega)

/-- The sum of the floats of two numbers is the float of the sum of what they hold. -/
theorem ofInt_add_ofInt {a b : Int} (ha : a.natAbs < 2 ^ 126) (hb : b.natAbs < 2 ^ 126) :
    Float.ofInt a + Float.ofInt b = Float.ofInt (rounded a + rounded b) := by
  have hleft := natAbs_rounded_le ha
  have hright := natAbs_rounded_le hb
  have hbound : (rounded a + rounded b).natAbs < 2 ^ 128 := by omega
  have hsum := (holds_ofInt (n := a) (by omega)).add (holds_ofInt (n := b) (by omega)) hbound
  exact hsum.unique (holds_ofInt hbound)

end

namespace Value

variable {n : Int}

/-- The integers of documents. -/
def InRange (n : Int) : Prop := minInt ≤ n ∧ n ≤ maxInt

instance (n : Int) : Decidable (InRange n) := inferInstanceAs (Decidable (_ ∧ _))

theorem InRange.natAbs_lt (h : InRange n) : n.natAbs < 2 ^ 126 := by
  obtain ⟨hmin, hmax⟩ := h
  simp only [minInt, maxInt] at hmin hmax
  omega

theorem signed?_of_le (h : n ≤ maxSigned) : (Value.int n).signed? = some n := if_pos h

theorem signed?_of_lt (h : maxSigned < n) : (Value.int n).signed? = none :=
  if_neg (Int.not_le.mpr h)

end Value

end StatesLanguage
