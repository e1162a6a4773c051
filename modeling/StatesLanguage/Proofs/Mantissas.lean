import Mathlib
import StatesLanguage.Proofs.Digits

/-! Whole numbers in unpacked floats. The operations of the format round a result as a whole number
is rounded to 53 digits, compare floats as the numbers that they stand for, and pack them without
loss. -/
namespace StatesLanguage

open Float.Model Float.Model.UnpackedFloat

/-- A full mantissa of the format with its exponent, as a whole number. -/
structure Mantissa (m : Nat) (e : Int) (n : Nat) : Prop where
  low : 2 ^ 52 ≤ m
  up : m < 2 ^ 53
  fits : e ≤ 971
  value : (m : ℚ) * 2 ^ e = n

/-- A float stands for a whole number, positive zero for zero. -/
inductive Stands : UnpackedFloat → Int → Prop where
  | zero : Stands (.zero .positive) 0
  | finite (sign : Sign) {m n : Nat} {e : Int} (hm : 0 < m) (h : Mantissa m e n) :
      Stands (.finite sign m e hm) (sign.apply n)

section

variable {m n k : Nat} {e : Int}

/-- The registers of a number that has been shifted: its units, whether the rest is half a unit or
more, and whether it is neither nothing nor half a unit. -/
theorem shiftRight_eq (n k : Nat) :
    ExtendedMantissa.mk n false false >>> k =
      ⟨n / 2 ^ k, decide (2 ^ k ≤ 2 * (n % 2 ^ k)),
        decide (2 * (n % 2 ^ k) ≠ 0 ∧ 2 * (n % 2 ^ k) ≠ 2 ^ k)⟩ := by
  induction k with
  | zero =>
    simp [Nat.mod_one]
    rfl
  | succ k ih =>
    -- the last digit of the units becomes the first of the rest
    have hstep : ExtendedMantissa.mk n false false >>> (k + 1) =
        (ExtendedMantissa.mk n false false >>> k).shiftRightOne := rfl
    have hbit := Nat.mod_two_eq_zero_or_one (n / 2 ^ k)
    have hrest : n % 2 ^ (k + 1) = n % 2 ^ k + 2 ^ k * (n / 2 ^ k % 2) := by
      rw [Nat.pow_succ, Nat.mod_mul]
    have hlt : n % 2 ^ k < 2 ^ k := Nat.mod_lt _ (Nat.two_pow_pos k)
    rw [hstep, ih, ExtendedMantissa.shiftRightOne, hrest, Nat.pow_succ, Nat.div_div_eq_div_mul]
    congr 1
    · rcases hbit with h | h <;> simp [h] <;> omega
    · rw [← Bool.decide_or]
      rcases hbit with h | h <;> simp only [h, decide_eq_decide] <;> omega

theorem roundedMantissa_eq {low unit rest : Nat} (hunit : 0 < unit) :
    (ExtendedMantissa.mk low (decide (unit ≤ rest))
        (decide (rest ≠ 0 ∧ rest ≠ unit))).roundedMantissa =
      if unit < rest ∨ rest = unit ∧ low % 2 = 1 then low + 1 else low := by
  rcases Nat.lt_trichotomy rest unit with hlt | rfl | hgt
  · rw [decide_eq_false (Nat.not_le.mpr hlt), if_neg (by omega)]
    cases decide (rest ≠ 0 ∧ rest ≠ unit) <;> rfl
  · rw [decide_eq_true (Nat.le_refl rest), decide_eq_false (by simp)]
    change low + low % 2 = _
    split <;> omega
  · rw [decide_eq_true hgt.le, decide_eq_true (by omega), if_pos (Or.inl hgt)]
    rfl

/-- What is left of a shifted number is rounded as a number of units. -/
theorem roundedMantissa_shiftRight (n k : Nat) :
    (ExtendedMantissa.mk n false false >>> k).roundedMantissa = inUnits n k := by
  rw [shiftRight_eq, roundedMantissa_eq (Nat.two_pow_pos k), inUnits]

theorem targetExponent_eq (m : Nat) (e : Int) :
    Format.binary64.targetExponent (totalExponent m e) = max (m.log2 + 1 + e - 53) (-1074) := rfl

theorem shiftToTargetExponent_eq
    (h : Format.binary64.targetExponent (totalExponent m e) = e + k) :
    shiftToTargetExponent .binary64 m e .exact =
      (ExtendedMantissa.mk m false false >>> k, e + k) := by
  rw [shiftToTargetExponent, shiftToExponent, h]
  simp [ExtendedMantissa.ofMantissaAndAccuracy]

theorem roundWithAccuracy_eq {sign : Sign} {em em' : ExtendedMantissa} {e' e'' : Int}
    (hfirst : shiftToTargetExponent .binary64 m e .exact = (em, e'))
    (hsecond : shiftToTargetExponent .binary64 em.roundedMantissa e' .exact = (em', e''))
    (hpos : 0 < em'.mantissa) :
    roundWithAccuracy .binary64 sign m e .exact = .finite sign em'.mantissa e'' hpos := by
  simp only [roundWithAccuracy, hfirst, hsecond, hpos.ne', dite_false]

/-- Rounding up can take one digit too many; all digits after the first are zeros then. -/
theorem exists_full (hlow : 2 ^ 52 ≤ n) (hup : n ≤ 2 ^ 53) :
    ∃ low k, n = low * 2 ^ k ∧ n.log2 = 52 + k ∧ 2 ^ 52 ≤ low ∧ low < 2 ^ 53 := by
  rcases hup.lt_or_eq with hlt | rfl
  · exact ⟨n, 0, (Nat.mul_one n).symm, (Nat.log2_eq_iff (by omega)).mpr ⟨hlow, hlt⟩, hlow, hlt⟩
  · exact ⟨2 ^ 52, 1, rfl, Nat.log2_two_pow, le_rfl, by decide⟩

/-- A mantissa with digits to spare is cut to 53 of them. -/
theorem roundWithAccuracy_finite (sign : Sign) (hm : 2 ^ 52 ≤ m) (he : -1074 ≤ e) :
    ∃ low k hlow, roundWithAccuracy .binary64 sign m e .exact =
        .finite sign low (e + (k : Nat)) hlow ∧
      2 ^ 52 ≤ low ∧ low < 2 ^ 53 ∧ low * 2 ^ k = roundedNat m := by
  have hlog : 52 ≤ m.log2 := (Nat.le_log2 (by omega)).mpr hm
  obtain ⟨k, hk⟩ : ∃ k, m.log2 + 1 - 53 = k := ⟨_, rfl⟩
  have hdigits := digits_bounds hm
  have hbounds := inUnits_bounds m k
  rw [hk] at hdigits
  obtain ⟨low, j, hunits, hlog', hlow, hup⟩ :=
    exists_full (n := inUnits m k) (by omega) (by omega)
  -- the first shift keeps 53 digits, and the second one drops the digit that rounding up can add
  have hfirst := shiftToTargetExponent_eq (m := m) (e := e) (k := k)
    (by rw [targetExponent_eq]; omega)
  have hsecond := shiftToTargetExponent_eq (m := inUnits m k) (e := e + k) (k := j)
    (by rw [targetExponent_eq, hlog']; omega)
  have hmantissa : (ExtendedMantissa.mk (inUnits m k) false false >>> j).mantissa = low := by
    rw [shiftRight_eq, hunits, Nat.mul_div_cancel _ (Nat.two_pow_pos j)]
  rw [← roundedMantissa_shiftRight] at hsecond hmantissa
  refine ⟨low, k + j, by omega, ?_, hlow, hup, ?_⟩
  · rw [roundWithAccuracy_eq hfirst hsecond (by omega)]
    congr 1
    push_cast
    omega
  · rw [roundedNat_eq, hk, hunits, Nat.pow_add, Nat.mul_assoc, Nat.mul_comm (2 ^ j)]

/-- Rounding does not depend on the power of two that a number is counted in. -/
theorem roundedNat_scaled (h : (m : ℚ) * 2 ^ e = n) :
    (roundedNat m : ℚ) * 2 ^ e = roundedNat n := by
  obtain ⟨k, rfl | rfl⟩ := e.eq_nat_or_neg
  · rw [zpow_natCast] at h ⊢
    have hn : m * 2 ^ k = n := by exact_mod_cast h
    rw [← hn, roundedNat_mul_pow]
    push_cast
    rfl
  · rw [zpow_neg, zpow_natCast, mul_inv_eq_iff_eq_mul₀ (by positivity)] at h ⊢
    have hm : m = n * 2 ^ k := by exact_mod_cast h
    rw [hm, roundedNat_mul_pow]
    push_cast
    rfl

theorem pos_of_value (hm : 0 < m) (hvalue : (m : ℚ) * 2 ^ e = n) : 0 < n := by
  have hn : (0 : ℚ) < n := hvalue ▸ by positivity
  exact_mod_cast hn

/-- A whole number has its digits before the point. -/
theorem log2_nonneg (hm : 0 < m) (hvalue : (m : ℚ) * 2 ^ e = n) : 0 ≤ m.log2 + e := by
  have hlt : (2 : ℚ) ^ (0 : Int) < 2 ^ ((m.log2 + 1 : Nat) + e) := by
    have hm' : (m : ℚ) < 2 ^ (m.log2 + 1) := by exact_mod_cast Nat.lt_log2_self
    calc (2 : ℚ) ^ (0 : Int) ≤ n := by exact_mod_cast pos_of_value hm hvalue
      _ = m * 2 ^ e := hvalue.symm
      _ < 2 ^ (m.log2 + 1) * 2 ^ e := mul_lt_mul_of_pos_right hm' (by positivity)
      _ = 2 ^ ((m.log2 + 1 : Nat) + e) := by rw [zpow_add₀ (by norm_num), zpow_natCast]
  have := (zpow_lt_zpow_iff_right₀ (by norm_num)).mp hlt
  omega

theorem exponent_lt (hlow : 2 ^ 52 ≤ m) (hn : n < 2 ^ (k + 52)) (h : (m : ℚ) * 2 ^ e = n) :
    e < k := by
  by_contra hge
  have hpow : (2 : ℚ) ^ k ≤ 2 ^ e := by
    rw [← zpow_natCast]
    exact zpow_le_zpow_right₀ (by norm_num) (by omega)
  have hlow' : (2 : ℚ) ^ 52 ≤ m := by exact_mod_cast hlow
  have hn' : (n : ℚ) < 2 ^ k * 2 ^ 52 := by
    rw [← pow_add]
    exact_mod_cast hn
  have := mul_le_mul hlow' hpow (by positivity) (by positivity)
  linarith

end

namespace Mantissa

variable {m m' n n' : Nat} {e e' : Int}

theorem pos (h : Mantissa m e n) : 0 < n := pos_of_value (by have := h.low; omega) h.value

theorem exponent_ge (h : Mantissa m e n) : -52 ≤ e := by
  have hlow := h.low
  have hlog : m.log2 = 52 := (Nat.log2_eq_iff (by omega)).mpr ⟨hlow, h.up⟩
  have := log2_nonneg (by omega) h.value
  omega

theorem rounded_eq (h : Mantissa m e n) : roundedNat n = n := by
  have hn := roundedNat_scaled h.value
  rw [roundedNat_of_lt h.up, h.value] at hn
  exact_mod_cast hn.symm

theorem lt_of_lt (h : Mantissa m e n) (h' : Mantissa m' e n') (hlt : m < m') : n < n' := by
  have hvalue : (m : ℚ) * 2 ^ e < m' * 2 ^ e :=
    mul_lt_mul_of_pos_right (by exact_mod_cast hlt) (by positivity)
  rw [h.value, h'.value] at hvalue
  exact_mod_cast hvalue

theorem lt_of_exponent_lt (h : Mantissa m e n) (h' : Mantissa m' e' n') (hlt : e < e') :
    n < n' := by
  have hup : (m : ℚ) < 2 ^ 53 := by exact_mod_cast h.up
  have hlow : (2 : ℚ) ^ 52 ≤ m' := by exact_mod_cast h'.low
  have hn : (n : ℚ) < n' := by
    calc (n : ℚ) = m * 2 ^ e := h.value.symm
      _ < 2 ^ 53 * 2 ^ e := mul_lt_mul_of_pos_right hup (by positivity)
      _ = 2 ^ 52 * 2 ^ (e + 1) := by rw [zpow_add_one₀ (by norm_num)]; ring
      _ ≤ 2 ^ 52 * 2 ^ e' :=
        mul_le_mul_of_nonneg_left (zpow_le_zpow_right₀ (by norm_num) hlt) (by positivity)
      _ ≤ m' * 2 ^ e' := mul_le_mul_of_nonneg_right hlow (by positivity)
      _ = n' := h'.value
  exact_mod_cast hn

/-- Mantissas with their exponents are in the order of the numbers. -/
theorem compare_eq (h : Mantissa m e n) (h' : Mantissa m' e' n') :
    (compare e e').then (compare m m') = compare (n : Int) n' := by
  rcases Int.lt_trichotomy e e' with hlt | rfl | hgt
  · have hn := h.lt_of_exponent_lt h' hlt
    rw [Int.compare_eq_lt.mpr hlt, Int.compare_eq_lt.mpr (by omega)]
    rfl
  · -- numbers of as many digits are in the order of their mantissas
    rw [compare_eq_iff_eq.mpr (rfl : e = e), Ordering.eq_then]
    rcases Nat.lt_trichotomy m m' with hlt | rfl | hgt
    · have hn := h.lt_of_lt h' hlt
      rw [Nat.compare_eq_lt.mpr hlt, Int.compare_eq_lt.mpr (by omega)]
    · have hn : n = n' := by exact_mod_cast h.value.symm.trans h'.value
      rw [compare_eq_iff_eq.mpr (rfl : m = m), hn, compare_eq_iff_eq.mpr rfl]
    · have hn := h'.lt_of_lt h hgt
      rw [Nat.compare_eq_gt.mpr hgt, Int.compare_eq_gt.mpr (by omega)]
  · have hn := h'.lt_of_exponent_lt h hgt
    rw [Int.compare_eq_gt.mpr hgt, Int.compare_eq_gt.mpr (by omega)]
    rfl

end Mantissa

section

variable {sign sign' : Sign} {n n' : Nat}

theorem natAbs_apply (sign : Sign) (n : Nat) : (sign.apply n).natAbs = n := by
  cases sign <;> simp [Sign.apply]

theorem apply_ne_zero (hn : 0 < n) : sign.apply n ≠ 0 := by
  cases sign <;> simp only [Sign.apply] <;> omega

theorem apply_inj (hn : 0 < n) (h : sign.apply n = sign'.apply n') : sign = sign' ∧ n = n' := by
  cases sign <;> cases sign' <;> simp only [Sign.apply] at h <;>
    first | exact ⟨rfl, by omega⟩ | omega

theorem apply_value (sign : Sign) {m : Nat} {x : ℚ} (h : (m : ℚ) * x = n) :
    ((sign.apply m : Int) : ℚ) * x = (sign.apply n : Int) := by
  cases sign <;> simp [Sign.apply, h]

theorem apply_mul_apply (sign sign' : Sign) (n n' : Nat) :
    sign.apply n * sign'.apply n' = (sign * sign').apply (n * n' : Nat) := by
  rw [Nat.cast_mul]
  cases sign with
  | negative =>
    cases sign' with
    | negative => exact neg_mul_neg _ _
    | positive => exact neg_mul _ _
  | positive =>
    cases sign' with
    | negative => exact mul_neg _ _
    | positive => rfl

theorem neg_apply (sign : Sign) (n : Nat) : -sign.apply n = (-sign).apply n := by
  cases sign with
  | negative => exact Int.neg_neg _
  | positive => rfl

theorem rounded_apply (sign : Sign) (n : Nat) :
    rounded (sign.apply n) = sign.apply (roundedNat n) := by
  have hzero : roundedNat 0 = 0 := roundedNat_of_lt (by decide)
  rcases Nat.eq_zero_or_pos n with rfl | hn
  · cases sign <;> simp [Sign.apply, rounded, hzero]
  · cases sign
    · rw [Sign.apply, rounded, if_pos (by omega), Int.natAbs_neg, Int.natAbs_natCast]
      rfl
    · rw [Sign.apply, rounded, if_neg (by omega), Int.natAbs_natCast]
      rfl

/-- A number that is counted in a power of two is counted with its sign. -/
theorem exists_apply {m n e : Int} (hm : m ≠ 0) (hvalue : (m : ℚ) * 2 ^ e = n) :
    ∃ (sign : Sign) (k l : Nat), 0 < k ∧ m = sign.apply k ∧ n = sign.apply l ∧
      (k : ℚ) * 2 ^ e = l := by
  have hpow : (0 : ℚ) < 2 ^ e := by positivity
  obtain ⟨k, rfl | rfl⟩ := m.eq_nat_or_neg
  · have hn : (0 : ℚ) ≤ n := hvalue ▸ by positivity
    obtain ⟨l, rfl⟩ := Int.eq_ofNat_of_zero_le (by exact_mod_cast hn : 0 ≤ n)
    exact ⟨.positive, k, l, by omega, rfl, rfl, by exact_mod_cast hvalue⟩
  · have hneg : (k : ℚ) * 2 ^ e = (-n : Int) := by
      push_cast at hvalue ⊢
      linarith
    have hn : (0 : ℚ) ≤ (-n : Int) := hneg ▸ by positivity
    obtain ⟨l, hl⟩ := Int.eq_ofNat_of_zero_le (by exact_mod_cast hn : 0 ≤ -n)
    refine ⟨.negative, k, l, by omega, rfl, ?_, ?_⟩
    · rw [Sign.apply, ← hl, Int.neg_neg]
    · rw [hneg, hl, Int.cast_natCast]

end

section

variable {m n : Nat} {e : Int}

theorem stands_roundWithAccuracy (sign : Sign) (hm : 2 ^ 52 ≤ m) (he : -1074 ≤ e)
    (hn : n < 2 ^ 128) (hvalue : (m : ℚ) * 2 ^ e = n) :
    Stands (roundWithAccuracy .binary64 sign m e .exact) (sign.apply (roundedNat n)) := by
  obtain ⟨low, k, hpos, hround, hlow, hup, hmul⟩ := roundWithAccuracy_finite sign hm he
  have hfinal : (low : ℚ) * 2 ^ (e + k) = roundedNat n := by
    rw [← roundedNat_scaled hvalue, ← hmul, zpow_add₀ (by norm_num), zpow_natCast]
    push_cast
    ring
  have hbound : roundedNat n < 2 ^ (128 + 52) :=
    (roundedNat_le hn).trans_lt (Nat.pow_lt_pow_right (by decide) (by decide))
  have hfits := exponent_lt hlow hbound hfinal
  rw [hround]
  exact .finite sign hpos ⟨hlow, hup, by omega, hfinal⟩

/-- A mantissa with too few digits gets more of them before it is cut. -/
theorem stands_round (sign : Sign) (hm : 0 < m) (he : -1074 ≤ e) (hn : n < 2 ^ 128)
    (hvalue : (m : ℚ) * 2 ^ e = n) :
    Stands (UnpackedFloat.round .binary64 sign m e) (sign.apply (roundedNat n)) := by
  obtain ⟨k, hk⟩ : ∃ k, (e - Format.binary64.targetExponent (totalExponent m e)).toNat = k :=
    ⟨_, rfl⟩
  have hround : UnpackedFloat.round .binary64 sign m e =
      roundWithAccuracy .binary64 sign (m * 2 ^ k) (e - k) .exact := by
    rw [← hk, ← Nat.shiftLeft_eq]
    rfl
  have hlog := log2_nonneg hm hvalue
  rw [targetExponent_eq] at hk
  rw [hround]
  refine stands_roundWithAccuracy sign ?_ (by omega) hn ?_
  · calc 2 ^ 52 ≤ 2 ^ (m.log2 + k) := Nat.pow_le_pow_right (by decide) (by omega)
      _ = 2 ^ m.log2 * 2 ^ k := Nat.pow_add _ _ _
      _ ≤ m * 2 ^ k := Nat.mul_le_mul_right _ (Nat.log2_self_le hm.ne')
  · rw [← hvalue, zpow_sub₀ (by norm_num), zpow_natCast]
    push_cast
    field_simp

theorem normalize_apply (sign : Sign) (hm : 0 < m) (e : Int) :
    UnpackedFloat.normalize .binary64 (sign.apply m) e .positive =
      UnpackedFloat.round .binary64 sign m e := by
  cases sign with
  | negative =>
    have hlt : compare (-(m : Int)) 0 = .lt := Int.compare_eq_lt.mpr (by omega)
    rw [UnpackedFloat.normalize, Sign.apply, hlt]
    simp
  | positive =>
    have hgt : compare (m : Int) 0 = .gt := Int.compare_eq_gt.mpr (by omega)
    rw [UnpackedFloat.normalize, Sign.apply, hgt]
    simp

theorem stands_normalize {m n : Int} (he : -1074 ≤ e) (hn : n.natAbs < 2 ^ 128)
    (hvalue : (m : ℚ) * 2 ^ e = n) :
    Stands (UnpackedFloat.normalize .binary64 m e .positive) (rounded n) := by
  rcases eq_or_ne m 0 with rfl | hm
  · have hzero : n = 0 := by simpa using hvalue.symm
    rw [hzero]
    exact .zero
  · obtain ⟨sign, k, l, hk, rfl, rfl, hkl⟩ := exists_apply hm hvalue
    rw [normalize_apply sign hk, rounded_apply]
    exact stands_round sign hk he (natAbs_apply sign l ▸ hn) hkl

/-- The mantissa that an addition lines up stands for the same number. -/
theorem lined_value {e' : Int} (he : e' ≤ e) (h : (m : ℚ) * 2 ^ e = n) :
    ((m <<< (e - e').toNat : Nat) : ℚ) * 2 ^ e' = n := by
  have hpow : (2 : ℚ) ^ e = 2 ^ (e - e').toNat * 2 ^ e' := by
    rw [← zpow_natCast, ← zpow_add₀ (by norm_num)]
    congr 1
    omega
  rw [← h, hpow, Nat.shiftLeft_eq]
  push_cast
  ring

end

theorem compare_neg (a b : Int) : compare (-a) (-b) = (compare a b).swap := by
  rcases Int.lt_trichotomy a b with h | rfl | h
  · rw [Int.compare_eq_lt.mpr h, Int.compare_eq_gt.mpr (by omega), Ordering.swap_lt]
  · rw [compare_eq_iff_eq.mpr rfl, compare_eq_iff_eq.mpr rfl, Ordering.swap_eq]
  · rw [Int.compare_eq_gt.mpr h, Int.compare_eq_lt.mpr (by omega), Ordering.swap_gt]

theorem Mantissa.pack_eq {m n b : Nat} {e : Int} (h : Mantissa m e n) (hb : e + 1075 = b)
    (sign : Sign) (hm : 0 < m) : UnpackedFloat.pack .binary64 (.finite sign m e hm) =
      packComponents .binary64 sign (BitVec.ofNat 11 b) (BitVec.ofNat 52 m) := by
  have hlog : m.log2 = 52 := (Nat.log2_eq_iff hm.ne').mpr ⟨h.low, h.up⟩
  have hfits := h.fits
  have hbias : (e + (Format.binary64.exponentBias : Nat) +
      (Format.binary64.mantissaBitsWithoutImplicit : Nat)).toNat = b := by
    change (e + 1023 + 52).toNat = b
    omega
  rw [UnpackedFloat.pack, hbias, if_neg, if_pos]
  · rw [hlog]
    rfl
  · change ¬ 2048 ≤ b + 1
    omega

namespace Stands

variable {u v : UnpackedFloat} {a b : Int}

theorem isFinite (h : Stands u a) : u.isFinite = true := by
  cases h <;> rfl

theorem rounded_eq (h : Stands u a) : rounded a = a := by
  cases h with
  | zero => exact rounded_of_lt (by decide)
  | finite sign hm h => rw [rounded_apply, h.rounded_eq]

/-- Floats are compared as the numbers that they stand for. -/
theorem compare_eq (hu : Stands u a) (hv : Stands v b) : u.compare v = some (compare a b) := by
  cases hu with
  | zero =>
    cases hv with
    | zero => rfl
    | finite sign' hm' h' =>
      have hn' := h'.pos
      cases sign' with
      | positive => rw [Sign.apply, Int.compare_eq_lt.mpr (by omega)]; rfl
      | negative => rw [Sign.apply, Int.compare_eq_gt.mpr (by omega)]; rfl
  | finite sign hm h =>
    have hn := h.pos
    cases hv with
    | zero =>
      cases sign with
      | positive => rw [Sign.apply, Int.compare_eq_gt.mpr (by omega)]; rfl
      | negative => rw [Sign.apply, Int.compare_eq_lt.mpr (by omega)]; rfl
    | finite sign' hm' h' =>
      have hn' := h'.pos
      cases sign with
      | positive =>
        cases sign' with
        | positive =>
          rw [UnpackedFloat.compare, h.compare_eq h']
          rfl
        | negative => rw [Sign.apply, Sign.apply, Int.compare_eq_gt.mpr (by omega)]; rfl
      | negative =>
        cases sign' with
        | positive => rw [Sign.apply, Sign.apply, Int.compare_eq_lt.mpr (by omega)]; rfl
        | negative =>
          rw [UnpackedFloat.compare, h.compare_eq h', Sign.apply, Sign.apply, compare_neg]

/-- One float stands for a number. -/
theorem unique (hu : Stands u a) (hv : Stands v b) (hab : a = b) : u = v := by
  cases hu with
  | zero =>
    cases hv with
    | zero => rfl
    | finite sign' hm' h' => exact (apply_ne_zero h'.pos hab.symm).elim
  | finite sign hm h =>
    cases hv with
    | zero => exact (apply_ne_zero h.pos hab).elim
    | finite sign' hm' h' =>
      obtain ⟨rfl, rfl⟩ := apply_inj h.pos hab
      have hdigits := h.compare_eq h'
      rw [compare_eq_iff_eq.mpr rfl, Ordering.then_eq_eq, compare_eq_iff_eq,
        compare_eq_iff_eq] at hdigits
      obtain ⟨rfl, rfl⟩ := hdigits
      rfl

/-- A float that stands for a number is packed without loss. -/
theorem unpack_pack (h : Stands u a) :
    UnpackedFloat.unpack .binary64 (UnpackedFloat.pack .binary64 u) = u := by
  cases h with
  | zero => rfl
  | @finite sign m n e hm h =>
    have hlow := h.low
    have hup := h.up
    have hfits := h.fits
    have hmin := h.exponent_ge
    obtain ⟨b, hb⟩ : ∃ b : Nat, e + 1075 = b := ⟨(e + 1075).toNat, by omega⟩
    have hexp : (BitVec.ofNat 11 b).toNat = b := Nat.mod_eq_of_lt (by omega)
    have hones : BitVec.ofNat 11 b ≠ -1#11 := by
      intro h
      have h : b = 2047 := hexp.symm.trans (congrArg BitVec.toNat h)
      omega
    have hzeros : BitVec.ofNat 11 b ≠ 0#11 := by
      intro h
      have h : b = 0 := hexp.symm.trans (congrArg BitVec.toNat h)
      omega
    have hmant : (1#1 ++ BitVec.ofNat 52 m).toNat = m := by
      rw [BitVec.toNat_append, ← Nat.shiftLeft_add_eq_or_of_lt (BitVec.isLt _)]
      simp
      omega
    rw [h.pack_eq hb, UnpackedFloat.unpack]
    simp only [unpackMantissa_packComponents, unpackExponent_packComponents,
      unpackSign_packComponents, Sign.ofBitVec_toBitVec]
    rw [if_neg hones, if_neg hzeros]
    congr 1
    change ((BitVec.ofNat 11 b).toNat : Int) - (1023 + 52) = e
    omega

theorem neg (hu : Stands u a) (ha : a ≠ 0) : Stands u.neg (-a) := by
  cases hu with
  | zero => exact (ha rfl).elim
  | finite sign hm h =>
    rw [neg_apply]
    exact .finite (-sign) hm h

theorem add (hu : Stands u a) (hv : Stands v b) (hab : (a + b).natAbs < 2 ^ 128) :
    Stands (UnpackedFloat.add .binary64 u v) (rounded (a + b)) := by
  cases hu with
  | zero =>
    rw [Int.zero_add, hv.rounded_eq]
    cases hv with
    | zero => exact .zero
    | finite sign' hm' h' => exact .finite sign' hm' h'
  | @finite sign m n e hm h =>
    cases hv with
    | zero =>
      rw [Int.add_zero, (Stands.finite sign hm h).rounded_eq]
      exact .finite sign hm h
    | @finite sign' m' n' e' hm' h' =>
      have hmin := h.exponent_ge
      have hmin' := h'.exponent_ge
      have hleft := apply_value sign (lined_value (min_le_left e e') h.value)
      have hright := apply_value sign' (lined_value (min_le_right e e') h'.value)
      refine stands_normalize (by omega) hab ?_
      push_cast at hleft hright ⊢
      rw [← hleft, ← hright, ← add_mul]

theorem mul (hu : Stands u a) (hv : Stands v b) (ha : a ≠ 0) (hb : b ≠ 0)
    (hab : (a * b).natAbs < 2 ^ 128) :
    Stands (UnpackedFloat.mul .binary64 u v) (rounded (a * b)) := by
  cases hu with
  | zero => exact (ha rfl).elim
  | @finite sign m n e hm h =>
    cases hv with
    | zero => exact (hb rfl).elim
    | @finite sign' m' n' e' hm' h' =>
      have hmin := h.exponent_ge
      have hmin' := h'.exponent_ge
      rw [apply_mul_apply] at hab ⊢
      rw [rounded_apply]
      rw [natAbs_apply] at hab
      refine stands_roundWithAccuracy _ ?_ (by omega) hab ?_
      · exact h.low.trans (Nat.le_mul_of_pos_right _ hm')
      · rw [zpow_add₀ (by norm_num), Nat.cast_mul, Nat.cast_mul, ← h.value, ← h'.value]
        ring

end Stands

end StatesLanguage
