import Mathlib.Data.Nat.Log
import Mathlib.Tactic.Positivity
import StatesLanguage.Json.Rounding

/-! Rounding to 53 binary digits: it keeps the order of numbers, and zeros after the digits do not
matter. -/
namespace StatesLanguage

section

variable {m n k : Nat}

/-- A number in units of a power of two, rounded to the nearest, the even one of two. -/
def inUnits (n k : Nat) : Nat :=
  if 2 ^ k < 2 * (n % 2 ^ k) ∨ 2 * (n % 2 ^ k) = 2 ^ k ∧ n / 2 ^ k % 2 = 1 then n / 2 ^ k + 1
  else n / 2 ^ k

theorem roundedNat_eq (n : Nat) :
    roundedNat n = inUnits n (n.log2 + 1 - 53) * 2 ^ (n.log2 + 1 - 53) := rfl

theorem inUnits_zero (n : Nat) : inUnits n 0 = n := by
  simp [inUnits, Nat.mod_one]

theorem inUnits_bounds (n k : Nat) : n / 2 ^ k ≤ inUnits n k ∧ inUnits n k ≤ n / 2 ^ k + 1 := by
  rw [inUnits]
  split <;> omega

theorem inUnits_mul (n k j : Nat) : inUnits (n * 2 ^ j) (k + j) = inUnits n k := by
  have hj : 0 < 2 ^ j := Nat.two_pow_pos j
  have hrest : 2 * (n * 2 ^ j % (2 ^ k * 2 ^ j)) = 2 * (n % 2 ^ k) * 2 ^ j := by
    rw [Nat.mul_mod_mul_right, Nat.mul_assoc]
  have hquot : n * 2 ^ j / (2 ^ k * 2 ^ j) = n / 2 ^ k := Nat.mul_div_mul_right _ _ hj
  simp only [inUnits, Nat.pow_add, hrest, hquot, Nat.mul_lt_mul_right hj, Nat.mul_left_inj hj.ne']

theorem inUnits_mono (h : m ≤ n) (k : Nat) : inUnits m k ≤ inUnits n k := by
  have hk : 0 < 2 ^ k := Nat.two_pow_pos k
  have hm := Nat.div_add_mod m (2 ^ k)
  have hn := Nat.div_add_mod n (2 ^ k)
  rcases (Nat.div_le_div_right (c := 2 ^ k) h).lt_or_eq with hlt | heq
  · exact (inUnits_bounds m k).2.trans (hlt.trans_le (inUnits_bounds n k).1)
  · have hrest : m % 2 ^ k ≤ n % 2 ^ k := by
      rw [heq] at hm
      omega
    rw [inUnits, inUnits, heq]
    split <;> split <;> omega

theorem log2_mul_pow (hn : n ≠ 0) (k : Nat) : (n * 2 ^ k).log2 = n.log2 + k := by
  rw [Nat.log2_eq_iff (by positivity), Nat.pow_add, Nat.add_right_comm, Nat.pow_add]
  have hk : 0 < 2 ^ k := Nat.two_pow_pos k
  exact ⟨Nat.mul_le_mul_right _ (Nat.log2_self_le hn),
    (Nat.mul_lt_mul_right hk).mpr Nat.lt_log2_self⟩

/-- Rounding a number does not depend on zeros after its binary digits. -/
theorem roundedNat_mul_pow (n k : Nat) : roundedNat (n * 2 ^ k) = roundedNat n * 2 ^ k := by
  rcases Nat.eq_zero_or_pos n with rfl | hn
  · rw [Nat.zero_mul]
    simp [roundedNat]
  rw [roundedNat_eq, roundedNat_eq, log2_mul_pow hn.ne']
  rcases Nat.le_total 53 (n.log2 + 1) with hlong | hshort
  · have hunit : n.log2 + k + 1 - 53 = n.log2 + 1 - 53 + k := by omega
    rw [hunit, inUnits_mul, Nat.pow_add, Nat.mul_assoc]
  · have hunit : n.log2 + 1 - 53 = 0 := by omega
    obtain ⟨j, hj⟩ := Nat.exists_eq_add_of_le (show n.log2 + k + 1 - 53 ≤ k by omega)
    have hsplit : n * 2 ^ k = n * 2 ^ j * 2 ^ (n.log2 + k + 1 - 53) := by
      rw [Nat.mul_assoc, ← Nat.pow_add, Nat.add_comm j, ← hj]
    have hnone := inUnits_mul (n * 2 ^ j) 0 (n.log2 + k + 1 - 53)
    rw [Nat.zero_add, inUnits_zero, ← hsplit] at hnone
    rw [hunit, inUnits_zero, Nat.pow_zero, Nat.mul_one, hnone, ← hsplit]

/-- The digits that are kept of a long number. -/
theorem digits_bounds (hn : 2 ^ 52 ≤ n) :
    2 ^ 52 ≤ n / 2 ^ (n.log2 + 1 - 53) ∧ n / 2 ^ (n.log2 + 1 - 53) < 2 ^ 53 := by
  have hpos : n ≠ 0 := by omega
  have hlog : 52 ≤ n.log2 := (Nat.le_log2 hpos).mpr hn
  constructor
  · rw [Nat.le_div_iff_mul_le (Nat.two_pow_pos _), ← Nat.pow_add]
    refine le_trans (Nat.pow_le_pow_right (by decide) (by omega)) (Nat.log2_self_le hpos)
  · rw [Nat.div_lt_iff_lt_mul (Nat.two_pow_pos _), ← Nat.pow_add]
    exact lt_of_lt_of_le Nat.lt_log2_self (Nat.pow_le_pow_right (by decide) (by omega))

/-- Rounding stays between the powers of two around a number. -/
theorem roundedNat_within (hn : n ≠ 0) :
    2 ^ n.log2 ≤ roundedNat n ∧ roundedNat n ≤ 2 ^ (n.log2 + 1) := by
  rcases Nat.lt_or_ge n (2 ^ 53) with hshort | hlong
  · rw [roundedNat_of_lt hshort]
    exact ⟨Nat.log2_self_le hn, Nat.lt_log2_self.le⟩
  · have hlog : 53 ≤ n.log2 := (Nat.le_log2 hn).mpr hlong
    have hdigits := digits_bounds (n := n) (by omega)
    have hunits := inUnits_bounds n (n.log2 + 1 - 53)
    have hlow : 2 ^ n.log2 = 2 ^ 52 * 2 ^ (n.log2 + 1 - 53) := by
      rw [← Nat.pow_add]
      congr 1
      omega
    rw [roundedNat_eq, Nat.pow_succ, hlow, Nat.mul_right_comm]
    exact ⟨Nat.mul_le_mul_right _ (by omega), Nat.mul_le_mul_right _ (by omega)⟩

theorem roundedNat_le (h : n < 2 ^ k) : roundedNat n ≤ 2 ^ k := by
  rcases Nat.eq_zero_or_pos n with rfl | hn
  · rw [roundedNat_of_lt (by decide)]
    exact Nat.zero_le _
  · exact (roundedNat_within hn.ne').2.trans
      (Nat.pow_le_pow_right (by decide) ((Nat.log2_lt hn.ne').mpr h))

theorem roundedNat_mono (h : m ≤ n) : roundedNat m ≤ roundedNat n := by
  rcases Nat.eq_zero_or_pos m with rfl | hm
  · exact Nat.zero_le _
  have hn : n ≠ 0 := by omega
  have hlog : m.log2 ≤ n.log2 :=
    (Nat.le_log2 hn).mpr ((Nat.log2_self_le hm.ne').trans h)
  -- with fewer digits a number stays below a power of two that the other one reaches
  rcases hlog.lt_or_eq with hlt | heq
  · calc roundedNat m ≤ 2 ^ (m.log2 + 1) := (roundedNat_within hm.ne').2
      _ ≤ 2 ^ n.log2 := Nat.pow_le_pow_right (by decide) hlt
      _ ≤ roundedNat n := (roundedNat_within hn).1
  · rw [roundedNat_eq, roundedNat_eq, heq]
    exact Nat.mul_le_mul_right _ (inUnits_mono h _)

theorem natAbs_rounded_le {a : Int} (h : a.natAbs < 2 ^ k) : (rounded a).natAbs ≤ 2 ^ k := by
  have hle := roundedNat_le h
  rw [rounded]
  split <;> omega

theorem rounded_mono {a b : Int} (h : a ≤ b) : rounded a ≤ rounded b := by
  have hpos : a.natAbs ≤ b.natAbs → roundedNat a.natAbs ≤ roundedNat b.natAbs := roundedNat_mono
  have hneg : b.natAbs ≤ a.natAbs → roundedNat b.natAbs ≤ roundedNat a.natAbs := roundedNat_mono
  rw [rounded, rounded]
  split <;> split <;> omega

end

end StatesLanguage
