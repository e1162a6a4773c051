/-!
Whole numbers as floats hold them: with 53 binary digits, and the nearest where there are more.
-/
namespace StatesLanguage

/-- The natural number with 53 binary digits that is nearest, the even one of two. -/
def roundedNat (n : Nat) : Nat :=
  let unit := Nat.pow 2 (n.log2 + 1 - 53)
  let low := n / unit
  let rest := n % unit
  (if unit < 2 * rest ∨ 2 * rest = unit ∧ low % 2 = 1 then low + 1 else low) * unit

/-- The integer with 53 binary digits that is nearest, the even one of two. -/
def rounded (n : Int) : Int :=
  if n < 0 then -(roundedNat n.natAbs : Int) else roundedNat n.natAbs

/-- A number of 53 binary digits is kept as it is. -/
theorem roundedNat_of_lt {n : Nat} (h : n < Nat.pow 2 53) : roundedNat n = n := by
  have hunit : n.log2 + 1 - 53 = 0 := by
    rcases Nat.eq_zero_or_pos n with rfl | hn
    · rfl
    · have hlog : n.log2 < 53 := (Nat.log2_lt (Nat.ne_of_gt hn)).mpr h
      omega
  simp only [roundedNat, hunit, Nat.pow_eq, Nat.pow_zero, Nat.div_one, Nat.mod_one]
  rw [if_neg (by omega), Nat.mul_one]

theorem rounded_of_lt {n : Int} (h : n.natAbs < Nat.pow 2 53) : rounded n = n := by
  rw [rounded, roundedNat_of_lt h]
  split <;> omega

end StatesLanguage
