import Mathlib.Data.List.TakeWhile
import StatesLanguage.Json.Source

/-! Decimal numerals as JSON texts. An integer that a document can hold is read back from its
digits. -/
namespace StatesLanguage

variable {n : Nat}

/-- No numeral but that of zero starts with a zero. -/
theorem digits_head (hn : n ≠ 0) : ∃ c cs, Nat.toDigits 10 n = c :: cs ∧ c ≠ '0' := by
  induction n using Nat.strongRecOn with
  | ind n ih =>
    by_cases hlt : n < 10
    · have hdigit : ∀ d < 10, d ≠ 0 → Nat.digitChar d ≠ '0' := by decide
      rw [Nat.toDigits_of_lt_base hlt]
      exact ⟨_, [], rfl, hdigit n hlt hn⟩
    · obtain ⟨c, cs, hdigits, hc⟩ := ih (n / 10) (by omega) (by omega)
      rw [Nat.toDigits_of_base_le (by decide) (by omega), hdigits]
      exact ⟨c, _, rfl, hc⟩

theorem isDigit_of_mem_digits {c : Char} (hc : c ∈ Nat.toDigits 10 n) : c.isDigit = true :=
  Nat.isDigit_of_mem_toDigits (by decide) (by decide) hc

/-- The digits of a numeral end where the text does. -/
theorem digits_span : (Nat.toDigits 10 n).takeWhile Char.isDigit = Nat.toDigits 10 n ∧
    (Nat.toDigits 10 n).dropWhile Char.isDigit = [] := by
  have hall : ∀ c ∈ Nat.toDigits 10 n, c.isDigit = true := fun c hc => isDigit_of_mem_digits hc
  exact ⟨List.takeWhile_eq_self_iff.mpr hall, List.dropWhile_eq_nil_iff.mpr hall⟩

/-- Digits are digits, and there are some. -/
theorem digits_pass (n : Nat) :
    ((Nat.toDigits 10 n).isEmpty || !(Nat.toDigits 10 n).all Char.isDigit) = false := by
  have hall : (Nat.toDigits 10 n).all Char.isDigit = true :=
    List.all_eq_true.mpr fun c hc => isDigit_of_mem_digits hc
  have hempty : (Nat.toDigits 10 n).isEmpty = false := by simp
  rw [hall, hempty]
  rfl

theorem digits_value (n : Nat) :
    (Nat.toDigits 10 n).foldl (fun n c => n * 10 + (c.toNat - 48)) 0 = n := by
  have hvalue : Nat.ofDigitChars 10 (Nat.toDigits 10 n) 0 = n := Nat.ofDigitChars_ten_toDigits
  simpa only [Nat.ofDigitChars, Nat.mul_comm] using! hvalue

namespace Source

/-- How a digit before the point is read. -/
def pushDigit (s : Significand) (c : Char) : Significand :=
  if s.full || maxSignificand < s.digits * 10 + (c.toNat - 48) then
    ⟨s.digits, s.exponent + 1, true⟩
  else ⟨s.digits * 10 + (c.toNat - 48), s.exponent, false⟩

/-- Digits of no more than 64 bits are all read. -/
theorem pushDigits_of_le (digits : List Char) {d : Nat}
    (h : Nat.ofDigitChars 10 digits d ≤ maxSignificand) :
    digits.foldl pushDigit ⟨d, 0, false⟩ = ⟨Nat.ofDigitChars 10 digits d, 0, false⟩ := by
  induction digits generalizing d with
  | nil => rfl
  | cons c digits ih =>
    have hnext : 10 * d + (c.toNat - '0'.toNat) = d * 10 + (c.toNat - 48) := by
      rw [Nat.mul_comm]
      rfl
    rw [Nat.ofDigitChars_cons, hnext] at h ⊢
    have hle : d * 10 + (c.toNat - 48) ≤ maxSignificand := by
      rw [Nat.ofDigitChars_eq_ofDigitChars_zero] at h
      have hpower : d * 10 + (c.toNat - 48) ≤
          10 ^ digits.length * (d * 10 + (c.toNat - 48)) :=
        Nat.le_mul_of_pos_left _ (Nat.pow_pos (by decide))
      omega
    have hpush : pushDigit ⟨d, 0, false⟩ c = ⟨d * 10 + (c.toNat - 48), 0, false⟩ := by
      simp [pushDigit, Nat.not_lt.mpr hle]
    rw [List.foldl_cons, hpush, ih h]

theorem whole_digits (h : n ≤ maxSignificand) :
    Significand.whole (Nat.toDigits 10 n) = ⟨n, 0, false⟩ := by
  have hpush := pushDigits_of_le (Nat.toDigits 10 n) (d := 0)
  rw [Nat.ofDigitChars_ten_toDigits] at hpush
  exact hpush h

/-- Digits are read as a whole number where the text ends behind them. -/
theorem readMagnitude_digits (negative : Bool) (h : n ≤ maxSignificand) :
    readMagnitude negative (Nat.toDigits 10 n) =
      (integerOf negative ⟨n, 0, false⟩).map fun v => (v, []) := by
  obtain ⟨htake, hdrop⟩ := digits_span (n := n)
  have hfirst : ∀ c cs, Nat.toDigits 10 n ≠ '0' :: c :: cs := by
    intro c cs heq
    by_cases hn : n = 0
    · subst hn
      have hzero : Nat.toDigits 10 0 = ['0'] := by decide
      rw [hzero] at heq
      cases heq
    · obtain ⟨d, ds, hdigits, hd⟩ := digits_head hn
      rw [hdigits] at heq
      exact hd (List.cons.inj heq).1
  rw [readMagnitude]
  simp only [htake, hdrop, whole_digits h]
  split
  · rename_i hnil
    exact (Nat.toDigits_ne_nil hnil).elim
  · rename_i hzero
    exact (hfirst _ _ hzero).elim
  · rfl

/-- A text that a number begins. -/
theorem readValue_number {fuel : Nat} {c : Char} {cs : List Char}
    (hc : c.isDigit = true ∨ c = '-') :
    readValue (fuel + 1) (c :: cs) = match readNumber (c :: cs) with
      | some (v, rest) => (.scalar v, some rest)
      | none => (.malformed, none) := by
  have hspace : skipSpace (c :: cs) = c :: cs := by
    rw [skipSpace, List.dropWhile_cons_of_neg]
    rcases hc with hc | rfl
    · simp only [isSpace, Bool.or_eq_true, beq_iff_eq]
      rintro (((rfl | rfl) | rfl) | rfl) <;> exact absurd hc (by decide)
    · decide
  have hmarks : ['n', 't', 'f', '"', '[', '\x7b'].all (fun d => !d.isDigit && d != '-') = true := by
    decide
  have hother {d : Char} {rest : List Char} (hd : d ∈ ['n', 't', 'f', '"', '[', '\x7b']) :
      c :: cs ≠ d :: rest := by
    intro heq
    have hd := List.all_eq_true.mp hmarks d hd
    rw [← (List.cons.inj heq).1] at hd
    rcases hc with hc | rfl
    · simp [hc] at hd
    · cases hd
  rw [readValue, hspace]
  split
  all_goals first
    | rfl
    | (rename_i heq
       exact (hother (by decide) heq).elim)

/-- A number is the value of a text that reads as one to its end. -/
theorem parse?_number {c : Char} {cs : List Char} {v : Value}
    (hc : c.isDigit = true ∨ c = '-') (h : readNumber (c :: cs) = some (v, [])) :
    Value.parse? (c :: cs) = some v := by
  simp only [Value.parse?, ofText, readValue_number hc, h]
  rfl

theorem readNumber_of_ne {c : Char} {cs : List Char} (hc : c ≠ '-') :
    readNumber (c :: cs) = readMagnitude false (c :: cs) := by
  rw [readNumber]
  rintro rest heq
  exact hc (List.cons.inj heq).1

theorem integerOf_neg (h : n + 1 ≤ 9223372036854775808) :
    integerOf true ⟨n + 1, 0, false⟩ = some (.int (Int.negSucc n)) := by
  simp only [integerOf, Bool.false_eq_true, if_false, Bool.not_true, Nat.add_one_ne_zero,
    decide_false, Bool.false_or, Nat.not_lt.mpr h]
  rfl

end Source

theorem toList_toString_ofNat (n : Nat) :
    (toString (Int.ofNat n)).toList = Nat.toDigits 10 n := Nat.toList_repr

theorem toList_toString_negSucc (n : Nat) :
    (toString (Int.negSucc n)).toList = '-' :: Nat.toDigits 10 (n + 1) := by
  rw [← Nat.toList_repr]
  exact String.toList_append

/-- The text of an integer consists of digits, with a minus sign if need be. -/
theorem isDigit_of_mem_toString {i : Int} {c : Char} (hc : c ∈ (toString i).toList) :
    c.isDigit = true ∨ c = '-' := by
  cases i with
  | ofNat n =>
    rw [toList_toString_ofNat] at hc
    exact .inl (isDigit_of_mem_digits hc)
  | negSucc n =>
    rw [toList_toString_negSucc] at hc
    rcases List.mem_cons.mp hc with rfl | hc
    · exact .inr rfl
    · exact .inl (isDigit_of_mem_digits hc)

/-- There is nothing but digits and a sign in a numeral. -/
theorem not_mem_toString {i : Int} {c : Char} (hc : c.isDigit = false) (hsign : c ≠ '-') :
    c ∉ (toString i).toList := by
  intro hmem
  rcases isDigit_of_mem_toString hmem with hdigit | rfl
  · cases hc.symm.trans hdigit
  · exact hsign rfl

theorem toList_toString_ne_nil (i : Int) : (toString i).toList ≠ [] := by
  cases i with
  | ofNat n =>
    rw [toList_toString_ofNat]
    exact Nat.toDigits_ne_nil
  | negSucc n =>
    rw [toList_toString_negSucc]
    exact List.cons_ne_nil _ _

/-- An integer that a document can hold is read back from its digits. -/
theorem Value.parse?_int {i : Int} (hmin : minInt ≤ i) (hmax : i ≤ maxInt) :
    Value.parse? (toString i).toList = some (.int i) := by
  cases i with
  | ofNat n =>
    obtain ⟨c, cs, hdigits⟩ := List.exists_cons_of_ne_nil (Nat.toDigits_ne_nil (b := 10) (n := n))
    have hc : c.isDigit = true := isDigit_of_mem_digits (hdigits ▸ List.mem_cons_self)
    have hread := Source.readMagnitude_digits (n := n) false (Int.ofNat_le.mp hmax)
    rw [toList_toString_ofNat, hdigits]
    refine Source.parse?_number (.inl hc) ?_
    rw [Source.readNumber_of_ne (by rintro rfl; exact absurd hc (by decide)), ← hdigits]
    exact hread
  | negSucc n =>
    have hsize : n + 1 ≤ 9223372036854775808 := by
      rw [minInt] at hmin
      omega
    have hread := Source.readMagnitude_digits true (Nat.le_trans hsize (by decide))
    rw [Source.integerOf_neg hsize] at hread
    rw [toList_toString_negSucc]
    exact Source.parse?_number (.inr rfl) hread

end StatesLanguage
