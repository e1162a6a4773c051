import StatesLanguage.Proofs.Literals

/-! What stands in brackets: a numeral, or two or three bounds with colons between them. -/
namespace StatesLanguage.Path

variable {c mark : Char} {cs inner n part rest : List Char} {parts : List (List Char)}

/-- The characters of numerals. -/
def isNumeralChar (c : Char) : Bool := isDecimalDigit c || c == '-'

theorem decimalDigit_not_blank (h : isDecimalDigit c = true) : isBlank c = false := by
  rcases Bool.or_eq_true_iff.mp h with hdigit | hdigit
  · exact digit_not_blank hdigit
  · -- the digits of a system stand together, so that the blanks lie between the systems
    have hsystems : ∀ first ∈ decimalZeros, 32 < first ∧ first + 9 < 133 ∨
        160 < first ∧ first + 9 < 5760 ∨ 5760 < first ∧ first + 9 < 8192 ∨ 12288 < first := by
      decide
    obtain ⟨first, hfirst, hrange⟩ := List.any_eq_true.mp hdigit
    have hsystem := hsystems first hfirst
    simp only [Bool.and_eq_true, decide_eq_true_eq] at hrange
    simp only [isBlank, Bool.or_eq_false_iff, Bool.and_eq_false_imp, decide_eq_true_eq,
      decide_eq_false_iff_not, beq_eq_false_iff_ne]
    omega

theorem numeralChar_not_blank (h : isNumeralChar c = true) : isBlank c = false := by
  rcases Bool.or_eq_true_iff.mp h with hdigit | hminus
  · exact decimalDigit_not_blank hdigit
  · rw [beq_iff_eq.mp hminus]
    decide

theorem numeralChar_of_mem {i : Int} (h : c ∈ (toString i).toList) : isNumeralChar c = true := by
  rcases isDigit_of_mem_toString h with hdigit | rfl
  · simp [isNumeralChar, isDecimalDigit, hdigit]
  · decide

theorem not_mem_numeral (h : ∀ c ∈ n, isNumeralChar c = true) (hc : isNumeralChar c = false) :
    c ∉ n := by
  intro hmem
  cases hc.symm.trans (h c hmem)

/-- Numerals with colons between them. -/
def Bounds (cs : List Char) : Prop := ∀ c ∈ cs, isNumeralChar c = true ∨ c = ':'

theorem bounds_of_numeral (h : ∀ c ∈ n, isNumeralChar c = true) : Bounds n :=
  fun c hc => .inl (h c hc)

theorem bounds_of_parts (h : ∀ part ∈ parts, ∀ c ∈ part, isNumeralChar c = true) :
    Bounds ([':'].intercalate parts) :=
  forall_intercalate (P := Bounds) (by simp [Bounds])
    (fun h h' => List.forall_mem_append.mpr ⟨h, h'⟩) (by simp [Bounds])
    fun part hpart => bounds_of_numeral (h part hpart)

theorem Bounds.trim_eq (h : Bounds cs) : trim cs = cs := by
  refine trim_of_forall fun c hc => ?_
  rcases h c hc with hc | rfl
  · exact numeralChar_not_blank hc
  · decide

theorem Bounds.not_mem (h : Bounds cs) (hc : isNumeralChar c = false) (hcolon : c ≠ ':') :
    c ∉ cs := by
  intro hmem
  rcases h c hmem with h | h
  · cases hc.symm.trans h
  · exact hcolon h

/-- The text before a mark whose first character does not occur in it. -/
theorem splitAt_append {c : Char} {mark : List Char} (h : c ∉ inner) :
    splitAt? (c :: mark) (inner ++ (c :: mark ++ rest)) = some (inner, rest) := by
  induction inner with
  | nil => simp [splitAt?]
  | cons d inner ih =>
    have hne : c ≠ d := fun heq => h (heq ▸ List.mem_cons_self)
    have hrest : c ∉ inner := fun hc => h (List.mem_cons_of_mem _ hc)
    rw [List.cons_append, splitAt?, ih hrest]
    simp [List.isPrefixOf, hne]

/-- Brackets around numerals end at the first closing one, and what they enclose is read for
itself. -/
theorem readSegment_bracketed (h : Bounds inner) (rest : List Char) :
    readSegment ('[' :: (inner ++ ']' :: rest)) =
      (bracketed? inner).map fun s => (.select s, rest) := by
  have hsplit : splitAt? [']'] (inner ++ ']' :: rest) = some (inner, rest) :=
    splitAt_append (h.not_mem (by decide) (by decide))
  have hother (d : Char) (hd : isNumeralChar d = false) (hcolon : d ≠ ':') (hclose : d ≠ ']')
      (after : List Char) : inner ++ ']' :: rest ≠ d :: after := by
    intro heq
    cases inner with
    | nil => exact hclose (List.cons.inj heq).1.symm
    | cons c cs => exact h.not_mem hd hcolon ((List.cons.inj heq).1 ▸ List.mem_cons_self)
  rw [readSegment, hsplit]
  · exact hother '\'' (by decide) (by decide) (by decide)
  · exact fun after => hother '?' (by decide) (by decide) (by decide) ('(' :: after)

theorem splitOnChar_ne_nil (mark : Char) (cs : List Char) : splitOnChar mark cs ≠ [] := by
  cases cs with
  | nil => exact List.cons_ne_nil _ _
  | cons c cs =>
    rw [splitOnChar]
    split
    · exact List.cons_ne_nil _ _
    · split <;> exact List.cons_ne_nil _ _

theorem splitOnChar_of_not_mem (h : mark ∉ cs) : splitOnChar mark cs = [cs] := by
  induction cs with
  | nil => rfl
  | cons c cs ih =>
    rw [List.mem_cons, not_or] at h
    simp only [splitOnChar, ih h.2, if_neg (Ne.symm h.1)]

/-- The text up to a mark is a part. -/
theorem splitOnChar_append (h : mark ∉ part) (cs : List Char) :
    splitOnChar mark (part ++ mark :: cs) = part :: splitOnChar mark cs := by
  obtain ⟨next, parts, hparts⟩ := List.exists_cons_of_ne_nil (splitOnChar_ne_nil mark cs)
  induction part with
  | nil => simp only [List.nil_append, splitOnChar, hparts, if_true]
  | cons c part ih =>
    rw [List.mem_cons, not_or] at h
    simp only [List.cons_append, splitOnChar, ih h.2, if_neg (Ne.symm h.1)]

/-- Parts with single marks between them are found again. -/
theorem splitOnChar_intercalate (hne : parts ≠ []) (h : ∀ part ∈ parts, mark ∉ part) :
    splitOnChar mark ([mark].intercalate parts) = parts := by
  induction parts with
  | nil => exact (hne rfl).elim
  | cons part parts ih =>
    obtain ⟨hpart, hrest⟩ := List.forall_mem_cons.mp h
    cases parts with
    | nil =>
      rw [List.intercalate_singleton]
      exact splitOnChar_of_not_mem hpart
    | cons next parts =>
      rw [List.intercalate_cons_cons, List.append_assoc]
      exact (splitOnChar_append hpart _).trans
        (congrArg _ (ih (List.cons_ne_nil _ _) hrest))

/-- A numeral in brackets is a position, if it can be read. -/
theorem bracketed_numeral (h : ∀ c ∈ n, isNumeralChar c = true) :
    bracketed? n = match integer? n with
      | some i => .ok (.key (.index i))
      | none => .error .index := by
  have hstar : n ≠ ['*'] := by
    rintro rfl
    exact not_mem_numeral h (by decide) List.mem_cons_self
  have hcolon : n.contains ':' = false := by simpa using not_mem_numeral h (by decide)
  cases hread : integer? n <;>
    simp only [bracketed?, (bounds_of_numeral h).trim_eq, if_neg hstar, hcolon,
      Bool.false_eq_true, if_false, hread]

theorem bound?_numeral (h : ∀ c ∈ n, isNumeralChar c = true) :
    bound? n = if n.isEmpty then some none else (integer? n).map some := by
  rw [bound?, (bounds_of_numeral h).trim_eq]

theorem colon_mem_parts (a b : List Char) (rest : List (List Char)) :
    ':' ∈ [':'].intercalate (a :: b :: rest) := by
  rw [List.intercalate_cons_cons]
  exact List.mem_append_left _ (List.mem_append_right _ List.mem_cons_self)

/-- Bounds with colons between them are a slice, if each of them can be read. -/
theorem bracketed_parts {a b : List Char} {rest : List (List Char)}
    (h : ∀ part ∈ a :: b :: rest, ∀ c ∈ part, isNumeralChar c = true) :
    bracketed? ([':'].intercalate (a :: b :: rest)) =
      match slice? ([':'].intercalate (a :: b :: rest)) with
      | some s => .ok s
      | none => .error .slice := by
  have hcolon := colon_mem_parts a b rest
  have hstar : [':'].intercalate (a :: b :: rest) ≠ ['*'] := by
    intro heq
    rw [heq] at hcolon
    exact absurd hcolon (by decide)
  cases hread : slice? ([':'].intercalate (a :: b :: rest)) <;>
    simp only [bracketed?, (bounds_of_parts h).trim_eq, if_neg hstar,
      List.contains_iff_mem.mpr hcolon, if_true, hread]

theorem splitOnChar_parts (hne : parts ≠ [])
    (h : ∀ part ∈ parts, ∀ c ∈ part, isNumeralChar c = true) :
    splitOnChar ':' ([':'].intercalate parts) = parts :=
  splitOnChar_intercalate hne fun part hpart => not_mem_numeral (h part hpart) (by decide)

end StatesLanguage.Path
