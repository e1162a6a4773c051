import StatesLanguage.Text.Pattern

/-! The texts of composed patterns. -/
namespace StatesLanguage

namespace Pattern

variable {p q : Pattern} {ps : List Pattern} {f : Char → Bool} {cs : List Char}

theorem matches_empty : Matches .empty cs ↔ cs = [] := by
  constructor
  · rintro ⟨⟩
    rfl
  · rintro rfl
    exact .empty

theorem matches_one : Matches (.one f) cs ↔ ∃ c, f c = true ∧ cs = [c] := by
  constructor
  · rintro ⟨⟩
    exact ⟨_, ‹_›, rfl⟩
  · rintro ⟨c, hc, rfl⟩
    exact .one hc

theorem matches_seq : Matches (.seq p q) cs ↔
    ∃ xs ys, cs = xs ++ ys ∧ Matches p xs ∧ Matches q ys := by
  constructor
  · rintro ⟨⟩
    exact ⟨_, _, rfl, ‹_›, ‹_›⟩
  · rintro ⟨xs, ys, rfl, hx, hy⟩
    exact .seq hx hy

theorem matches_alt : Matches (.alt p q) cs ↔ Matches p cs ∨ Matches q cs := by
  constructor
  · intro h
    cases h with
    | left h => exact Or.inl h
    | right h => exact Or.inr h
  · rintro (h | h)
    · exact .left h
    · exact .right h

theorem matches_oneOf : Matches (oneOf ps) cs ↔ ∃ p ∈ ps, Matches p cs := by
  induction ps with
  | nil =>
    simp only [List.not_mem_nil, false_and, exists_false, iff_false]
    rintro ⟨⟩
  | cons p rest ih =>
    rw [oneOf, List.foldr_cons, matches_alt, ← oneOf, ih]
    simp

theorem matches_char {d : Char} : Matches (char d) cs ↔ cs = [d] := by
  simp [char, matches_one]

theorem matches_star_one : Matches (.star (.one f)) cs ↔ ∀ c ∈ cs, f c = true := by
  induction cs with
  | nil => exact ⟨fun _ _ hc => by simp at hc, fun _ => .done⟩
  | cons c cs ih =>
    rw [matches_star_cons, List.forall_mem_cons, ← ih]
    constructor
    · rintro ⟨xs, ys, rfl, hone, hrest⟩
      obtain ⟨d, hd, heq⟩ := matches_one.mp hone
      simp only [List.cons.injEq] at heq
      obtain ⟨rfl, rfl⟩ := heq
      exact ⟨hd, hrest⟩
    · rintro ⟨hc, hrest⟩
      exact ⟨[], cs, rfl, .one hc, hrest⟩

theorem matches_many_one : Matches (many (.one f)) cs ↔ cs ≠ [] ∧ ∀ c ∈ cs, f c = true := by
  rw [many, matches_seq]
  constructor
  · rintro ⟨xs, ys, rfl, hone, hrest⟩
    obtain ⟨c, hc, rfl⟩ := matches_one.mp hone
    exact ⟨by simp, List.forall_mem_cons.mpr ⟨hc, matches_star_one.mp hrest⟩⟩
  · rintro ⟨hne, hall⟩
    cases cs with
    | nil => exact (hne rfl).elim
    | cons c cs =>
      obtain ⟨hc, hrest⟩ := List.forall_mem_cons.mp hall
      exact ⟨[c], cs, rfl, .one hc, matches_star_one.mpr hrest⟩

theorem matches_literal {s : String} : Matches (literal s) cs ↔ cs = s.toList := by
  unfold literal
  generalize s.toList = text
  induction text generalizing cs with
  | nil => exact matches_empty
  | cons c text ih =>
    rw [List.foldr_cons, matches_seq]
    constructor
    · rintro ⟨xs, ys, rfl, hc, hrest⟩
      rw [matches_char.mp hc, ih.mp hrest]
      rfl
    · rintro rfl
      exact ⟨[c], text, rfl, matches_char.mpr rfl, ih.mpr rfl⟩

theorem matches_optional : Matches (optional p) cs ↔ cs = [] ∨ Matches p cs := by
  rw [optional, matches_alt, matches_empty]

/-- A repetition is a row of texts of the repeated pattern. -/
theorem matches_star : Matches (.star p) cs ↔
    ∃ pieces : List (List Char), cs = pieces.flatten ∧ ∀ x ∈ pieces, Matches p x := by
  constructor
  · intro h
    generalize hq : Pattern.star p = q at h
    induction h with
    | done => exact ⟨[], rfl, by simp⟩
    | @more _ xs ys hfirst _ _ ih =>
      cases hq
      obtain ⟨pieces, rfl, hpieces⟩ := ih rfl
      exact ⟨xs :: pieces, rfl, List.forall_mem_cons.mpr ⟨hfirst, hpieces⟩⟩
    | _ => cases hq
  · rintro ⟨pieces, rfl, hpieces⟩
    induction pieces with
    | nil => exact .done
    | cons x pieces ih =>
      obtain ⟨hx, hrest⟩ := List.forall_mem_cons.mp hpieces
      exact .more hx (ih hrest)

end Pattern

end StatesLanguage
