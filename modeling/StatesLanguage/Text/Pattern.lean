/-!
Patterns of text, matched against a whole text one character at a time: the derivative of a pattern
by a character matches what may follow that character.
-/
namespace StatesLanguage

inductive Pattern where
  | never
  | empty
  | one (accepts : Char → Bool)
  | seq (p q : Pattern)
  | alt (p q : Pattern)
  | star (p : Pattern)

namespace Pattern

/-- The texts of a pattern. -/
inductive Matches : Pattern → List Char → Prop where
  | empty : Matches .empty []
  | one {accepts : Char → Bool} {c : Char} : accepts c = true → Matches (.one accepts) [c]
  | seq {p q : Pattern} {xs ys : List Char} : Matches p xs → Matches q ys →
      Matches (.seq p q) (xs ++ ys)
  | left {p q : Pattern} {xs : List Char} : Matches p xs → Matches (.alt p q) xs
  | right {p q : Pattern} {xs : List Char} : Matches q xs → Matches (.alt p q) xs
  | done {p : Pattern} : Matches (.star p) []
  | more {p : Pattern} {xs ys : List Char} : Matches p xs → Matches (.star p) ys →
      Matches (.star p) (xs ++ ys)

/-- Whether the pattern matches the empty text. -/
def nullable : Pattern → Bool
  | .never => false
  | .empty => true
  | .one _ => false
  | .seq p q => p.nullable && q.nullable
  | .alt p q => p.nullable || q.nullable
  | .star _ => true

/-- One pattern after the other, without the trivial cases. -/
def joined : Pattern → Pattern → Pattern
  | .never, _ => .never
  | .empty, q => q
  | p, q => .seq p q

/-- One pattern or the other, without the trivial cases. -/
def either : Pattern → Pattern → Pattern
  | .never, q => q
  | p, .never => p
  | p, q => .alt p q

/-- What may follow a character. -/
def derivative (c : Char) : Pattern → Pattern
  | .never => .never
  | .empty => .never
  | .one accepts => if accepts c then .empty else .never
  | .seq p q =>
    if p.nullable then either (joined (p.derivative c) q) (q.derivative c)
    else joined (p.derivative c) q
  | .alt p q => either (p.derivative c) (q.derivative c)
  | .star p => joined (p.derivative c) (.star p)

/-- Whether the pattern matches the whole text. -/
def accepts (p : Pattern) : List Char → Bool
  | [] => p.nullable
  | c :: rest => (p.derivative c).accepts rest

/-- A pattern that may be left out. -/
def optional (p : Pattern) : Pattern := .alt .empty p

/-- A pattern once or more. -/
def many (p : Pattern) : Pattern := .seq p (.star p)

/-- One character. -/
def char (c : Char) : Pattern := .one (· == c)

/-- A fixed text. -/
def literal (s : String) : Pattern := s.toList.foldr (fun c p => .seq (char c) p) .empty

/-- One pattern after the other. -/
def sequence (ps : List Pattern) : Pattern := ps.foldr .seq .empty

/-- One of several patterns. -/
def oneOf (ps : List Pattern) : Pattern := ps.foldr .alt .never

theorem matches_joined {p q : Pattern} {cs : List Char} :
    Matches (joined p q) cs ↔ Matches (.seq p q) cs := by
  unfold joined
  split
  · constructor <;> intro h <;> cases h
    rename_i h _
    cases h
  · constructor
    · intro h
      exact @Matches.seq _ _ [] _ .empty h
    · intro h
      cases h with
      | seq h₁ h₂ => cases h₁; simpa using h₂
  · rfl

theorem matches_either {p q : Pattern} {cs : List Char} :
    Matches (either p q) cs ↔ Matches (.alt p q) cs := by
  unfold either
  split
  · constructor
    · exact .right
    · intro h
      cases h with
      | left h => cases h
      | right h => exact h
  · constructor
    · exact .left
    · intro h
      cases h with
      | left h => exact h
      | right h => cases h
  · rfl

theorem nullable_iff {p : Pattern} : p.nullable = true ↔ Matches p [] := by
  induction p with
  | never => constructor <;> intro h <;> cases h
  | empty => simp [nullable, Matches.empty]
  | one a => constructor <;> intro h <;> cases h
  | seq p q ihp ihq =>
    simp only [nullable, Bool.and_eq_true, ihp, ihq]
    constructor
    · intro ⟨h₁, h₂⟩
      exact @Matches.seq _ _ [] _ h₁ h₂
    · intro h
      generalize hcs : ([] : List Char) = cs at h
      cases h with
      | seq h₁ h₂ =>
        obtain ⟨rfl, rfl⟩ := List.append_eq_nil_iff.1 hcs.symm
        exact ⟨h₁, h₂⟩
  | alt p q ihp ihq =>
    simp only [nullable, Bool.or_eq_true, ihp, ihq]
    constructor
    · rintro (h | h)
      · exact .left h
      · exact .right h
    · intro h
      cases h with
      | left h => exact .inl h
      | right h => exact .inr h
  | star p _ => simp [nullable, Matches.done]

/-- A repetition that matches a text starts with a match of the repeated pattern that takes the
first character. -/
theorem matches_star_cons {p : Pattern} {c : Char} {cs : List Char} :
    Matches (.star p) (c :: cs) ↔
      ∃ xs ys, cs = xs ++ ys ∧ Matches p (c :: xs) ∧ Matches (.star p) ys := by
  constructor
  · intro h
    generalize hq : Pattern.star p = q at h
    generalize ht : c :: cs = t at h
    induction h with
    | @more _ xs ys h₁ h₂ _ ih =>
      cases hq
      cases xs with
      | nil => exact ih rfl (by simpa using ht)
      | cons x xs =>
        simp only [List.cons_append, List.cons.injEq] at ht
        obtain ⟨rfl, rfl⟩ := ht
        exact ⟨xs, ys, rfl, h₁, h₂⟩
    | done => cases ht
    | _ => cases hq
  · rintro ⟨xs, ys, rfl, h₁, h₂⟩
    exact .more h₁ h₂

theorem matches_derivative {p : Pattern} {c : Char} {cs : List Char} :
    Matches (p.derivative c) cs ↔ Matches p (c :: cs) := by
  induction p generalizing cs with
  | never => constructor <;> intro h <;> cases h
  | empty => constructor <;> intro h <;> cases h
  | one a =>
    simp only [derivative]
    constructor
    · intro h
      split at h
      · cases h; exact .one ‹_›
      · cases h
    · intro h
      cases h with
      | one h => simp [h, Matches.empty]
  | seq p q ihp ihq =>
    have left : Matches (joined (p.derivative c) q) cs ↔
        ∃ xs ys, cs = xs ++ ys ∧ Matches p (c :: xs) ∧ Matches q ys := by
      rw [matches_joined]
      constructor
      · intro h
        cases h with
        | seq h₁ h₂ => exact ⟨_, _, rfl, ihp.1 h₁, h₂⟩
      · rintro ⟨xs, ys, rfl, h₁, h₂⟩
        exact .seq (ihp.2 h₁) h₂
    have whole : Matches (.seq p q) (c :: cs) ↔
        (∃ xs ys, cs = xs ++ ys ∧ Matches p (c :: xs) ∧ Matches q ys) ∨
          (Matches p [] ∧ Matches q (c :: cs)) := by
      constructor
      · intro h
        generalize ht : c :: cs = t at h
        cases h with
        | @seq _ _ xs ys h₁ h₂ =>
          cases xs with
          | nil => exact .inr ⟨h₁, by simpa [ht] using h₂⟩
          | cons x xs =>
            simp only [List.cons_append, List.cons.injEq] at ht
            obtain ⟨rfl, rfl⟩ := ht
            exact .inl ⟨xs, ys, rfl, h₁, h₂⟩
      · rintro (⟨xs, ys, rfl, h₁, h₂⟩ | ⟨h₁, h₂⟩)
        · exact @Matches.seq _ _ (c :: xs) _ h₁ h₂
        · exact @Matches.seq _ _ [] _ h₁ h₂
    rw [whole]
    simp only [derivative]
    split
    · rw [matches_either]
      constructor
      · intro h
        cases h with
        | left h => exact .inl (left.1 h)
        | right h => exact .inr ⟨nullable_iff.1 ‹_›, ihq.1 h⟩
      · rintro (h | ⟨_, h⟩)
        · exact .left (left.2 h)
        · exact .right (ihq.2 h)
    · rw [left]
      constructor
      · exact .inl
      · rintro (h | ⟨h, _⟩)
        · exact h
        · exact absurd (nullable_iff.2 h) ‹_›
  | alt p q ihp ihq =>
    simp only [derivative, matches_either]
    constructor
    · intro h
      cases h with
      | left h => exact .left (ihp.1 h)
      | right h => exact .right (ihq.1 h)
    · intro h
      cases h with
      | left h => exact .left (ihp.2 h)
      | right h => exact .right (ihq.2 h)
  | star p ih =>
    simp only [derivative, matches_joined, matches_star_cons]
    constructor
    · intro h
      cases h with
      | seq h₁ h₂ => exact ⟨_, _, rfl, ih.1 h₁, h₂⟩
    · rintro ⟨xs, ys, rfl, h₁, h₂⟩
      exact .seq (ih.2 h₁) h₂

/-- Acceptance is a match of the whole text. -/
theorem accepts_iff {p : Pattern} {cs : List Char} : p.accepts cs = true ↔ Matches p cs := by
  induction cs generalizing p with
  | nil => exact nullable_iff
  | cons c cs ih => rw [accepts, ih, matches_derivative]

end Pattern

end StatesLanguage
