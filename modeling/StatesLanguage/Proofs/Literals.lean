import StatesLanguage.Path.Basic
import StatesLanguage.Proofs.Numerals
import StatesLanguage.Proofs.Queries
import StatesLanguage.Proofs.Scanning
import StatesLanguage.Proofs.Tokens

/-! The literals of conditions: how they are written, translated and read, and how values compare to
them. -/
namespace StatesLanguage

/-- Whether a value, when it is a number, is an integer with at most 53 binary digits. -/
def Value.Exact : Value → Prop
  | .int n => n.natAbs < 9007199254740992
  | .float _ => False
  | _ => True

/-- An object whose fields are exact. -/
theorem Value.exact_field {fields : List (String × Value)} (h : ∀ entry ∈ fields, entry.2.Exact)
    {name : String} {v : Value} (hv : (Value.obj fields).field? name = some v) : v.Exact := by
  obtain ⟨before, after, rfl, -⟩ := List.lookup_eq_some_iff.mp hv
  exact h (name, v) (List.mem_append_right _ List.mem_cons_self)

namespace Path

open Jmespath

/-- What a field is compared with. -/
inductive Literal where
  | null
  | bool (b : Bool)
  | int (n : Int)
  | str (s : String)
  deriving DecidableEq

namespace Literal

def value : Literal → Value
  | .null => .null
  | .bool b => .bool b
  | .int n => .int n
  | .str s => .str s

/-- A string stands in single quotes, and all else as in documents. -/
def text : Literal → List Char
  | .str s => '\'' :: s.toList ++ ['\'']
  | l => l.value.text.toList

/-- A number with at most 53 binary digits, or a string without backticks that ends neither its
quotes nor the condition. -/
def Fits : Literal → Prop
  | .int n => n.natAbs < 9007199254740992
  | .str s => backtick ∉ s.toList ∧ '\'' ∉ s.toList ∧ ¬ [')', ']'] <:+: s.toList
  | _ => True

instance : DecidablePred Fits
  | .int n => inferInstanceAs (Decidable (n.natAbs < 9007199254740992))
  | .str s => inferInstanceAs
    (Decidable (backtick ∉ s.toList ∧ '\'' ∉ s.toList ∧ ¬ [')', ']'] <:+: s.toList))
  | .null | .bool _ => .isTrue trivial

/-- Whether a value is that of the literal. -/
def equals (l : Literal) (v : Value) : Bool := v.same l.value

/-- Whether the value and the literal are integers in that relation. -/
def related (relation : Int → Int → Bool) : Literal → Value → Bool
  | .int n, .int m => relation m n
  | _, _ => false

/-- Whether a value compares to the literal in that way. -/
def compares (l : Literal) (v : Value) : Comparator → Bool
  | .equal => l.equals v
  | .unequal => !l.equals v
  | .atMost => l.related (fun m n => m ≤ n) v
  | .atLeast => l.related (fun m n => n ≤ m) v
  | .less => l.related (fun m n => m < n) v
  | .greater => l.related (fun m n => n < m) v

end Literal

section

variable {d : Dialect} {l : Literal} {v : Value}

theorem alike_literal (hd : d.Exact) (hv : v.Exact) : alike d v l.value = l.equals v := by
  cases l <;> cases v
  case int.int n m => exact hd m n
  case int.float => exact hv.elim
  all_goals rfl

theorem ordered_literal (hl : l.Fits) (hv : v.Exact) (integers : Int → Int → Bool)
    (floats : Float → Float → Bool) :
    Comparator.holds.ordered v l.value integers floats = l.related integers v := by
  cases l <;> cases v
  case int.int n m =>
    simp only [Comparator.holds.ordered, Literal.value, Literal.related]
    rw [rounded_of_lt (n := m) hv, rounded_of_lt (n := n) hl]
  case int.float => exact hv.elim
  all_goals rfl

/-- A comparator holds between a value and a literal where they compare in that way. -/
theorem holds_literal (hd : d.Exact) (hl : l.Fits) (hv : v.Exact) (c : Comparator) :
    c.holds d v l.value = l.compares v c := by
  cases c <;> simp only [Comparator.holds, Literal.compares, alike_literal hd hv,
    ordered_literal hl hv]

end

/-- The characters with a meaning of their own in the text of a condition. -/
def reserved : List Char :=
  ['.', '[', ']', '*', '?', '@', '\'', '"', '=', '!', '<', '>', '|', '&', ')']

/-- The characters of words: letters, digits, hyphens and all that are neither reserved nor blank. -/
def isWordChar (c : Char) : Bool := !reserved.contains c && !isBlank c

example : ['f', 'F', '0', '_', '-', 'ü'].all isWordChar = true := by decide

/-- The marks that take a condition apart. -/
def marks : List Char := comparatorMarks ++ ['|', '&']

section

variable {m c : Char} {cs : List Char} {l : Literal} {i : Int}

theorem word_unreserved (h : isWordChar c = true) : c ∉ reserved := by
  simpa using (Bool.and_eq_true_iff.mp h).1

theorem word_not_blank (h : isWordChar c = true) : isBlank c = false := by
  simpa using (Bool.and_eq_true_iff.mp h).2

theorem blank_unreserved (h : isBlank c = true) : c ∉ reserved := by
  have hreserved : reserved.all (fun d => !isBlank d) = true := by decide
  intro hc
  simpa [h] using List.all_eq_true.mp hreserved c hc

theorem digit_not_blank (h : c.isDigit = true) : isBlank c = false := by
  have hdigit : 48 ≤ c.toNat ∧ c.toNat ≤ 57 := by
    simp only [Char.isDigit, Bool.and_eq_true, decide_eq_true_eq] at h
    exact h
  simp only [isBlank, Bool.or_eq_false_iff, Bool.and_eq_false_imp, decide_eq_true_eq,
    decide_eq_false_iff_not, beq_eq_false_iff_ne]
  omega

/-- Numerals are words. -/
theorem word_of_numeral (h : c ∈ (toString i).toList) : isWordChar c = true := by
  rcases isDigit_of_mem_toString h with hc | rfl
  · have hreserved : reserved.all (fun d => !d.isDigit) = true := by decide
    have hfree : c ∉ reserved := fun hmem => by
      simpa [hc] using List.all_eq_true.mp hreserved c hmem
    simp [isWordChar, digit_not_blank hc, hfree]
  · decide

/-- Nothing but what is reserved can be a mark or a quote. -/
theorem Skips.of_unreserved (hm : m ∈ marks) (h : ∀ c ∈ cs, c ∉ reserved) :
    Skips m none cs none := by
  have hmarks : marks ⊆ reserved := by simp [marks, comparatorMarks, reserved]
  refine .of_forall fun c hc => ⟨?_, if_neg ?_⟩
  · rintro rfl
    exact h c hc (hmarks hm)
  · rintro (rfl | rfl) <;> exact h _ hc (by decide)

/-- A literal is a word unless it is a string. -/
theorem Literal.text_word (h : ∀ s, l ≠ .str s) : ∀ c ∈ l.text, isWordChar c = true := by
  cases l with
  | null => exact List.all_eq_true.mp (by decide)
  | bool b => exact List.all_eq_true.mp (by cases b <;> decide)
  | int n => exact fun c hc => word_of_numeral hc
  | str s => exact (h s rfl).elim

theorem Literal.skips (hl : l.Fits) (hm : m ∈ marks) : Skips m none l.text none := by
  cases l with
  | str s =>
    have hquote : m ≠ '\'' := by
      rintro rfl
      exact absurd hm (by decide)
    exact .quoted hl.2.1 hquote
  | _ => exact .of_unreserved hm fun c hc => word_unreserved (text_word (by rintro s ⟨⟩) c hc)

theorem Literal.clear (hl : l.Fits) : Clear l.text := by
  cases l with
  | str s =>
    have hstart : Clear ['\''] := .of_not_mem (by decide)
    exact hstart.append (.concat hl.2.2 (by decide) (by decide))
  | _ =>
    refine .of_not_mem fun hc => ?_
    exact absurd (text_word (by rintro s ⟨⟩) _ hc) (by decide)

/-- A literal neither starts nor ends with a blank. -/
theorem Literal.ends : (∀ c ∈ l.text.head?, isBlank c = false) ∧
    ∀ c ∈ l.text.getLast?, isBlank c = false := by
  cases l with
  | str s =>
    refine ⟨fun c hc => ?_, fun c hc => ?_⟩
    · cases hc
      decide
    · rw [text, List.getLast?_concat] at hc
      cases hc
      decide
  | _ =>
    refine ⟨fun c hc => word_not_blank ?_, fun c hc => word_not_blank ?_⟩
    · exact text_word (by rintro s ⟨⟩) c (List.mem_of_mem_head? hc)
    · exact text_word (by rintro s ⟨⟩) c (List.mem_of_mem_getLast? hc)

theorem Literal.text_ne_nil (l : Literal) : l.text ≠ [] := by
  cases l with
  | null => decide
  | bool b => cases b <;> decide
  | int n => exact toList_toString_ne_nil n
  | str s => exact List.cons_ne_nil _ _

/-- The value of a literal is read back from its text. -/
theorem Literal.parse?_text (hl : l.Fits) : Value.parse? l.value.text.toList = some l.value := by
  cases l with
  | null => cbv
  | bool b => cases b <;> cbv
  | int n =>
    have hsize : n.natAbs < 9007199254740992 := hl
    have hmin : Value.minInt ≤ n := by
      rw [Value.minInt]
      omega
    have hmax : n ≤ Value.maxInt := by
      rw [Value.maxInt]
      omega
    exact Value.parse?_int hmin hmax
  | str s => exact Value.parse?_quoted s

/-- A word that is the text of a value is translated as the value. -/
theorem translateOperand_word {v : Value} (h : ∀ c ∈ cs, isWordChar c = true)
    (hv : Value.parse? cs = some v) : translateOperand cs = .ok (literalText v) := by
  have hother {d : Char} {rest : List Char} (hd : isWordChar d = false) : cs ≠ d :: rest := by
    rintro rfl
    cases hd.symm.trans (h d List.mem_cons_self)
  have hquoted : singleQuoted? cs = none := by
    rw [singleQuoted?]
    exact fun rest heq => hother (by decide) heq
  rw [translateOperand]
  · simp only [hquoted, hv]
  · exact fun rest heq => hother (by decide) heq

theorem translateOperand_quoted (s : String) :
    translateOperand ('\'' :: s.toList ++ ['\'']) = .ok (literalText (.str s)) := by
  have hquoted : singleQuoted? ('\'' :: s.toList ++ ['\'']) = some s.toList := by
    simp [singleQuoted?]
  rw [translateOperand]
  · simp only [hquoted, String.ofList_toList]
  · rintro rest ⟨⟩

/-- A literal is translated as its value. -/
theorem Literal.translateOperand_text (hl : l.Fits) :
    translateOperand l.text = .ok (literalText l.value) := by
  cases l with
  | str s => exact translateOperand_quoted s
  | null | bool | int => exact translateOperand_word (text_word (by rintro s ⟨⟩)) (parse?_text hl)

theorem backtick_escaped (hc : c ≠ backtick) : backtick ∉ escapedChar c := by
  have hdigit : ∀ n < 16, backtick ≠ hexDigit n := by decide
  have hstart : backtick ∉ ['\\', 'u', '0', '0'] := by decide
  obtain ⟨e, heq, -, hescape⟩ | ⟨hcontrol, heq⟩ | ⟨-, -, -, heq⟩ := escapedChar_cases c
  · rw [heq]
    simp only [List.mem_cons, List.not_mem_nil, or_false, not_or]
    refine ⟨by decide, ?_⟩
    rintro rfl
    cases hescape
  · rw [heq]
    refine fun hmem => hstart ?_
    simpa [hdigit (c.toNat / 16) (by omega), hdigit (c.toNat % 16) (by omega)] using hmem
  · rw [heq]
    simpa using hc.symm

/-- A string without backticks is written without them. -/
theorem backtick_quoted {s : String} (h : backtick ∉ s.toList) : backtick ∉ (quoted s).toList := by
  have hinner : backtick ∉ s.toList.flatMap escapedChar := by
    rw [List.mem_flatMap]
    rintro ⟨c, hc, hmem⟩
    refine backtick_escaped ?_ hmem
    rintro rfl
    exact h hc
  have hquote : backtick ∉ ['"'] := by decide
  rw [toList_quoted, List.mem_append, List.mem_cons, not_or, not_or]
  exact ⟨⟨by decide, hinner⟩, hquote⟩

theorem Literal.backtick_text (hl : l.Fits) : backtick ∉ l.value.text.toList := by
  cases l with
  | null => decide
  | bool b => cases b <;> decide
  | int n => exact fun hc => absurd (isDigit_of_mem_toString hc) (by decide)
  | str s => exact backtick_quoted hl.1

theorem Literal.sealed_text (hl : l.Fits) : Sealed backtick l.value.text.toList := by
  have hplain (h : '\\' ∉ l.value.text.toList) : Sealed backtick l.value.text.toList :=
    .of_forall fun c hc => ⟨fun heq => backtick_text hl (heq ▸ hc), fun heq => h (heq ▸ hc)⟩
  cases l with
  | null => exact hplain (by decide)
  | bool b => exact hplain (by cases b <;> decide)
  | int n => exact hplain (not_mem_toString (by decide) (by decide))
  | str s =>
    have hquote : Sealed backtick ['"'] := .plain (by decide) (by decide)
    have htext : (Literal.str s).value.text.toList =
        ['"'] ++ s.toList.flatMap escapedChar ++ ['"'] := toList_quoted s
    rw [htext]
    exact (hquote.append (sealed_escaped (.inr ⟨rfl, hl.1⟩))).append hquote

/-- The translation of a literal is read as its value. -/
theorem Literal.reads_value (d : Dialect) (hl : l.Fits) :
    Reads d (literalText l.value) [.literal l.value] :=
  reads_literal d (sealed_text hl) (backtick_text hl) (parse?_text hl)

end

end Path

end StatesLanguage
