import Mathlib
import StatesLanguage.Intrinsic.Evaluate

/-! How Format puts values into a template. Two placeholders never overlap, so the scan that counts
them and the scan that takes the template apart find the same ones, whatever braces stand beside
them; and the braces of the values are not looked at any more. -/
namespace StatesLanguage

namespace Intrinsic

variable {ids : Identifiers} {input context : Value} {arguments : List Argument}
  {template first : String} {values : List Value} {parts : List (Value × String)} {c d : Char}
  {cs rest piece : List Char} {more : List (List Char)}

/-- What stands for a value in a template. -/
def placeholder : List Char := ['\x7b', '\x7d']

/-- At how many places of a text a placeholder stands. -/
def occurrences (cs : List Char) : Nat := cs.tails.countP placeholder.isPrefixOf

/-- A text in which no placeholder stands, whatever other braces there are. -/
def Bare (cs : List Char) : Prop := ¬ placeholder <:+: cs

instance (cs : List Char) : Decidable (Bare cs) := inferInstanceAs (Decidable (¬ _))

theorem prefix_pair : placeholder <+: c :: d :: rest ↔ c = '\x7b' ∧ d = '\x7d' := by
  rw [placeholder, List.cons_prefix_cons, List.cons_prefix_cons, eq_comm, eq_comm (a := d)]
  simp

theorem occurrences_pair : occurrences (c :: d :: rest) =
    occurrences (d :: rest) + if c = '\x7b' ∧ d = '\x7d' then 1 else 0 := by
  rw [occurrences, List.tails_cons, List.countP_cons]
  simp only [List.isPrefixOf_iff_prefix, prefix_pair]
  rfl

/-- A placeholder cannot start at the second brace of another one. -/
theorem occurrences_closing : occurrences ('\x7d' :: rest) = occurrences rest := by
  cases rest with
  | nil => rfl
  | cons d rest =>
    have hfirst : ¬ ('\x7d' = '\x7b' ∧ d = '\x7d') := by
      intro h
      exact absurd h.1 (by decide)
    rw [occurrences_pair, if_neg hfirst, Nat.add_zero]

/-- The scan that goes on behind each placeholder finds all of them. -/
theorem placeholders_eq (cs : List Char) : placeholders cs = occurrences cs := by
  fun_induction placeholders cs with
  | case1 => rfl
  | case2 c => simp [occurrences, placeholder, List.isPrefixOf]
  | case3 c d rest h ih =>
    rw [occurrences_pair, if_pos h, h.2, occurrences_closing, ih]
  | case4 c d rest h ih => rw [occurrences_pair, if_neg h, ih, Nat.add_zero]

theorem pieces_ne_nil (cs : List Char) : pieces cs ≠ [] := by
  fun_induction pieces cs <;> simp_all

/-- The scan that takes a template apart finds as many placeholders as the one that counts them. -/
theorem length_pieces (cs : List Char) : (pieces cs).length = placeholders cs + 1 := by
  fun_induction pieces cs with
  | case1 | case2 => rfl
  | case3 c d rest h ih => rw [placeholders, if_pos h, List.length_cons, ih]
  | case4 c d rest h piece more hpieces ih =>
    rw [placeholders, if_neg h, ← ih, hpieces]
    rfl
  | case5 c d rest h hpieces _ => exact (pieces_ne_nil _ hpieces).elim

/-- A character that starts no placeholder belongs to the first piece. -/
theorem pieces_cons (h : ¬ placeholder <+: c :: cs) (hcs : pieces cs = piece :: more) :
    pieces (c :: cs) = (c :: piece) :: more := by
  cases cs with
  | nil =>
    cases hcs
    rfl
  | cons d rest =>
    rw [prefix_pair] at h
    rw [pieces, if_neg h, hcs]

theorem pieces_placeholder : pieces (placeholder ++ rest) = [] :: pieces rest := by
  rw [placeholder, List.cons_append, List.cons_append, List.nil_append, pieces, if_pos ⟨rfl, rfl⟩]

theorem Bare.tail (h : Bare (c :: cs)) : Bare cs := by
  intro hcs
  exact h (hcs.trans (List.suffix_cons c cs).isInfix)

/-- A text without placeholders is a single piece. -/
theorem Bare.pieces_eq (h : Bare cs) : pieces cs = [cs] := by
  induction cs with
  | nil => rfl
  | cons c cs ih =>
    apply pieces_cons _ (ih h.tail)
    intro hprefix
    exact h hprefix.isInfix

/-- A text without placeholders in front of a placeholder is the first piece. A brace at its end
makes no placeholder together with the first brace of the one behind it. -/
theorem Bare.pieces_append (h : Bare cs) (rest : List Char) :
    pieces (cs ++ (placeholder ++ rest)) = cs :: pieces rest := by
  induction cs with
  | nil => exact pieces_placeholder
  | cons c cs ih =>
    apply pieces_cons _ (ih h.tail)
    intro hprefix
    cases cs with
    | nil => exact absurd (prefix_pair.mp hprefix).2 (by decide)
    | cons d cs =>
      apply h
      exact (prefix_pair.mpr (prefix_pair.mp hprefix)).isInfix

/-- The pieces of a template are those that it was put together from. -/
theorem pieces_join (hcs : Bare cs) (hparts : ∀ p ∈ parts, Bare p.2.toList) :
    pieces (cs ++ parts.flatMap fun p => placeholder ++ p.2.toList) =
      cs :: parts.map fun p => p.2.toList := by
  induction parts generalizing cs with
  | nil => rw [List.flatMap_nil, List.append_nil, hcs.pieces_eq, List.map_nil]
  | cons p parts ih =>
    obtain ⟨hp, hrest⟩ := List.forall_mem_cons.mp hparts
    rw [List.flatMap_cons, List.append_assoc, hcs.pieces_append, ih hp hrest, List.map_cons]

/-- Such a template has a placeholder for each part behind the first. -/
theorem placeholders_join (hcs : Bare cs) (hparts : ∀ p ∈ parts, Bare p.2.toList) :
    placeholders (cs ++ parts.flatMap fun p => placeholder ++ p.2.toList) = parts.length := by
  have hcount := length_pieces (cs ++ parts.flatMap fun p => placeholder ++ p.2.toList)
  rw [pieces_join hcs hparts, List.length_cons, List.length_map] at hcount
  omega

theorem toList_join (text : Value × String → String) :
    (first ++ String.join (parts.map fun p => text p ++ p.2)).toList =
      first.toList ++ parts.flatMap fun p => (text p).toList ++ p.2.toList := by
  rw [String.toList_append, String.toList_join, List.flatMap_map]
  simp only [String.toList_append]

/-- With a value for each placeholder every value takes the place of one, as it is. -/
theorem format_join (hfirst : Bare first.toList) (hparts : ∀ p ∈ parts, Bare p.2.toList) :
    format (first ++ String.join (parts.map fun p => "\x7b\x7d" ++ p.2)) (parts.map Prod.fst) =
      .ok (.str (first ++ String.join (parts.map fun p => display p.1 ++ p.2))) := by
  have htemplate : (first ++ String.join (parts.map fun p => "\x7b\x7d" ++ p.2)).toList =
      first.toList ++ parts.flatMap fun p => placeholder ++ p.2.toList :=
    toList_join fun _ => "\x7b\x7d"
  have hfilled : fill (first.toList :: parts.map fun p => p.2.toList) (parts.map Prod.fst) =
      (first ++ String.join (parts.map fun p => display p.1 ++ p.2)).toList := by
    rw [toList_join, fill, List.zip_map', List.flatMap_map]
  have hcount : parts.length = (parts.map Prod.fst).length := by rw [List.length_map]
  rw [format, htemplate, placeholders_join hfirst hparts, pieces_join hfirst hparts, hfilled,
    String.ofList_toList, if_pos hcount]

/-- Every text is put together from pieces without placeholders. -/
theorem exists_pieces (cs : List Char) : ∃ (ds : List Char) (rest : List (List Char)),
    Bare ds ∧ (∀ p ∈ rest, Bare p) ∧ cs = ds ++ rest.flatMap (placeholder ++ ·) ∧
      rest.length = occurrences cs := by
  rw [← placeholders_eq]
  fun_induction placeholders cs with
  | case1 => exact ⟨[], [], by decide, by simp, rfl, rfl⟩
  | case2 c =>
    refine ⟨[c], [], ?_, by simp, rfl, rfl⟩
    intro h
    exact absurd h.length_le (by decide : ¬ 2 ≤ 1)
  | case3 c d rest h ih =>
    obtain ⟨ds, more, hds, hmore, hrest, hlength⟩ := ih
    obtain ⟨rfl, rfl⟩ := h
    refine ⟨[], ds :: more, by decide, List.forall_mem_cons.mpr ⟨hds, hmore⟩, ?_, ?_⟩
    · rw [List.flatMap_cons, List.append_assoc, ← hrest]
      rfl
    · rw [List.length_cons, hlength]
  | case4 c d rest h ih =>
    obtain ⟨ds, more, hds, hmore, hrest, hlength⟩ := ih
    refine ⟨c :: ds, more, ?_, hmore, by rw [hrest, List.cons_append], hlength⟩
    intro hbare
    rcases List.infix_cons_iff.mp hbare with hprefix | hinfix
    · have hfirst : placeholder <+: c :: d :: rest := by
        rw [hrest]
        exact hprefix.trans (List.prefix_append (c :: ds) _)
      exact h (prefix_pair.mp hfirst)
    · exact hds hinfix

/-- A call whose arguments are a template and its values. -/
theorem evaluate_format (h : evaluateArguments ids input context .format 0 arguments =
    .ok (.str template :: values)) : (Call.mk .format arguments).evaluate ids input context =
      (format template values).mapError (failure .format) := by
  rw [Call.evaluate, evaluateCall, h]
  rfl

/-- All placeholders of a template are replaced at once. For a template of pieces without
placeholders and a value between each two of them the result is these pieces with the texts of the
values between them, whatever braces the pieces and the values have. Every template is one of such
pieces, and with another number of values than it has placeholders the call fails. -/
theorem format_substitutes
    (h : evaluateArguments ids input context .format 0 arguments =
      .ok (.str template :: values)) :
    (∀ (first : String) (parts : List (Value × String)), Bare first.toList →
      (∀ p ∈ parts, Bare p.2.toList) →
      template = first ++ String.join (parts.map fun p => "\x7b\x7d" ++ p.2) →
      values = parts.map Prod.fst →
      (Call.mk .format arguments).evaluate ids input context =
        .ok (.str (first ++ String.join (parts.map fun p => display p.1 ++ p.2)))) ∧
    (∃ (first : List Char) (rest : List (List Char)), Bare first ∧ (∀ p ∈ rest, Bare p) ∧
      template.toList = first ++ rest.flatMap (placeholder ++ ·) ∧
      rest.length = occurrences template.toList) ∧
    (values.length ≠ occurrences template.toList →
      ∃ e, (Call.mk .format arguments).evaluate ids input context = .error e ∧
        e.name? = some "States.IntrinsicFailure") := by
  rw [evaluate_format h]
  refine ⟨?_, exists_pieces template.toList, ?_⟩
  · rintro first parts hfirst hparts rfl rfl
    rw [format_join hfirst hparts]
    rfl
  · intro hcount
    have hplaces : placeholders template.toList ≠ values.length := by
      rw [placeholders_eq]
      exact hcount.symm
    rw [format, if_neg hplaces]
    exact ⟨_, rfl, rfl⟩

section

/-- A template in which single braces stand beside both placeholders, a value that looks like a
placeholder, and the input. -/
def bracedArguments : List Argument :=
  [.literal (.str "\x7b\x7b\x7d\x7d\x7b\x7d"), .literal (.str "\x7b\x7d"),
    .path ⟨"$", false, [], .reference []⟩]

/-- An object, the text of which has braces. -/
def bracedInput : Value := .obj [("k", .null)]

/-- The single braces stay, and the value that looks like a placeholder is not replaced. -/
theorem braces_substituted :
    Call.parse "States.Format('\x7b\x7b\x7d\x7d\x7b\x7d', '\x7b\x7d', $)" =
      .ok ⟨.format, bracedArguments⟩ ∧
    (Call.mk .format bracedArguments).evaluate (fun _ => "") bracedInput .null =
      .ok (.str "\x7b\x7b\x7d\x7d\x7b\"k\":null\x7d") ∧
    ∃ e, (Call.mk .format (bracedArguments.take 2)).evaluate (fun _ => "") bracedInput .null =
      .error e ∧ e.name? = some "States.IntrinsicFailure" := by
  have hvalues : evaluateArguments (fun _ => "") bracedInput .null .format 0 bracedArguments =
      .ok (.str "\x7b\x7b\x7d\x7d\x7b\x7d" :: [.str "\x7b\x7d", bracedInput]) := by cbv
  have hshort : evaluateArguments (fun _ => "") bracedInput .null .format 0
      (bracedArguments.take 2) =
        .ok (.str "\x7b\x7b\x7d\x7d\x7b\x7d" :: [.str "\x7b\x7d"]) := by cbv
  have hfilled := (format_substitutes hvalues).1 "\x7b"
    [(.str "\x7b\x7d", "\x7d"), (bracedInput, "")] (by decide) (by decide) (by decide) rfl
  exact ⟨by cbv, hfilled.trans (by cbv), (format_substitutes hshort).2.2 (by decide)⟩

end

end Intrinsic

end StatesLanguage
