import StatesLanguage.Path.Translation

/-! How the text of a condition is taken apart. Marks inside quotes do not count, and blanks around a
condition or a part make no difference. -/
namespace StatesLanguage.Path

open Jmespath (Comparator)

/-- A text without the mark outside of quotes, from what quotes its start to what quotes its end. -/
inductive Skips (m : Char) : Option Char → List Char → Option Char → Prop where
  | done {q} : Skips m q [] q
  | next {q c cs r} : (q = none → c ≠ m) → Skips m (quoteAfter q c) cs r → Skips m q (c :: cs) r

section

variable {m a b c quote : Char} {q r s : Option Char} {cs ds ms : List Char}

theorem Skips.append (h : Skips m q cs r) (h' : Skips m r ds s) : Skips m q (cs ++ ds) s := by
  induction h with
  | done => exact h'
  | next hc _ ih => exact .next hc (ih h')

theorem Skips.of_forall (h : ∀ c ∈ cs, c ≠ m ∧ quoteAfter none c = none) :
    Skips m none cs none := by
  induction cs with
  | nil => exact .done
  | cons c cs ih =>
    obtain ⟨⟨hc, hquote⟩, hrest⟩ := List.forall_mem_cons.mp h
    exact .next (fun _ => hc) (hquote.symm ▸ ih hrest)

theorem Skips.inside (h : quote ∉ cs) : Skips m (some quote) cs (some quote) := by
  induction cs with
  | nil => exact .done
  | cons c cs ih =>
    rw [List.mem_cons, not_or] at h
    obtain ⟨hc, hrest⟩ := h
    have hquote : quoteAfter (some quote) c = some quote := if_neg (Ne.symm hc)
    exact .next nofun (hquote.symm ▸ ih hrest)

/-- No mark counts in a quoted text. -/
theorem Skips.quoted (h : '\'' ∉ cs) (hm : m ≠ '\'') :
    Skips m none ('\'' :: cs ++ ['\'']) none :=
  .next (fun _ => hm.symm) ((Skips.inside h).append (.next nofun .done))

/-- Text without the mark is passed over in the search for it. -/
theorem splitOutside?_append (h : Skips m q cs r) (ds : List Char) :
    splitOutside? (m :: ms) q (cs ++ ds) =
      (splitOutside? (m :: ms) r ds).map fun (before, rest) => (cs ++ before, rest) := by
  induction h with
  | done => simp
  | @next q c cs r hc _ ih =>
    have hmark : ¬ (q.isNone && (quoteAfter q c).isNone &&
        (m :: ms).isPrefixOf (c :: (cs ++ ds))) = true := by
      cases q with
      | none => simp [List.isPrefixOf, beq_false_of_ne (Ne.symm (hc rfl))]
      | some _ => simp
    rw [List.cons_append, splitOutside?]
    simp only [hmark, Bool.false_eq_true, if_false, ih, Option.map_map]
    rfl

theorem splitOutside?_of_skips (h : Skips m q cs r) : splitOutside? (m :: ms) q cs = none := by
  rw [← List.append_nil cs, splitOutside?_append h]
  rfl

end

section

variable {a b c : Char} {q : Option Char} {cs : List Char}

theorem trim_cons (hc : isBlank c = true) (cs : List Char) : trim (c :: cs) = trim cs := by
  rw [trim, trimStart, List.dropWhile_cons_of_pos hc]
  rfl

theorem trimEnd_concat (c : Char) (cs : List Char) :
    trimEnd (cs ++ [c]) = if isBlank c then trimEnd cs else cs ++ [c] := by
  rw [trimEnd, List.reverse_concat, List.dropWhile_cons]
  split
  · rfl
  · simp

theorem trim_concat (hc : isBlank c = true) (cs : List Char) : trim (cs ++ [c]) = trim cs := by
  rw [trim, trimStart, List.dropWhile_append]
  split
  · rename_i hcs
    rw [trim, trimStart, List.isEmpty_iff.mp hcs, List.dropWhile_cons_of_pos hc, List.dropWhile_nil]
  · rw [trimEnd_concat, if_pos hc]
    rfl

/-- What depends neither on a blank in front nor on one behind does not depend on any blanks around
a text. -/
theorem padded {α : Type} {f : List Char → α} {before after : List Char}
    (hstart : ∀ c cs, isBlank c = true → f (c :: cs) = f cs)
    (hend : ∀ c cs, isBlank c = true → f (cs ++ [c]) = f cs)
    (hbefore : ∀ c ∈ before, isBlank c = true) (hafter : ∀ c ∈ after, isBlank c = true)
    (cs : List Char) : f (before ++ cs ++ after) = f cs := by
  induction before with
  | nil =>
    induction after generalizing cs with
    | nil => rw [List.nil_append, List.append_nil]
    | cons c after ih =>
      obtain ⟨hc, hrest⟩ := List.forall_mem_cons.mp hafter
      rw [List.nil_append, List.append_cons, ← List.nil_append (cs ++ [c]), ih hrest, hend c cs hc]
  | cons c before ih =>
    obtain ⟨hc, hrest⟩ := List.forall_mem_cons.mp hbefore
    exact (hstart c _ hc).trans (ih hrest)

/-- Blanks around a text are taken off. -/
theorem trim_padded (before after : List Char) (hbefore : ∀ c ∈ before, isBlank c = true)
    (hafter : ∀ c ∈ after, isBlank c = true) (cs : List Char) :
    trim (before ++ cs ++ after) = trim cs :=
  padded (fun _ cs hc => trim_cons hc cs) (fun _ cs hc => trim_concat hc cs) hbefore hafter cs

theorem trimStart_cons (hc : isBlank c = false) (cs : List Char) :
    trimStart (c :: cs) = c :: cs :=
  List.dropWhile_cons_of_neg (by simp [hc])

/-- A text that neither starts nor ends with a blank is kept. -/
theorem trim_of_ends (hfirst : ∀ c ∈ cs.head?, isBlank c = false)
    (hlast : ∀ c ∈ cs.getLast?, isBlank c = false) : trim cs = cs := by
  have hstart : trimStart cs = cs := by
    cases cs with
    | nil => rfl
    | cons c cs => exact trimStart_cons (hfirst c rfl) cs
  rw [trim, hstart]
  rcases List.eq_nil_or_concat (l := cs) with rfl | ⟨before, c, rfl⟩
  · rfl
  · rw [List.concat_eq_append] at hlast ⊢
    have hc : isBlank c = false := hlast c List.getLast?_concat
    rw [trimEnd_concat, if_neg (by simp [hc])]

theorem trim_of_forall (h : ∀ c ∈ cs, isBlank c = false) : trim cs = cs :=
  trim_of_ends (fun c hc => h c (List.mem_of_mem_head? hc))
    fun c hc => h c (List.mem_of_mem_getLast? hc)

/-- What is taken off a text are blanks. -/
theorem exists_padding (cs : List Char) : ∃ before after, cs = before ++ trim cs ++ after ∧
    (∀ c ∈ before, isBlank c = true) ∧ ∀ c ∈ after, isBlank c = true := by
  have hblank {ds : List Char} : ∀ c ∈ ds.takeWhile isBlank, isBlank c = true :=
    List.all_eq_true.mp (List.all_takeWhile)
  refine ⟨cs.takeWhile isBlank, ((trimStart cs).reverse.takeWhile isBlank).reverse, ?_, hblank,
    fun c hc => hblank c (List.mem_reverse.mp hc)⟩
  have hend : trim cs ++ ((trimStart cs).reverse.takeWhile isBlank).reverse = trimStart cs := by
    rw [trim, trimEnd, ← List.reverse_append, List.takeWhile_append_dropWhile, List.reverse_reverse]
  rw [List.append_assoc, hend, trimStart, List.takeWhile_append_dropWhile]

end

section

variable {c m : Char} {q : Option Char} {cs : List Char}

/-- A character behind a text that does not belong to the mark makes no difference to where the text
is cut. -/
theorem splitOutside?_concat {mark : List Char} (hne : mark ≠ []) (hc : c ∉ mark)
    (q : Option Char) (cs : List Char) :
    splitOutside? mark q (cs ++ [c]) =
      (splitOutside? mark q cs).map fun (before, rest) => (before, rest ++ [c]) := by
  have hprefix (ds : List Char) : mark.isPrefixOf (ds ++ [c]) = mark.isPrefixOf ds := by
    rw [Bool.eq_iff_iff, List.isPrefixOf_iff_prefix, List.isPrefixOf_iff_prefix,
      List.prefix_concat_iff, or_iff_right]
    rintro rfl
    exact hc (by simp)
  induction cs generalizing q with
  | nil =>
    have hmark : mark.isPrefixOf [c] = false := by
      rw [← List.nil_append [c], hprefix, Bool.eq_false_iff]
      exact fun h => hne (List.prefix_nil.mp (List.isPrefixOf_iff_prefix.mp h))
    simp [splitOutside?, hmark]
  | cons e cs ih =>
    rw [List.cons_append, splitOutside?, splitOutside?, ← List.cons_append, hprefix]
    split
    · rename_i hfound
      have hlength : mark.length ≤ (e :: cs).length :=
        (List.isPrefixOf_iff_prefix.mp (Bool.and_eq_true_iff.mp hfound).2).length_le
      rw [List.drop_append_of_le_length hlength]
      rfl
    · rw [ih]
      simp [Function.comp_def]

/-- Text without connectives is passed over in the search for one. -/
theorem connective?_append (hand : Skips '&' none cs none) (hor : Skips '|' none cs none)
    (ds : List Char) : connective? (cs ++ ds) =
      (connective? ds).map fun cut => ⟨cs ++ cut.before, cut.mark, cut.rest⟩ := by
  have hcut {m : Char} (h : Skips m none cs none) : cut? [m, m] (cs ++ ds) =
      (cut? [m, m] ds).map fun cut => ⟨cs ++ cut.before, cut.mark, cut.rest⟩ := by
    rw [cut?, splitOutside?_append h, cut?, Option.map_map, Option.map_map]
    rfl
  unfold connective?
  rw [hcut hand, hcut hor]
  cases cut? ['&', '&'] ds with
  | none => rfl
  | some a =>
    cases cut? ['|', '|'] ds with
    | none => rfl
    | some b =>
      have hlength : (cs ++ a.before).length ≤ (cs ++ b.before).length ↔
          a.before.length ≤ b.before.length := by
        simp
      simp only [Option.map_some, hlength]
      split <;> rfl

theorem connective?_concat (hc : isBlank c = true) (cs : List Char) : connective? (cs ++ [c]) =
    (connective? cs).map fun cut => ⟨cut.before, cut.mark, cut.rest ++ [c]⟩ := by
  have hcut {m : Char} (hm : isBlank m = false) : cut? [m, m] (cs ++ [c]) =
      (cut? [m, m] cs).map fun cut => ⟨cut.before, cut.mark, cut.rest ++ [c]⟩ := by
    have hmark : c ∉ [m, m] := by
      rintro hmem
      simp only [List.mem_cons, List.not_mem_nil, or_false, or_self] at hmem
      cases (hmem ▸ hc).symm.trans hm
    rw [cut?, splitOutside?_concat (by simp) hmark, cut?, Option.map_map, Option.map_map]
    rfl
  unfold connective?
  rw [hcut (by decide), hcut (by decide)]
  cases cut? ['&', '&'] cs with
  | none => rfl
  | some a =>
    cases cut? ['|', '|'] cs with
    | none => rfl
    | some b =>
      simp only [Option.map_some]
      split <;> rfl

theorem translateFilter_eq (cs : List Char) :
    translateFilter cs = match connective? cs with
      | none => translateClause (trim cs)
      | some cut => do
        let clause ← translateClause (trim cut.before)
        let rest ← translateFilter cut.rest
        return clause ++ ' ' :: cut.mark ++ ' ' :: rest := by
  rw [translateFilter]
  split <;> simp [*]

theorem connective?_mark (hm : m ∈ ['&', '|']) (rest : List Char) :
    connective? (m :: m :: rest) = some ⟨[], [m, m], rest⟩ := by
  simp only [List.mem_cons, List.not_mem_nil, or_false] at hm
  unfold connective?
  rcases hm with rfl | rfl
  · have hfound : cut? ['&', '&'] ('&' :: '&' :: rest) = some ⟨[], ['&', '&'], rest⟩ := rfl
    rw [hfound]
    cases cut? ['|', '|'] ('&' :: '&' :: rest) with
    | none => rfl
    | some b => exact if_pos (Nat.zero_le _)
  · have hfound : cut? ['|', '|'] ('|' :: '|' :: rest) = some ⟨[], ['|', '|'], rest⟩ := rfl
    rw [hfound]
    cases hand : cut? ['&', '&'] ('|' :: '|' :: rest) with
    | none => rfl
    | some a =>
      -- another connective can only stand further on
      have hskips : Skips '&' none ['|'] none := .next (by decide) .done
      have hsplit : splitOutside? ['&', '&'] none (['|'] ++ '|' :: rest) = _ :=
        splitOutside?_append hskips _
      rw [List.singleton_append] at hsplit
      rw [cut?, hsplit, Option.map_map] at hand
      obtain ⟨⟨before, after⟩, -, rfl⟩ := Option.map_eq_some_iff.mp hand
      exact if_neg (by simp)

/-- What stands before a connective is a clause. -/
theorem translateFilter_mark (hm : m ∈ ['&', '|']) (hand : Skips '&' none cs none)
    (hor : Skips '|' none cs none) (rest : List Char) :
    translateFilter (cs ++ m :: m :: rest) = do
      let clause ← translateClause (trim cs)
      let rest ← translateFilter rest
      return clause ++ ' ' :: [m, m] ++ ' ' :: rest := by
  rw [translateFilter_eq, connective?_append hand hor, connective?_mark hm, Option.map_some,
    List.append_nil]

theorem translateFilter_of_skips (hand : Skips '&' none cs none) (hor : Skips '|' none cs none) :
    translateFilter cs = translateClause (trim cs) := by
  have hnone := connective?_append hand hor []
  rw [List.append_nil] at hnone
  rw [translateFilter_eq, hnone]
  rfl

theorem translateFilter_cons (hc : isBlank c = true) (cs : List Char) :
    translateFilter (c :: cs) = translateFilter cs := by
  have hskips {m : Char} (hm : isBlank m = false) : Skips m none [c] none := by
    refine .of_forall fun e he => ?_
    rw [List.mem_singleton.mp he]
    refine ⟨?_, if_neg ?_⟩
    · rintro rfl
      cases hc.symm.trans hm
    · rintro (rfl | rfl) <;> cases hc
  have hconnective := connective?_append (hskips (m := '&') (by decide))
    (hskips (m := '|') (by decide)) cs
  rw [List.singleton_append] at hconnective
  rw [translateFilter_eq (c :: cs), hconnective, translateFilter_eq cs]
  cases connective? cs with
  | none => simp only [Option.map_none, trim_cons hc]
  | some cut => simp only [Option.map_some, List.singleton_append, trim_cons hc]

theorem translateFilter_concat (hc : isBlank c = true) (cs : List Char) :
    translateFilter (cs ++ [c]) = translateFilter cs := by
  induction cs using translateFilter.induct with
  | case1 cs hnone =>
    have hconnective := connective?_concat hc cs
    rw [hnone] at hconnective
    rw [translateFilter_eq (cs ++ [c]), hconnective, translateFilter_eq cs, hnone]
    simp only [Option.map_none, trim_concat hc]
  | case2 cs cut hcut _ ih =>
    have hconnective := connective?_concat hc cs
    rw [hcut] at hconnective
    rw [translateFilter_eq (cs ++ [c]), hconnective, translateFilter_eq cs, hcut]
    simp only [Option.map_some, ih]

/-- Blanks around a condition make no difference. -/
theorem translateFilter_trim (cs : List Char) : translateFilter (trim cs) = translateFilter cs := by
  obtain ⟨before, after, hcs, hbefore, hafter⟩ := exists_padding cs
  have hpadded := padded (f := translateFilter) (fun _ cs hc => translateFilter_cons hc cs)
    (fun _ cs hc => translateFilter_concat hc cs) hbefore hafter (trim cs)
  rw [← hpadded, ← hcs]

end

/-- A text with something else than a bracket behind each closing parenthesis. -/
def Clear : List Char → Prop
  | [] => True
  | c :: cs => (c = ')' → ∃ d ds, cs = d :: ds ∧ d ≠ ']') ∧ Clear cs

section

variable {c : Char} {cs ds : List Char}

theorem Clear.append (h : Clear cs) (h' : Clear ds) : Clear (cs ++ ds) := by
  induction cs with
  | nil => exact h'
  | cons c cs ih =>
    refine ⟨fun hc => ?_, ih h.2⟩
    obtain ⟨d, rest, rfl, hd⟩ := h.1 hc
    exact ⟨d, rest ++ ds, rfl, hd⟩

theorem Clear.of_not_mem (h : ')' ∉ cs) : Clear cs := by
  induction cs with
  | nil => trivial
  | cons c cs ih =>
    rw [List.mem_cons, not_or] at h
    exact ⟨fun hc => (h.1 hc.symm).elim, ih h.2⟩

theorem Clear.concat (h : ¬ [')', ']'] <:+: cs) (hparen : c ≠ ')') (hbracket : c ≠ ']') :
    Clear (cs ++ [c]) := by
  induction cs with
  | nil => exact ⟨fun hc => (hparen hc).elim, trivial⟩
  | cons d cs ih =>
    rw [List.infix_cons_iff, not_or] at h
    refine ⟨?_, ih h.2⟩
    rintro rfl
    cases cs with
    | nil => exact ⟨c, [], rfl, hbracket⟩
    | cons e cs =>
      refine ⟨e, cs ++ [c], rfl, ?_⟩
      rintro rfl
      exact h.1 (List.prefix_append [')', ']'] cs)

theorem Clear.not_infix (h : Clear cs) : ¬ [')', ']'] <:+: cs := by
  induction cs with
  | nil => simp
  | cons c cs ih =>
    rw [List.infix_cons_iff]
    rintro (⟨after, heq⟩ | hrest)
    · obtain ⟨hc, hafter⟩ := List.cons.inj heq
      obtain ⟨d, ds, rfl, hd⟩ := h.1 hc.symm
      exact hd (List.cons.inj hafter).1.symm
    · exact ih h.2 hrest

/-- A text without a mark of two characters goes on to the first mark behind it. -/
theorem splitAt_pair {a b : Char} (hab : a ≠ b) (h : ¬ [a, b] <:+: cs) (rest : List Char) :
    splitAt? [a, b] (cs ++ a :: b :: rest) = some (cs, rest) := by
  induction cs with
  | nil => simp [splitAt?]
  | cons c cs ih =>
    rw [List.infix_cons_iff, not_or] at h
    have hmark : ¬ [a, b].isPrefixOf (c :: (cs ++ a :: b :: rest)) = true := by
      rw [List.isPrefixOf_iff_prefix]
      rintro ⟨after, heq⟩
      obtain ⟨rfl, hrest⟩ := List.cons.inj heq
      -- the second character of a mark across the end would be the first of the mark behind it
      cases cs with
      | nil => exact hab (List.cons.inj hrest).1.symm
      | cons d cs =>
        rw [← (List.cons.inj hrest).1] at h
        exact h.1 (List.prefix_append [a, b] cs)
    rw [List.cons_append, splitAt?, if_neg hmark, ih h.2]
    rfl

/-- A clear text goes on to the first parenthesis with a bracket behind it. -/
theorem Clear.splitAt? (h : Clear cs) (rest : List Char) :
    Path.splitAt? [')', ']'] (cs ++ ')' :: ']' :: rest) = some (cs, rest) :=
  splitAt_pair (by decide) h.not_infix rest

end

section

/-- What holds of the empty text, of concatenations and of the parts holds of the parts when they are
joined. -/
theorem forall_intercalate {α : Type} {P : List α → Prop} {mark : List α} {parts : List (List α)}
    (hnil : P []) (happend : ∀ {cs ds}, P cs → P ds → P (cs ++ ds)) (hmark : P mark)
    (h : ∀ part ∈ parts, P part) : P (mark.intercalate parts) := by
  induction parts with
  | nil => exact hnil
  | cons part parts ih =>
    obtain ⟨hpart, hrest⟩ := List.forall_mem_cons.mp h
    cases parts with
    | nil =>
      rw [List.intercalate_singleton]
      exact hpart
    | cons next parts =>
      rw [List.intercalate_cons_cons]
      exact happend (happend hpart hmark) (ih hrest)

theorem forall_mem_intercalate {α : Type} {P : α → Prop} {mark : List α} {parts : List (List α)}
    (hmark : ∀ x ∈ mark, P x) (h : ∀ part ∈ parts, ∀ x ∈ part, P x) :
    ∀ x ∈ mark.intercalate parts, P x :=
  forall_intercalate (P := fun xs => ∀ x ∈ xs, P x) (by simp)
    (fun h h' => List.forall_mem_append.mpr ⟨h, h'⟩) hmark h

end

section

variable {left right : List Char}

/-- The characters of comparators. -/
def comparatorMarks : List Char := ['=', '!', '<', '>']

/-- The comparator of a clause is the one between its operands, whatever they quote. -/
theorem findSome?_comparator (op : Comparator)
    (hleft : ∀ m ∈ comparatorMarks, Skips m none left none)
    (hright : ∀ m ∈ comparatorMarks, Skips m none right none) :
    (comparators.findSome? fun c =>
      (splitOutside? c.text none (left ++ (op.text ++ right))).map
        fun (before, rest) => (c, before, rest)) = some (op, left, right) := by
  have hmark : ['='].isPrefixOf right = false := by
    cases hright '=' (by decide) with
    | done => rfl
    | next hc => rw [List.isPrefixOf, beq_false_of_ne (Ne.symm (hc rfl)), Bool.false_and]
  have hpast : ∀ m ∈ comparatorMarks, ∀ ms, splitOutside? (m :: ms) none right = none :=
    fun m hm _ => splitOutside?_of_skips (hright m hm)
  obtain ⟨hequal, hnot, hless, hgreater, -⟩ := by
    simpa only [comparatorMarks, List.forall_mem_cons] using hpast
  have hfound (c : Comparator) : splitOutside? c.text none (left ++ (op.text ++ right)) =
      (splitOutside? c.text none (op.text ++ right)).map
        fun (before, rest) => (left ++ before, rest) := by
    cases c <;> exact splitOutside?_append (hleft _ (by decide)) _
  simp only [hfound]
  -- a comparator that is looked for before the right one is nowhere in the rest of the clause
  cases op <;>
    simp only [comparators, List.findSome?_cons] <;>
    simp [Comparator.text, splitOutside?, quoteAfter, hmark, hequal, hnot, hless, hgreater]

/-- A clause with a comparator between its operands. -/
theorem translateClause_compare {l r : List Char} (op : Comparator)
    (hleft : ∀ m ∈ comparatorMarks, Skips m none left none)
    (hright : ∀ m ∈ comparatorMarks, Skips m none right none)
    (hl : translateOperand (trim left) = .ok l) (hr : translateOperand (trim right) = .ok r) :
    translateClause (left ++ (op.text ++ right)) = .ok (l ++ ' ' :: op.text ++ ' ' :: r) := by
  have hfound := findSome?_comparator op hleft hright
  unfold translateClause
  rw [hfound]
  simp only [hl, hr]
  rfl

end

end StatesLanguage.Path
