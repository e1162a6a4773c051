import StatesLanguage.Flow.Basic
import StatesLanguage.Path.Syntax
import StatesLanguage.Proofs.Brackets
import StatesLanguage.Proofs.Patterns
import StatesLanguage.Proofs.Suffixes

/-! The form of a path against the reading of paths. A text of that form is read piece by piece, one
segment for each repetition, and nothing but the size or the digits of a numeral can be wrong with it.
A text of the form of a reference path leads to a single place of the data. -/
namespace StatesLanguage.Path

open Pattern

variable {x n rest : List Char} {pieces : List (List Char)} {text : String} {p : Path}

/-- The forms of a segment that is no condition. -/
def plainForms : List Pattern :=
  [dottedForm, .literal ".*", bracketedForm, indexedForm, .literal "[*]", slicedForm]

/-- The form of a path without conditions. -/
def plainForm : Pattern := .seq (.char '$') (.star (.oneOf plainForms))

/-- All that the form of a path admits beyond that are conditions. -/
theorem pathForm_eq :
    pathForm = .seq (.char '$') (.star (.oneOf (plainForms ++ [filteredForm]))) := rfl

/-- The numerals in the text of a segment: its position, or the bounds that are not left out. -/
def Numeral (x n : List Char) : Prop :=
  (Matches indexedForm x ∧ x = '[' :: (n ++ [']'])) ∨
    ∃ inner, Matches slicedForm x ∧ x = '[' :: (inner ++ [']']) ∧ n ∈ splitOnChar ':' inner ∧ n ≠ []

theorem numeral_digits {sign digits : List Char} (hsign : Matches signForm sign)
    (hdigits : ∀ c ∈ digits, isDecimalDigit c = true) :
    ∀ c ∈ sign ++ digits, isNumeralChar c = true := by
  refine List.forall_mem_append.mpr ⟨?_, fun c hc => by simp [isNumeralChar, hdigits c hc]⟩
  rcases matches_optional.mp hsign with rfl | hsign
  · simp
  · rw [matches_char.mp hsign]
    exact List.forall_mem_singleton.mpr (by decide)

theorem indexed_text (h : Matches indexedForm x) :
    ∃ n, x = '[' :: (n ++ [']']) ∧ ∀ c ∈ n, isNumeralChar c = true := by
  obtain ⟨xs, ys, rfl, hopen, hrest⟩ := matches_seq.mp h
  obtain ⟨sign, zs, rfl, hsign, hrest⟩ := matches_seq.mp hrest
  obtain ⟨digits, zs, rfl, hdigits, hrest⟩ := matches_seq.mp hrest
  obtain ⟨zs, us, rfl, hclose, hempty⟩ := matches_seq.mp hrest
  refine ⟨sign ++ digits, ?_, numeral_digits hsign (matches_many_one.mp hdigits).2⟩
  rw [matches_char.mp hopen, matches_char.mp hclose, matches_empty.mp hempty]
  simp

theorem sliced_text (h : Matches slicedForm x) : ∃ a b rest,
    x = '[' :: ([':'].intercalate (a :: b :: rest) ++ [']']) ∧ rest.length ≤ 1 ∧
      ∀ part ∈ a :: b :: rest, ∀ c ∈ part, isNumeralChar c = true := by
  obtain ⟨xs, ys, rfl, hopen, hrest⟩ := matches_seq.mp h
  obtain ⟨sign, zs, rfl, hsign, hrest⟩ := matches_seq.mp hrest
  obtain ⟨digits, zs, rfl, hdigits, hrest⟩ := matches_seq.mp hrest
  obtain ⟨colon, zs, rfl, hcolon, hrest⟩ := matches_seq.mp hrest
  obtain ⟨sign', zs, rfl, hsign', hrest⟩ := matches_seq.mp hrest
  obtain ⟨digits', zs, rfl, hdigits', hrest⟩ := matches_seq.mp hrest
  obtain ⟨step, zs, rfl, hstep, hrest⟩ := matches_seq.mp hrest
  obtain ⟨zs, us, rfl, hclose, hempty⟩ := matches_seq.mp hrest
  have hstart := numeral_digits hsign (matches_star_one.mp hdigits)
  have hstop := numeral_digits hsign' (matches_star_one.mp hdigits')
  rw [matches_char.mp hopen, matches_char.mp hclose, matches_empty.mp hempty,
    matches_char.mp hcolon]
  rcases matches_optional.mp hstep with rfl | hstep
  · refine ⟨sign ++ digits, sign' ++ digits', [], by simp [List.intercalate], by simp, ?_⟩
    simpa only [List.forall_mem_cons] using ⟨hstart, hstop, by simp⟩
  · obtain ⟨colon', zs, rfl, hcolon', hrest⟩ := matches_seq.mp hstep
    obtain ⟨sign'', zs, rfl, hsign'', hrest⟩ := matches_seq.mp hrest
    obtain ⟨digits'', zs, rfl, hdigits'', hempty'⟩ := matches_seq.mp hrest
    have hstep := numeral_digits hsign'' (matches_many_one.mp hdigits'').2
    rw [matches_char.mp hcolon', matches_empty.mp hempty']
    refine ⟨sign ++ digits, sign' ++ digits', [sign'' ++ digits''], by simp [List.intercalate],
      by simp, ?_⟩
    simpa only [List.forall_mem_cons] using ⟨hstart, hstop, hstep, by simp⟩

theorem brackets_inj {a b : List Char} (h : '[' :: (a ++ [']']) = '[' :: (b ++ [']'])) : a = b :=
  List.append_cancel_right (List.cons.inj h).2

theorem Numeral.bounds (h : Numeral x n) : ∃ inner, x = '[' :: (inner ++ [']']) ∧ Bounds inner := by
  rcases h with ⟨hform, -⟩ | ⟨inner, hform, -⟩
  · obtain ⟨m, rfl, hall⟩ := indexed_text hform
    exact ⟨m, rfl, bounds_of_numeral hall⟩
  · obtain ⟨a, b, rest, rfl, -, hall⟩ := sliced_text hform
    exact ⟨_, rfl, bounds_of_parts hall⟩

/-- A segment in other brackets than those of numerals has none. -/
theorem Numeral.starts {c : Char} (h : Numeral ('[' :: c :: x) n) :
    isNumeralChar c = true ∨ c = ':' ∨ c = ']' := by
  obtain ⟨inner, heq, hbounds⟩ := h.bounds
  cases inner with
  | nil => exact .inr (.inr (List.cons.inj (List.cons.inj heq).2).1)
  | cons d inner =>
    obtain ⟨rfl, -⟩ := List.cons.inj (List.cons.inj heq).2
    rcases hbounds c List.mem_cons_self with hc | hc
    · exact .inl hc
    · exact .inr (.inl hc)

theorem numeral_indexed {m : List Char} (h : Matches indexedForm ('[' :: (n ++ [']']))) :
    Numeral ('[' :: (n ++ [']'])) m ↔ m = n := by
  constructor
  · rintro (⟨-, heq⟩ | ⟨inner, hform, heq, -⟩)
    · exact (brackets_inj heq).symm
    · obtain ⟨a, b, rest, hparts, -⟩ := sliced_text hform
      obtain ⟨m, hm, hall⟩ := indexed_text h
      have hcolon := colon_mem_parts a b rest
      rw [← brackets_inj hparts, brackets_inj hm] at hcolon
      exact (not_mem_numeral hall (by decide) hcolon).elim
  · rintro rfl
    exact .inl ⟨h, rfl⟩

theorem numeral_sliced {a b m : List Char} {rest : List (List Char)}
    (h : Matches slicedForm ('[' :: ([':'].intercalate (a :: b :: rest) ++ [']'])))
    (hall : ∀ part ∈ a :: b :: rest, ∀ c ∈ part, isNumeralChar c = true) :
    Numeral ('[' :: ([':'].intercalate (a :: b :: rest) ++ [']'])) m ↔
      m ∈ a :: b :: rest ∧ m ≠ [] := by
  constructor
  · rintro (⟨hform, heq⟩ | ⟨inner, hform, heq, hm, hne⟩)
    · obtain ⟨n, hn, hnumeral⟩ := indexed_text hform
      have hcolon := colon_mem_parts a b rest
      rw [brackets_inj hn] at hcolon
      exact (not_mem_numeral hnumeral (by decide) hcolon).elim
    · rw [← brackets_inj heq, splitOnChar_parts (List.cons_ne_nil _ _) hall] at hm
      exact ⟨hm, hne⟩
  · rintro ⟨hm, hne⟩
    refine .inr ⟨_, h, rfl, ?_, hne⟩
    rwa [splitOnChar_parts (List.cons_ne_nil _ _) hall]

/-- A text that is read whole as a segment, with integers for its numerals. -/
def Reads (x : List Char) (s : Segment) : Prop :=
  readSegment x = .ok (s, []) ∧ ∀ n, Numeral x n → (integer? n).isSome = true

/-- A text that fails at a numeral that is no integer, whatever stands behind it. -/
def Fails (x : List Char) (fault : Fault) : Prop :=
  (fault = .index ∨ fault = .slice) ∧ (∀ rest, readSegment (x ++ rest) = .error fault) ∧
    ∃ n, Numeral x n ∧ integer? n = none

theorem dotted_reads (h : Matches dottedForm x) :
    ∃ name, Reads x (.select (.key (.field name))) := by
  obtain ⟨xs, ys, rfl, hdot, hrest⟩ := matches_seq.mp h
  obtain ⟨name, zs, rfl, hname, hempty⟩ := matches_seq.mp hrest
  obtain ⟨hne, hall⟩ := matches_many_one.mp hname
  rw [matches_char.mp hdot, matches_empty.mp hempty, List.append_nil]
  have hends : ∀ c ∈ name, endsName c = false := by
    intro c hc
    have hfree := hall c hc
    simp only [isNameChar, Bool.not_eq_true', Bool.or_eq_false_iff] at hfree
    simp [endsName, hfree]
  have hstar : name.head? ≠ some '*' := by
    intro heq
    exact absurd (hall '*' (List.mem_of_mem_head? heq)) (by decide)
  refine ⟨String.ofList name, readSegment_dotted hne hstar hends, fun n hn => ?_⟩
  obtain ⟨inner, heq, -⟩ := hn.bounds
  cases heq

theorem quoted_reads (h : Matches bracketedForm x) :
    ∃ name, Reads x (.select (.key (.field name))) := by
  obtain ⟨xs, ys, rfl, hopen, hrest⟩ := matches_seq.mp h
  obtain ⟨name, zs, rfl, hname, hrest⟩ := matches_seq.mp hrest
  obtain ⟨zs, us, rfl, hclose, hempty⟩ := matches_seq.mp hrest
  have hquote : '\'' ∉ name := fun hmem => by simpa using matches_star_one.mp hname _ hmem
  have hsplit : splitAt? ['\'', ']'] (name ++ ['\'', ']']) = some (name, []) := splitAt_append hquote
  rw [matches_literal.mp hopen, matches_literal.mp hclose, matches_empty.mp hempty]
  change ∃ name', Reads ('[' :: '\'' :: (name ++ ['\'', ']'])) _
  refine ⟨String.ofList name, by rw [readSegment, hsplit], fun n hn => ?_⟩
  exact absurd hn.starts (by decide)

theorem literal_reads {c : Char} {s : Segment} (hc : ¬ (isNumeralChar c = true ∨ c = ':' ∨ c = ']'))
    (h : readSegment ('[' :: c :: x) = .ok (s, [])) : Reads ('[' :: c :: x) s :=
  ⟨h, fun _ hn => (hc hn.starts).elim⟩

theorem indexed_outcome (h : Matches indexedForm x) :
    (∃ i, Reads x (.select (.key (.index i)))) ∨ Fails x .index := by
  obtain ⟨n, rfl, hall⟩ := indexed_text h
  have hread (rest : List Char) : readSegment ('[' :: (n ++ [']']) ++ rest) =
      (bracketed? n).map fun s => (.select s, rest) := by
    have hbrackets := readSegment_bracketed (bounds_of_numeral hall) rest
    simpa using hbrackets
  simp only [bracketed_numeral hall] at hread
  cases hn : integer? n with
  | some i =>
    refine .inl ⟨i, ?_, fun m hm => ?_⟩
    · have hwhole := hread []
      rw [hn, List.append_nil] at hwhole
      exact hwhole
    · rw [(numeral_indexed h).mp hm, hn]
      rfl
  | none =>
    refine .inr ⟨.inl rfl, fun rest => ?_, n, (numeral_indexed h).mpr rfl, hn⟩
    rw [hread, hn]
    rfl

theorem bound?_isSome (h : ∀ c ∈ n, isNumeralChar c = true) :
    (bound? n).isSome = true ↔ (n ≠ [] → (integer? n).isSome = true) := by
  rw [bound?_numeral h]
  cases n with
  | nil => simp
  | cons c n => simp

/-- Two or three bounds are a slice exactly if each of them can be read. -/
theorem slice?_isSome {a b : List Char} {rest : List (List Char)} (hlength : rest.length ≤ 1)
    (hall : ∀ part ∈ a :: b :: rest, ∀ c ∈ part, isNumeralChar c = true) :
    (slice? ([':'].intercalate (a :: b :: rest))).isSome = true ↔
      ∀ part ∈ a :: b :: rest, (bound? part).isSome = true := by
  rw [slice?, splitOnChar_parts (List.cons_ne_nil _ _) hall]
  match rest with
  | [] => cases ha : bound? a <;> cases hb : bound? b <;> simp [ha, hb]
  | [c] => cases ha : bound? a <;> cases hb : bound? b <;> cases hc : bound? c <;> simp [ha, hb, hc]

theorem sliced_outcome (h : Matches slicedForm x) :
    (∃ s, Reads x s) ∨ Fails x .slice := by
  obtain ⟨a, b, rest, rfl, hlength, hall⟩ := sliced_text h
  have hread (after : List Char) :
      readSegment ('[' :: ([':'].intercalate (a :: b :: rest) ++ [']']) ++ after) =
        (bracketed? ([':'].intercalate (a :: b :: rest))).map fun s => (.select s, after) := by
    have hbrackets := readSegment_bracketed (bounds_of_parts hall) after
    simpa using hbrackets
  simp only [bracketed_parts hall] at hread
  have hsome := slice?_isSome hlength hall
  cases hs : slice? ([':'].intercalate (a :: b :: rest)) with
  | some s =>
    rw [hs] at hsome
    refine .inl ⟨.select s, ?_, fun n hn => ?_⟩
    · have hwhole := hread []
      rw [hs, List.append_nil] at hwhole
      exact hwhole
    · obtain ⟨hmem, hne⟩ := (numeral_sliced h hall).mp hn
      exact (bound?_isSome (hall n hmem)).mp (hsome.mp rfl n hmem) hne
  | none =>
    rw [hs] at hsome
    simp only [Option.isSome_none, Bool.false_eq_true, false_iff, not_forall] at hsome
    obtain ⟨n, hmem, hn⟩ := hsome
    rw [bound?_isSome (hall n hmem), not_forall] at hn
    obtain ⟨hne, hn⟩ := hn
    refine .inr ⟨.inr rfl, fun after => ?_, n, (numeral_sliced h hall).mpr ⟨hmem, hne⟩, ?_⟩
    · rw [hread, hs]
      rfl
    · simpa using hn

/-- A repetition of the form is read as one segment, or fails at a numeral. -/
theorem piece_outcome (h : Matches (oneOf plainForms) x) :
    (∃ s, Reads x s) ∨ ∃ fault, Fails x fault := by
  obtain ⟨form, hform, hmatches⟩ := matches_oneOf.mp h
  simp only [plainForms, List.mem_cons, List.not_mem_nil, or_false] at hform
  rcases hform with rfl | rfl | rfl | rfl | rfl | rfl
  · exact .inl ((dotted_reads hmatches).imp' _ fun _ h => h)
  · rw [matches_literal.mp hmatches]
    refine .inl ⟨.select .values, rfl, fun n hn => ?_⟩
    obtain ⟨inner, heq, -⟩ := hn.bounds
    cases heq
  · exact .inl ((quoted_reads hmatches).imp' _ fun _ h => h)
  · exact (indexed_outcome hmatches).imp (fun ⟨_, h⟩ => ⟨_, h⟩) fun h => ⟨_, h⟩
  · rw [matches_literal.mp hmatches]
    exact .inl ⟨.select .items, literal_reads (by decide) rfl⟩
  · exact (sliced_outcome hmatches).imp_right fun h => ⟨_, h⟩

theorem piece_opens (h : Matches (oneOf plainForms) x) : Opens x := by
  refine opens_of_read fun hread => ?_
  rcases piece_outcome h with ⟨s, hs⟩ | ⟨fault, hfault, hfails, -⟩
  · cases hread.symm.trans hs.1
  · have hwhole := hfails []
    rw [List.append_nil, hread] at hwhole
    cases hwhole
    simp at hfault

/-- A row of repetitions is read one by one, up to the first that fails. -/
theorem readSegments_pieces (h : ∀ x ∈ pieces, Matches (oneOf plainForms) x) :
    (∃ segments, readSegments pieces.flatten = .ok segments ∧ List.Forall₂ Reads pieces segments) ∨
      ∃ fault, readSegments pieces.flatten = .error fault ∧ ∃ x ∈ pieces, Fails x fault := by
  induction pieces with
  | nil =>
    refine .inl ⟨[], ?_, .nil⟩
    rw [List.flatten_nil, readSegments]
    rfl
  | cons x pieces ih =>
    obtain ⟨hx, hrest⟩ := List.forall_mem_cons.mp h
    rw [List.flatten_cons]
    rcases piece_outcome hx with ⟨s, hs⟩ | ⟨fault, hfault⟩
    · have hopens := opens_flatten fun y hy => piece_opens (hrest y hy)
      rw [readSegments_cons hs.1 hopens]
      rcases ih hrest with ⟨segments, hread, hall⟩ | ⟨fault, hread, y, hy, hfails⟩
      · exact .inl ⟨s :: segments, by rw [hread]; rfl, .cons hs hall⟩
      · exact .inr ⟨fault, by rw [hread]; rfl, y, List.mem_cons_of_mem _ hy, hfails⟩
    · refine .inr ⟨fault, ?_, x, List.mem_cons_self, hfault⟩
      obtain ⟨c, cs, rfl, -⟩ := piece_opens hx
      have hread := hfault.2.1 pieces.flatten
      rw [List.cons_append] at hread ⊢
      rw [readSegments, if_neg (by simp)]
      split
      · rename_i heq
        cases hread.symm.trans heq
        rfl
      · rename_i heq
        cases hread.symm.trans heq

/-- The repetitions that make up the text of a path without conditions. -/
structure Pieces (text : String) (pieces : List (List Char)) : Prop where
  whole : body text.toList = '$' :: pieces.flatten
  formed : ∀ x ∈ pieces, Matches (oneOf plainForms) x

theorem pieces_of_form (h : plainForm.accepts (body text.toList) = true) :
    ∃ pieces, Pieces text pieces := by
  obtain ⟨root, rest, hwhole, hroot, hrest⟩ := matches_seq.mp (accepts_iff.mp h)
  obtain ⟨pieces, rfl, hpieces⟩ := matches_star.mp hrest
  exact ⟨pieces, by rw [hwhole, matches_char.mp hroot]; rfl, hpieces⟩

theorem valid_of_form (h : plainForm.accepts (body text.toList) = true) : isValid text = true := by
  obtain ⟨pieces, hwhole, hpieces⟩ := pieces_of_form h
  rw [isValid, hwhole, accepts_iff, pathForm_eq]
  refine matches_seq.mpr ⟨['$'], pieces.flatten, rfl, matches_char.mpr rfl, matches_star.mpr ?_⟩
  refine ⟨pieces, rfl, fun x hx => ?_⟩
  obtain ⟨form, hform, hmatches⟩ := matches_oneOf.mp (hpieces x hx)
  exact matches_oneOf.mpr ⟨form, List.mem_append_left _ hform, hmatches⟩

/-- What is read of a path are its repetitions, whether it leads into the input or into the context
object. -/
theorem Pieces.parse_eq (h : Pieces text pieces) : ∃ inContext,
    text.toList = dollars inContext ++ pieces.flatten ∧
      parse text = parseBody text inContext pieces.flatten := by
  have hroot := not_dollar (opens_flatten fun x hx => piece_opens (h.formed x hx))
  have hwhole := h.whole
  unfold body at hwhole
  split at hwhole
  · rename_i rest htext
    obtain ⟨-, rfl⟩ := List.cons.inj hwhole
    exact ⟨true, htext, parse_of_body htext (by simp)⟩
  · exact ⟨false, hwhole, parse_of_body hwhole fun _ => hroot⟩

theorem keys_of_forall {segments : List Segment} (h : ∀ s ∈ segments, ∃ k, s = .select (.key k)) :
    ∃ keys, keys? segments = some keys := by
  induction segments with
  | nil => exact ⟨[], rfl⟩
  | cons s rest ih =>
    obtain ⟨⟨k, rfl⟩, hrest⟩ := List.forall_mem_cons.mp h
    obtain ⟨keys, hkeys⟩ := ih hrest
    unfold keys? at hkeys ⊢
    exact ⟨k :: keys, by rw [List.mapM_cons, hkeys]; rfl⟩

/-- The forms of a step to a single place. -/
def keyForms : List Pattern := [dottedForm, bracketedForm, indexedForm]

theorem plain_of_key (h : Matches (oneOf keyForms) x) : Matches (oneOf plainForms) x := by
  obtain ⟨form, hform, hmatches⟩ := matches_oneOf.mp h
  refine matches_oneOf.mpr ⟨form, ?_, hmatches⟩
  simp only [keyForms, plainForms, List.mem_cons, List.not_mem_nil, or_false] at hform ⊢
  rcases hform with rfl | rfl | rfl <;> simp

theorem key_of_reads {s : Segment} (h : Matches (oneOf keyForms) x) (hs : Reads x s) :
    ∃ k, s = .select (.key k) := by
  have hunique {t : Segment} (ht : readSegment x = .ok (t, [])) : s = t := by
    cases hs.1.symm.trans ht
    rfl
  obtain ⟨form, hform, hmatches⟩ := matches_oneOf.mp h
  simp only [keyForms, List.mem_cons, List.not_mem_nil, or_false] at hform
  rcases hform with rfl | rfl | rfl
  · obtain ⟨name, hname⟩ := dotted_reads hmatches
    exact ⟨_, hunique hname.1⟩
  · obtain ⟨name, hname⟩ := quoted_reads hmatches
    exact ⟨_, hunique hname.1⟩
  · rcases indexed_outcome hmatches with ⟨i, hi⟩ | ⟨-, hfails, -⟩
    · exact ⟨_, hunique hi.1⟩
    · have hwhole := hfails []
      rw [List.append_nil, hs.1] at hwhole
      cases hwhole

theorem keys_of_reads {segments : List Segment} (h : List.Forall₂ Reads pieces segments)
    (hkeys : ∀ x ∈ pieces, Matches (oneOf keyForms) x) : ∀ s ∈ segments, ∃ k, s = .select (.key k) := by
  induction h with
  | nil => simp
  | cons hs _ ih =>
    obtain ⟨hx, hrest⟩ := List.forall_mem_cons.mp hkeys
    exact List.forall_mem_cons.mpr ⟨key_of_reads hx hs, ih hrest⟩

/-- A path of the form of a reference path leads to a single place of the data. -/
theorem reference_of_form (hform : isReference text = true) (h : parse text = .ok p) :
    p.inContext = false ∧ p.isReferencePath = true := by
  obtain ⟨root, rest, htext, hroot, hrest⟩ := matches_seq.mp (accepts_iff.mp hform)
  obtain ⟨pieces, rfl, hkeys⟩ := matches_star.mp hrest
  have hpieces : ∀ x ∈ pieces, Matches (oneOf plainForms) x := fun x hx => plain_of_key (hkeys x hx)
  have htext : text.toList = dollars false ++ pieces.flatten := by
    rw [htext, matches_char.mp hroot]
    rfl
  have hdollar := not_dollar (opens_flatten fun x hx => piece_opens (hpieces x hx))
  rw [parse_of_body htext fun _ => hdollar] at h
  obtain ⟨segments, hsegments, h⟩ := bind_ok h
  obtain ⟨route, hroute, h⟩ := bind_ok h
  cases h
  rcases readSegments_pieces hpieces with ⟨segments', hread, hall⟩ | ⟨fault, hread, -⟩
  · cases hread.symm.trans (mapError_ok hsegments)
    obtain ⟨keys, hkeys⟩ := keys_of_forall (keys_of_reads hall hkeys)
    simp only [route?, hkeys] at hroute
    cases hroute
    exact ⟨rfl, rfl⟩
  · cases hread.symm.trans (mapError_ok hsegments)

/-- A text of the form of a path without conditions is read as one segment for each repetition of the
form, unless a numeral in it is no signed integer. A text of the form of a reference path is read as
no other path, so that it is never refused as the path of a result for not being one. -/
theorem forms_read :
    (∀ text, plainForm.accepts (body text.toList) = true → isValid text = true ∧
      (∃ pieces, Pieces text pieces) ∧ ∀ pieces, Pieces text pieces →
        (∃ inContext, text.toList = dollars inContext ++ pieces.flatten ∧
          parse text = parseBody text inContext pieces.flatten) ∧
        ((∃ segments, readSegments pieces.flatten = .ok segments ∧
            List.Forall₂ Reads pieces segments) ∨
          ∃ fault, readSegments pieces.flatten = .error fault ∧ ∃ x ∈ pieces, Fails x fault)) ∧
    ∀ text, isReference text = true →
      (∀ p, parse text = .ok p → p.isReferencePath = true ∧ p.inContext = false) ∧
        ∀ shown, ResultPath.compile (.path text) ≠ .error (.notReference shown) := by
  refine ⟨fun text h => ⟨valid_of_form h, pieces_of_form h, fun pieces hpieces => ?_⟩,
    fun text h => ⟨fun p hp => (reference_of_form h hp).symm, fun shown hcompile => ?_⟩⟩
  · exact ⟨hpieces.parse_eq, readSegments_pieces hpieces.formed⟩
  · rw [ResultPath.compile] at hcompile
    split at hcompile
    · cases hcompile
    · cases hp : parse text with
      | error e =>
        rw [hp] at hcompile
        cases hcompile
      | ok p =>
        obtain ⟨hinput, href⟩ := reference_of_form h hp
        simp only [hp, Except.mapError, bind, Except.bind, hinput, href] at hcompile
        cases hcompile

/-- A path with a bracket and a point in a name. -/
def nested : String := "$$['a].b'][7].*[-1:]"

def nestedPieces : List (List Char) :=
  ["['a].b']".toList, "[7]".toList, ".*".toList, "[-1:]".toList]

theorem nested_forms_read : plainForm.accepts (body nested.toList) = true ∧
    Pieces nested nestedPieces ∧
    List.Forall₂ Reads nestedPieces
      [.select (.key (.field "a].b")), .select (.key (.index 7)), .select .values,
        .select (.slice (some (-1)) none none)] ∧
    isReference "$['a].b'][7]" = true ∧
    ∀ shown, ResultPath.compile (.path "$['a].b'][7]") ≠ .error (.notReference shown) := by
  have hform : plainForm.accepts (body nested.toList) = true := by decide +kernel
  have hpieces : Pieces nested nestedPieces := by
    refine ⟨by decide +kernel, fun x hx => accepts_iff.mp ?_⟩
    have hall : nestedPieces.all (oneOf plainForms).accepts = true := by decide +kernel
    exact List.all_eq_true.mp hall x hx
  have hread : readSegments nestedPieces.flatten =
      .ok [.select (.key (.field "a].b")), .select (.key (.index 7)), .select .values,
        .select (.slice (some (-1)) none none)] := by cbv
  have href : isReference "$['a].b'][7]" = true := by decide +kernel
  obtain ⟨-, -, hreads⟩ := forms_read.1 nested hform
  obtain ⟨-, ⟨segments, hsegments, hall⟩ | ⟨fault, hfault, -⟩⟩ := hreads nestedPieces hpieces
  · cases hread.symm.trans hsegments
    exact ⟨hform, hpieces, hall, href, (forms_read.2 _ href).2⟩
  · cases hread.symm.trans hfault

end StatesLanguage.Path
