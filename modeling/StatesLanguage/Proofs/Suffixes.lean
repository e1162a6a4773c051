import Mathlib.Data.List.TakeWhile
import StatesLanguage.Path.Basic
import StatesLanguage.Proofs.Placements
import StatesLanguage.Proofs.Outcomes
import StatesLanguage.Proofs.Queries
import StatesLanguage.Proofs.Tokens

/-! What is read and selected behind a reference path. Its segments are read for themselves, and their
query goes on from the value that the keys lead to, or from null where they lead nowhere. -/
namespace StatesLanguage.Path

open Jmespath

variable {cs xs S rest before mark : List Char} {s : Segment} {segments : List Segment}

section

/-- A text that begins with a segment, whatever stands before it. -/
def Opens (S : List Char) : Prop := ∃ c rest, S = c :: rest ∧ endsName c = true

theorem splitAt_append_right (h : splitAt? mark cs = some (before, rest)) (S : List Char) :
    splitAt? mark (cs ++ S) = some (before, rest ++ S) ∧ mark.length ≤ cs.length := by
  induction cs generalizing before with
  | nil =>
    rw [splitAt?, Option.ite_none_right_eq_some] at h
    obtain ⟨hmark, hempty⟩ := h
    cases hempty
    have hmark : mark = [] := List.isEmpty_iff.mp hmark
    subst hmark
    cases S with
    | nil => exact ⟨rfl, Nat.le_refl _⟩
    | cons c S => simp [splitAt?]
  | cons c cs ih =>
    rw [splitAt?] at h
    rw [List.cons_append, splitAt?]
    split at h
    · rename_i hprefix
      cases h
      have hprefix := List.isPrefixOf_iff_prefix.mp hprefix
      have hlonger : mark <+: c :: (cs ++ S) := hprefix.trans (List.prefix_append (c :: cs) S)
      rw [if_pos (List.isPrefixOf_iff_prefix.mpr hlonger)]
      refine ⟨?_, hprefix.length_le⟩
      rw [← List.cons_append, List.drop_append_of_le_length hprefix.length_le]
    · rename_i hprefix
      obtain ⟨⟨b, r⟩, hb, heq⟩ := Option.map_eq_some_iff.mp h
      cases heq
      obtain ⟨hsplit, hlength⟩ := ih hb
      -- the mark is found further on, so that it ends before the text does
      have hlonger : ¬ mark <+: c :: (cs ++ S) := by
        intro hlonger
        refine hprefix (List.isPrefixOf_iff_prefix.mpr ?_)
        exact List.prefix_of_prefix_length_le hlonger (List.prefix_append (c :: cs) S)
          (Nat.le_succ_of_le hlength)
      rw [if_neg (fun h => hlonger (List.isPrefixOf_iff_prefix.mp h)), hsplit]
      exact ⟨rfl, Nat.le_succ_of_le hlength⟩

theorem Opens.span (h : Opens S) (cs : List Char) :
    (cs ++ S).takeWhile (fun c => !endsName c) = cs.takeWhile (fun c => !endsName c) ∧
      (cs ++ S).dropWhile (fun c => !endsName c) = cs.dropWhile (fun c => !endsName c) ++ S := by
  obtain ⟨c, rest, rfl, hc⟩ := h
  induction cs with
  | nil => simp [hc]
  | cons d cs ih =>
    cases hd : endsName d <;> simp [hd, ih]

/-- A segment is read alike whatever segment follows it. -/
theorem readSegment_append (h : readSegment cs = .ok (s, rest)) (hS : Opens S) :
    readSegment (cs ++ S) = .ok (s, rest ++ S) := by
  unfold readSegment at h
  split at h
  · cases h
    rfl
  · rename_i name hstar
    dsimp only at h
    split at h
    · cases h
    · rename_i hname
      cases h
      obtain ⟨htake, hdrop⟩ := hS.span name
      rw [List.cons_append, readSegment]
      · simp only [htake, hdrop, hname, Bool.false_eq_true, if_false]
      · intro after heq
        cases name with
        | nil => exact hname rfl
        | cons c name => exact hstar name (by rw [(List.cons.inj heq).1])
  · split at h
    · rename_i hsplit
      cases h
      rw [List.cons_append, List.cons_append, readSegment, (splitAt_append_right hsplit S).1]
    · cases h
  · split at h
    · rename_i hsplit
      cases h
      simp only [List.cons_append, readSegment, (splitAt_append_right hsplit S).1]
    · cases h
  · rename_i inner hquote hfilter
    split at h
    · rename_i hsplit
      obtain ⟨selector, hselector, heq⟩ := map_ok h
      cases heq
      rw [List.cons_append, readSegment]
      · rw [(splitAt_append_right hsplit S).1]
        simp only [hselector, Except.map]
      · intro after heq
        cases inner with
        | nil => cases hsplit
        | cons c inner => exact hquote inner (by rw [(List.cons.inj heq).1])
      · intro after heq
        match inner with
        | [] => cases hsplit
        | [c] =>
          rw [(List.cons.inj heq).1] at hsplit
          cases hsplit
        | c :: d :: inner =>
          obtain ⟨rfl, hrest⟩ := List.cons.inj heq
          exact hfilter inner (by rw [(List.cons.inj hrest).1])
    · cases h
  · cases h

/-- A name behind a point goes on to the end of the text if nothing in it ends it. -/
theorem readSegment_dotted (hne : cs ≠ []) (hstar : cs.head? ≠ some '*')
    (h : ∀ c ∈ cs, endsName c = false) :
    readSegment ('.' :: cs) = .ok (.select (.key (.field (String.ofList cs))), []) := by
  have hname : ∀ c ∈ cs, (!endsName c) = true := by simpa using h
  have htake : cs.takeWhile (fun c => !endsName c) = cs := List.takeWhile_eq_self_iff.mpr hname
  have hdrop : cs.dropWhile (fun c => !endsName c) = [] := List.dropWhile_eq_nil_iff.mpr hname
  rw [readSegment]
  · simp only [htake, hdrop, List.isEmpty_iff, hne, if_false]
  · rintro after rfl
    exact hstar rfl

/-- A text that is a single segment. -/
theorem readSegments_single {cs : List Char} {s : Segment} (hne : cs ≠ [])
    (h : readSegment cs = .ok (s, [])) : readSegments cs = .ok [s] := by
  rw [readSegments, if_neg (by simpa using hne)]
  split
  · rename_i hfault
    cases h.symm.trans hfault
  · rename_i hread
    cases h.symm.trans hread
    rw [readSegments]
    rfl

/-- Segments are read alike whatever segment follows them, which is read for itself. -/
theorem readSegments_append (h : readSegments cs = .ok segments) (hS : Opens S) :
    readSegments (cs ++ S) = (readSegments S).map (segments ++ ·) := by
  induction cs using readSegments.induct generalizing segments with
  | case1 cs hempty =>
    rw [readSegments, if_pos hempty] at h
    cases h
    rw [List.isEmpty_iff.mp hempty, List.nil_append]
    cases readSegments S <;> rfl
  | case2 cs hne e hs =>
    rw [readSegments, if_neg hne] at h
    split at h <;> simp_all
  | case3 cs hne s rest hs hlength ih =>
    rw [readSegments, if_neg hne] at h
    split at h
    · cases h
    · rename_i hread
      cases hs.symm.trans hread
      obtain ⟨after, hafter, rfl⟩ := map_ok h
      have hnext := readSegment_append hs hS
      have hne : ¬ (cs ++ S).isEmpty = true := by
        rw [List.isEmpty_iff] at hne ⊢
        exact fun heq => hne (List.append_eq_nil_iff.mp heq).1
      rw [readSegments, if_neg hne]
      split
      · rename_i hfault
        cases hnext.symm.trans hfault
      · rename_i hread
        cases hnext.symm.trans hread
        rw [ih hafter]
        cases readSegments S <;> rfl

/-- What is read as a segment begins one. -/
theorem opens_of_read (h : readSegment cs ≠ .error .character) : Opens cs := by
  unfold readSegment at h
  split at h
  · exact ⟨_, _, rfl, rfl⟩
  · exact ⟨_, _, rfl, rfl⟩
  · exact ⟨_, _, rfl, rfl⟩
  · exact ⟨_, _, rfl, rfl⟩
  · exact ⟨_, _, rfl, rfl⟩
  · exact (h rfl).elim

theorem opens_flatten {pieces : List (List Char)} (h : ∀ x ∈ pieces, Opens x) :
    pieces.flatten = [] ∨ Opens pieces.flatten := by
  cases pieces with
  | nil => exact .inl rfl
  | cons x pieces =>
    obtain ⟨c, cs, rfl, hc⟩ := h x List.mem_cons_self
    exact .inr ⟨c, cs ++ pieces.flatten, rfl, hc⟩

/-- A segment that is read whole comes before the segments behind it. -/
theorem readSegments_cons (h : readSegment cs = .ok (s, [])) (hS : S = [] ∨ Opens S) :
    readSegments (cs ++ S) = (readSegments S).map (s :: ·) := by
  obtain ⟨c, rest, rfl, -⟩ := opens_of_read (h ▸ nofun : readSegment cs ≠ .error .character)
  have hsingle : readSegments (c :: rest) = .ok [s] :=
    readSegments_single (List.cons_ne_nil _ _) h
  rcases hS with rfl | hS
  · rw [List.append_nil, hsingle, readSegments]
    rfl
  · exact readSegments_append hsingle hS

end

section

variable {d : Dialect} {k : Key} {keys : List Key} {sts : List Step} {segs : List Segment}
  {each : Value → Option Value} {v : Value}

/-- What a key is in the query language. -/
def Key.selector : Key → Jmespath.Selector
  | .field name => .field name
  | .index i => .index i

/-- A key that an implementation reads. -/
def Key.Read (d : Dialect) : Key → Prop
  | .field _ => True
  | .index i => d.reads i = true

theorem Key.read_of_unbounded (hd : d.Unbounded) (k : Key) : k.Read d := by
  cases k with
  | field name => trivial
  | index i => exact hd i

/-- A position is counted alike in paths and in the query language. -/
theorem element_eq (i : Int) (items : List Value) :
    element i (.arr items) = ((position? i items.length).bind fun n => items[n]?).getD .null := by
  by_cases hstart : 0 ≤ i
  · have hi : ¬ i < 0 := by omega
    simp only [element, if_pos hstart, position?, if_neg hi, List.getD_eq_getElem?_getD]
    split
    · rfl
    · rw [List.getElem?_eq_none (by omega)]
      rfl
  · have hi : i < 0 := by omega
    simp only [element, if_neg hstart, position?, if_pos hi, List.getD_eq_getElem?_getD]
    by_cases hlength : i.natAbs ≤ items.length
    · have hposition : (i + items.length).toNat = items.length - i.natAbs := by omega
      rw [if_pos hlength, if_pos (by omega), hposition]
      rfl
    · rw [if_neg hlength, if_neg (by omega)]
      rfl

/-- A key selects what it does in a path, or null where it leads nowhere. -/
theorem Key.follow_selector (k : Key) (v : Value) :
    k.selector.follow each v = each ((k.get? v).getD .null) := by
  cases k with
  | field name => cases v <;> rfl
  | index i =>
    cases v with
    | arr items => exact congrArg each (element_eq i items)
    | _ => rfl

/-- Keys as the steps of an expression. -/
def keySteps (keys : List Key) : List Step := keys.map fun k => .select k.selector

/-- An expression that begins with keys goes on from where they lead, and from null where they lead
nowhere. -/
theorem eval_keys (d : Dialect) (keys : List Key) (sts : List Step) (v : Value) :
    (Query.ofSteps (keySteps keys ++ sts)).eval d v =
      (Query.ofSteps sts).eval d ((getAt? keys v).getD .null) := by
  induction keys generalizing v with
  | nil => rfl
  | cons k keys ih =>
    have hfirst : Query.ofSteps (keySteps (k :: keys) ++ sts) =
        .select k.selector (.ofSteps (keySteps keys ++ sts)) := Query.ofSteps_select _ _
    rw [hfirst, Query.eval, Key.follow_selector, ih, getAt?]
    cases k.get? v with
    | some c => rfl
    | none =>
      have hmissing : (getAt? keys .null).getD .null = .null := by
        cases keys with
        | nil => rfl
        | cons k keys => cases k <;> rfl
      rw [Option.getD_none, hmissing, Option.bind_none, Option.getD_none]

/-- The texts of segments that stand behind others. -/
def onward (segs : List Segment) : Except Fault (List Char) :=
  pieces (fun filter => translateFilter filter.toList) false segs

/-- The steps of segments that stand behind others, if their text is read. -/
def stepsOf? (d : Dialect) (segs : List Segment) : Option (List Step) := do
  let cs ← (onward segs).toOption
  (readOn d cs).toOption

theorem onward_key (k : Key) (segs : List Segment) :
    onward (.select (.key k) :: segs) =
      (onward segs).map ((Selector.key k).translate false ++ ·) := rfl

theorem translate_position (first : Bool) (i : Int) (cs : List Char) :
    (Selector.key (.index i)).translate first ++ cs = '[' :: ((toString i).toList ++ ']' :: cs) := by
  simp [Selector.translate]

/-- A key is read as a selector of its own, whatever stands behind it. -/
theorem readOn_key (hk : k.Read d) (cs : List Char) :
    readOn d ((Selector.key k).translate false ++ cs) =
      (readOn d cs).map (.select k.selector :: ·) := by
  cases k with
  | field name => exact readOn_field d name cs
  | index i =>
    have hi : d.reads i = true := hk
    rw [translate_position, readOn_position, if_pos hi]
    rfl

theorem readOn_unread (hk : ¬ k.Read d) (cs : List Char) :
    ∃ e, readOn d ((Selector.key k).translate false ++ cs) = .error e := by
  cases k with
  | field name => exact (hk trivial).elim
  | index i =>
    have hi : ¬ d.reads i = true := hk
    exact ⟨.number i, by rw [translate_position, readOn_position, if_neg hi]⟩

theorem stepsOf?_key (hk : k.Read d) (segs : List Segment) :
    stepsOf? d (.select (.key k) :: segs) = (stepsOf? d segs).map (.select k.selector :: ·) := by
  rw [stepsOf?, onward_key, stepsOf?]
  cases onward segs with
  | error fault => rfl
  | ok cs =>
    simp only [Except.map, Except.toOption, Option.bind_eq_bind, Option.bind_some, readOn_key hk]
    cases readOn d cs <;> rfl

theorem stepsOf?_unread (hk : ¬ k.Read d) (segs : List Segment) :
    stepsOf? d (.select (.key k) :: segs) = none := by
  rw [stepsOf?, onward_key]
  cases onward segs with
  | error fault => rfl
  | ok cs =>
    obtain ⟨e, he⟩ := readOn_unread hk cs
    simp only [Except.map, Except.toOption, Option.bind_eq_bind, Option.bind_some, he]

/-- Keys come before the steps of what stands behind them, if all of them are read. -/
theorem stepsOf?_keys (h : ∀ k ∈ keys, k.Read d) (segs : List Segment) :
    stepsOf? d ((keys.map fun k => .select (.key k)) ++ segs) =
      (stepsOf? d segs).map (keySteps keys ++ ·) := by
  induction keys with
  | nil => simp [keySteps]
  | cons k keys ih =>
    obtain ⟨hk, hrest⟩ := List.forall_mem_cons.mp h
    rw [List.map_cons, List.cons_append, stepsOf?_key hk, ih hrest, Option.map_map]
    rfl

theorem stepsOf?_keys_unread (h : ¬ ∀ k ∈ keys, k.Read d) (segs : List Segment) :
    stepsOf? d ((keys.map fun k => .select (.key k)) ++ segs) = none := by
  induction keys with
  | nil => exact (h (by simp)).elim
  | cons k keys ih =>
    rw [List.map_cons, List.cons_append]
    by_cases hk : k.Read d
    · rw [stepsOf?_key hk, ih fun hrest => h (List.forall_mem_cons.mpr ⟨hk, hrest⟩)]
      rfl
    · exact stepsOf?_unread hk _

theorem translate_name (name : String) :
    (Selector.key (.field name)).translate true = (quoted name).toList := by
  simp [Selector.translate]

/-- What a selector is at the start of an expression is read like what it is behind others. -/
theorem compile_selector (d : Dialect) (s : Selector) (rest : List Char) :
    compile d (s.translate true ++ rest) =
      (readOn d (s.translate false ++ rest)).map .ofSteps := by
  cases s with
  | key k =>
    cases k with
    | field name =>
      rw [translate_name]
      exact compile_name d name rest
    | index i => exact compile_bracket d _
  | items => exact compile_bracket d _
  | values => exact compile_star d _
  | slice start stop step => exact compile_bracket d _

theorem translate_ne_nil (s : Selector) (rest : List Char) :
    (s.translate true ++ rest).isEmpty = false := by
  cases s with
  | key k =>
    cases k with
    | field name =>
      rw [translate_name, toList_quoted]
      rfl
    | index i => rfl
  | _ => rfl

/-- The expression of segments consists of the steps that they are behind others. -/
theorem compile_translate (d : Dialect) (hne : segs ≠ []) :
    ((translate (fun filter => translateFilter filter.toList) segs).toOption.bind fun cs =>
      (compile d cs).toOption) = (stepsOf? d segs).map .ofSteps := by
  obtain ⟨s, rest, rfl⟩ := List.exists_cons_of_ne_nil hne
  unfold stepsOf? onward translate
  cases s with
  | select s =>
    simp only [pieces]
    cases pieces (fun filter => translateFilter filter.toList) false rest with
    | error fault => rfl
    | ok cs =>
      simp only [Except.map, Except.toOption, Option.bind_eq_bind, Option.bind_some,
        translate_ne_nil, Bool.false_eq_true, if_false, compile_selector]
      cases readOn d (s.translate false ++ cs) <;> rfl
  | filter text =>
    simp only [pieces]
    cases translateFilter text.toList with
    | error fault => rfl
    | ok inner =>
      cases pieces (fun filter => translateFilter filter.toList) false rest with
      | error fault => rfl
      | ok cs =>
        have hbracket := compile_bracket d ('?' :: inner ++ ']' :: cs)
        change (compile d ('[' :: ('?' :: inner ++ ']' :: cs))).toOption = _
        rw [hbracket]
        change _ = ((readOn d ('[' :: ('?' :: inner ++ ']' :: cs))).toOption).map _
        cases readOn d ('[' :: ('?' :: inner ++ ']' :: cs)) <;> rfl

/-- A path that is no reference path is followed by the steps of its segments, if they are read. -/
theorem route?_mixed (d : Dialect) (text : String) (hkeys : keys? segs = none) :
    (route? text segs d).toOption =
      (stepsOf? d segs).map fun sts => .query d (.ofSteps sts) := by
  have hne : segs ≠ [] := by
    rintro rfl
    cases hkeys
  have hcompile := congrArg (Option.map (Route.query d)) (compile_translate d hne)
  rw [Option.map_map] at hcompile
  simp only [route?, hkeys]
  refine Eq.trans ?_ hcompile
  cases translate (fun filter => translateFilter filter.toList) segs with
  | error fault => rfl
  | ok cs =>
    change ((compile d cs).mapError (ParseError.unsupported text) >>= fun q =>
      .ok (Route.query d q)).toOption = Option.map (Route.query d) (compile d cs).toOption
    cases compile d cs <;> rfl

end

section

variable {P S : String} {p q r : Path} {segments : List Segment} {keys : List Key}
  {sts : List Step} {input context u v : Value} {text : String} {body : List Char} {q' : Query}
  {d : Dialect}

/-- How a path starts: with two dollar signs where it leads into the context object. -/
def dollars : Bool → List Char
  | true => ['$', '$']
  | false => ['$']

/-- No segment begins with a dollar sign. -/
theorem not_dollar {cs : List Char} (h : cs = [] ∨ Opens cs) (after : List Char) :
    cs ≠ '$' :: after := by
  rcases h with rfl | ⟨c, rest, rfl, hc⟩
  · exact (List.cons_ne_nil _ _).symm
  · rintro heq
    rw [(List.cons.inj heq).1] at hc
    exact absurd hc (by decide)

/-- The path of a text whose start has been taken off. -/
def parseBody (text : String) (inContext : Bool) (body : List Char) (d : Dialect := .narrow) :
    Except ParseError Path := do
  let segments ← (readSegments body).mapError (.malformed text)
  let route ← route? text segments d
  return { text, inContext, segments, route }

theorem parse_of_body {inContext : Bool} (htext : text.toList = dollars inContext ++ body)
    (hroot : inContext = false → ∀ after, body ≠ '$' :: after) :
    parse text d = parseBody text inContext body d := by
  cases inContext with
  | true =>
    have htext : text.toList = '$' :: '$' :: body := htext
    simp only [parse, htext]
    rfl
  | false =>
    have htext : text.toList = '$' :: body := htext
    rw [parse, htext]
    split
    · rename_i heq
      exact (hroot rfl _ (List.cons.inj heq).2).elim
    · rename_i heq
      rw [(List.cons.inj heq).2]
      rfl
    · rename_i hnone
      exact (hnone body rfl).elim

theorem parse_ok (h : parse text d = .ok p) : ∃ body, text.toList = dollars p.inContext ++ body ∧
    (p.inContext = false → ∀ after, body ≠ '$' :: after) ∧ readSegments body = .ok p.segments ∧
    route? text p.segments d = .ok p.route := by
  have hbody {inContext : Bool} {body : List Char} (h : parseBody text inContext body d = .ok p) :
      p.inContext = inContext ∧ readSegments body = .ok p.segments ∧
        route? text p.segments d = .ok p.route := by
    obtain ⟨segments, hsegments, h⟩ := bind_ok h
    obtain ⟨route, hroute, h⟩ := bind_ok h
    cases h
    exact ⟨rfl, mapError_ok hsegments, hroute⟩
  rw [parse] at h
  split at h
  · rename_i body htext
    obtain ⟨hroot, hread⟩ := hbody h
    exact ⟨body, by rw [hroot, htext]; rfl, by simp [hroot], hread⟩
  · rename_i body hother htext
    obtain ⟨hroot, hread⟩ := hbody h
    refine ⟨body, by rw [hroot, htext]; rfl, fun _ after heq => ?_, hread⟩
    exact hother after heq
  · cases h

/-- The steps of a text that stands behind a path. -/
def textSteps? (d : Dialect) (cs : List Char) : Option (List Step) := do
  let segments ← (readSegments cs).toOption
  stepsOf? d segments

/-- The text behind a reference path from which on more than one place is selected: it begins a
segment, one of its segments is not a key, and none of its slices has the step zero. -/
structure Suffix (S : String) (d : Dialect := .narrow) : Prop where
  opens : Opens S.toList
  projects : ∀ segments, readSegments S.toList = .ok segments →
    ∃ s ∈ segments, ∀ k, s ≠ .select (.key k)
  moves : ∀ sts, textSteps? d S.toList = some sts → ∀ st ∈ sts, st.Moves

theorem Suffix.of_read (hopens : Opens S.toList) (hread : readSegments S.toList = .ok segments)
    (hsteps : stepsOf? d segments = some sts) (hprojects : ∃ s ∈ segments, ∀ k, s ≠ .select (.key k))
    (hmoves : ∀ st ∈ sts, st.Moves) : Suffix S d := by
  refine ⟨hopens, fun segments h => ?_, fun sts h => ?_⟩
  · cases hread.symm.trans h
    exact hprojects
  · rw [textSteps?, hread] at h
    cases hsteps.symm.trans h
    exact hmoves

theorem segments_of_keys (h : keys? segments = some keys) :
    segments = keys.map fun k => .select (.key k) := by
  induction segments generalizing keys with
  | nil =>
    cases h
    rfl
  | cons s rest ih =>
    unfold keys? at h ih
    rw [List.mapM_cons] at h
    obtain ⟨k, hk, h⟩ := Option.bind_eq_some_iff.mp h
    obtain ⟨ks, hks, h⟩ := Option.bind_eq_some_iff.mp h
    cases h
    split at hk
    · cases hk
      rw [ih hks, List.map_cons]
    · cases hk

theorem keys?_map (keys : List Key) : keys? (keys.map fun k => .select (.key k)) = some keys := by
  induction keys with
  | nil => rfl
  | cons k rest ih =>
    unfold keys? at ih ⊢
    rw [List.map_cons, List.mapM_cons, ih]
    rfl

theorem keys_of_mixed (h : ∃ s ∈ segments, ∀ k, s ≠ .select (.key k)) : keys? segments = none := by
  obtain ⟨s, hs, hkey⟩ := h
  cases hkeys : keys? segments with
  | none => rfl
  | some keys =>
    rw [segments_of_keys hkeys] at hs
    obtain ⟨k, -, hk⟩ := List.mem_map.mp hs
    exact (hkey k hk.symm).elim

/-- A path that goes on behind a reference path is read where its suffix is and the positions of the
reference path are. -/
theorem parse_suffix (hp : parse P d = .ok p) (hkeys : keys? p.segments = some keys)
    (hS : Suffix S d) :
    (∃ sts q, (∀ k ∈ keys, k.Read d) ∧ textSteps? d S.toList = some sts ∧
      parse (P ++ S) d = .ok q ∧ q.inContext = p.inContext ∧
      q.route = .query d (.ofSteps (keySteps keys ++ sts))) ∨
    (((∀ k ∈ keys, k.Read d) → textSteps? d S.toList = none) ∧ ∃ e, parse (P ++ S) d = .error e) := by
  obtain ⟨body, htext, hroot, hread, -⟩ := parse_ok hp
  have hwhole : parse (P ++ S) d = parseBody (P ++ S) p.inContext (body ++ S.toList) d := by
    refine parse_of_body (by rw [String.toList_append, htext, List.append_assoc]) ?_
    intro hfalse after heq
    cases body with
    | cons c body => exact hroot hfalse _ (by rw [(List.cons.inj heq).1])
    | nil =>
      obtain ⟨c, rest, hc, hends⟩ := hS.opens
      rw [List.nil_append, hc] at heq
      rw [(List.cons.inj heq).1] at hends
      cases hends
  rw [hwhole, parseBody, readSegments_append hread hS.opens]
  unfold textSteps?
  cases hsegments : readSegments S.toList with
  | error fault => exact .inr ⟨fun _ => rfl, _, rfl⟩
  | ok segments =>
    have hmixed : keys? (p.segments ++ segments) = none := by
      obtain ⟨s, hs, hkey⟩ := hS.projects segments hsegments
      exact keys_of_mixed ⟨s, List.mem_append_right _ hs, hkey⟩
    have hroute := route?_mixed d (P ++ S) hmixed
    rw [segments_of_keys hkeys] at hroute
    simp only [Except.map, Except.mapError, Except.toOption, Option.bind_some, bind, Except.bind,
      segments_of_keys hkeys]
    by_cases hall : ∀ k ∈ keys, k.Read d
    · rw [stepsOf?_keys hall] at hroute
      cases hsteps : stepsOf? d segments with
      | none =>
        rw [hsteps] at hroute
        obtain ⟨e, he⟩ := toOption_eq_none hroute
        exact .inr ⟨fun _ => rfl, e, by rw [he]⟩
      | some sts =>
        rw [hsteps] at hroute
        rw [toOption_eq_some hroute]
        exact .inl ⟨sts, ⟨P ++ S, p.inContext, _, _⟩, hall, rfl, rfl, rfl, rfl⟩
    · rw [stepsOf?_keys_unread hall] at hroute
      obtain ⟨e, he⟩ := toOption_eq_none hroute
      exact .inr ⟨fun h => (hall h).elim, e, by rw [he]⟩

/-- The document that a path starts from. -/
def root (p : Path) (input context : Value) : Value := if p.inContext then context else input

theorem evaluate_of_query (h : p.route = .query d q')
    (hv : q'.eval d (p.root input context) = some v) :
    p.evaluate input context = .ok (sorted v) := by
  unfold evaluate
  rw [h]
  simp only [root] at hv
  simp only [hv]

/-- A reference path has keys, and what it selects is what they lead to. -/
theorem keys_of_reference (hp : parse P d = .ok p) (href : p.isReferencePath = true) :
    ∃ keys, keys? p.segments = some keys ∧ ∀ input context, p.evaluate input context =
      match getAt? keys (p.root input context) with
      | some v => .ok v
      | none => .error (.unresolved p.text) := by
  obtain ⟨body, -, -, -, hroute⟩ := parse_ok hp
  cases hkeys : keys? p.segments with
  | some keys =>
    simp only [route?, hkeys, Except.ok.injEq] at hroute
    refine ⟨keys, rfl, fun input context => ?_⟩
    unfold evaluate
    rw [← hroute]
    rfl
  | none =>
    have hmixed := route?_mixed d P hkeys
    rw [hroute] at hmixed
    obtain ⟨sts, -, hquery⟩ := Option.map_eq_some_iff.mp hmixed.symm
    rw [isReferencePath, ← hquery] at href
    cases href

/-- A path that goes on behind a reference path selects what the rest selects from the value that the
keys lead to, or from null where they lead nowhere. -/
theorem evaluate_of_suffix (hroot : q.inContext = p.inContext)
    (hroute : q.route = .query d (.ofSteps (keySteps keys ++ sts)))
    (hv : (Query.ofSteps sts).eval d ((getAt? keys (p.root input context)).getD .null) = some v) :
    q.evaluate input context = .ok (sorted v) := by
  refine evaluate_of_query hroute ?_
  rw [root, hroot, eval_keys]
  exact hv

/-- A path that goes on behind a reference path selects what the rest of it, put behind a dollar sign
of its own, selects from the value that the reference path leads to; or neither of the two can be
read. The positions of the reference path must be read. -/
theorem evaluate_suffix_of_read (hread : ∀ k, .select (.key k) ∈ p.segments → k.Read d)
    (hp : parse P d = .ok p) (href : p.isReferencePath = true) (hS : Suffix S d)
    (hu : p.evaluate input context = .ok u) :
    (∃ q r v, parse (P ++ S) d = .ok q ∧ parse ("$" ++ S) d = .ok r ∧
      q.evaluate input context = .ok v ∧ ∀ context, r.evaluate u context = .ok v) ∨
    ∃ e e', parse (P ++ S) d = .error e ∧ parse ("$" ++ S) d = .error e' := by
  obtain ⟨keys, hkeys, hevaluate⟩ := keys_of_reference hp href
  have hplace : getAt? keys (p.root input context) = some u := by
    rw [hevaluate] at hu
    split at hu
    · rename_i v hv
      rw [hv, Except.ok.inj hu]
    · cases hu
  have hdollar : parse "$" d = .ok ⟨"$", false, [], .reference []⟩ := by cbv
  have hread : ∀ k ∈ keys, k.Read d := by
    intro k hk
    refine hread k ?_
    rw [segments_of_keys hkeys]
    exact List.mem_map_of_mem hk
  obtain ⟨sts, q, -, hsts, hq, hroot, hroute⟩ | ⟨hnone, e, he⟩ := parse_suffix hp hkeys hS
  · obtain ⟨sts', r, -, hsts', hr, hrroot, hrroute⟩ | ⟨hnone, -⟩ := parse_suffix hdollar rfl hS
    · cases hsts.symm.trans hsts'
      obtain ⟨v, hv⟩ := Query.eval_total (d := d) (Query.ofSteps_moves (hS.moves sts hsts)) u
      refine .inl ⟨q, r, sorted v, hq, hr, ?_, fun context => ?_⟩
      · exact evaluate_of_suffix hroot hroute (by rw [hplace]; exact hv)
      · exact evaluate_of_suffix hrroot hrroute hv
    · cases hsts.symm.trans (hnone (by simp))
  · obtain ⟨sts', r, -, hsts', -⟩ | ⟨-, e', he'⟩ := parse_suffix hdollar rfl hS
    · cases hsts'.symm.trans (hnone hread)
    · exact .inr ⟨e, e', he, he'⟩

/-- So it is for the implementation that paths are followed with, as long as no position of the
reference path takes more than 32 bits. -/
theorem evaluate_suffix_narrow
    (hfits : ∀ i, .select (.key (.index i)) ∈ p.segments → i.natAbs ≤ 2147483647)
    (hp : parse P = .ok p) (href : p.isReferencePath = true) (hS : Suffix S)
    (hu : p.evaluate input context = .ok u) :
    (∃ q r v, parse (P ++ S) = .ok q ∧ parse ("$" ++ S) = .ok r ∧
      q.evaluate input context = .ok v ∧ ∀ context, r.evaluate u context = .ok v) ∨
    ∃ e e', parse (P ++ S) = .error e ∧ parse ("$" ++ S) = .error e' := by
  refine evaluate_suffix_of_read (fun k hk => ?_) hp href hS hu
  cases k with
  | field name => trivial
  | index i => exact decide_eq_true (hfits i hk)

/-- And so it is for every reference path, by an implementation that reads positions of any size as
the language has them. -/
theorem evaluate_suffix (hd : d.Unbounded) (hp : parse P d = .ok p)
    (href : p.isReferencePath = true) (hS : Suffix S d) (hu : p.evaluate input context = .ok u) :
    (∃ q r v, parse (P ++ S) d = .ok q ∧ parse ("$" ++ S) d = .ok r ∧
      q.evaluate input context = .ok v ∧ ∀ context, r.evaluate u context = .ok v) ∨
    ∃ e e', parse (P ++ S) d = .error e ∧ parse ("$" ++ S) d = .error e' := by
  have hread : ∀ k, .select (.key k) ∈ p.segments → k.Read d :=
    fun k _ => Key.read_of_unbounded hd k
  exact evaluate_suffix_of_read hread hp href hS hu

/-- A path to the last of some lists, and such lists. -/
def lastList : Path :=
  ⟨"$['lists'][-1]", false, [.select (.key (.field "lists")), .select (.key (.index (-1)))],
    .reference [.field "lists", .index (-1)]⟩

def lists : Value := .obj [("lists", .arr [.null, .arr [.int 5, .obj [("n", .int 7)], .int 6]])]

theorem slice_suffix : Suffix "[1:].n" .ideal := by
  have hread : readSegments "[1:].n".toList =
      .ok [.select (.slice (some 1) none none), .select (.key (.field "n"))] := by cbv
  have hsteps : stepsOf? .ideal [.select (.slice (some 1) none none), .select (.key (.field "n"))] =
      some [.select (.slice (some 1) none none), .select (.field "n")] := by cbv
  exact .of_read ⟨_, _, rfl, rfl⟩ hread hsteps ⟨_, List.mem_cons_self, by rintro k ⟨⟩⟩
    (by simp [Step.Moves, Selector.Moves])

/-- A part of the last list, selected at once and from the list. -/
theorem lastList_suffix : Dialect.ideal.Unbounded ∧
    parse "$['lists'][-1]" .ideal = .ok lastList ∧
    lastList.evaluate lists .null = .ok (.arr [.int 5, .obj [("n", .int 7)], .int 6]) ∧
    ∃ q r v, parse "$['lists'][-1][1:].n" .ideal = .ok q ∧ parse "$[1:].n" .ideal = .ok r ∧
      q.evaluate lists .null = .ok v ∧
      r.evaluate (.arr [.int 5, .obj [("n", .int 7)], .int 6]) .null = .ok v := by
  have hd : Dialect.ideal.Unbounded := fun _ => rfl
  have hp : parse "$['lists'][-1]" .ideal = .ok lastList := by cbv
  have hu : lastList.evaluate lists .null = .ok (.arr [.int 5, .obj [("n", .int 7)], .int 6]) := rfl
  have hr : ∃ r, parse "$[1:].n" .ideal = .ok r := ⟨_, by cbv⟩
  refine ⟨hd, hp, hu, ?_⟩
  obtain ⟨q, r, v, hq, hr, hqv, hrv⟩ | ⟨e, e', -, he⟩ := evaluate_suffix hd hp rfl slice_suffix hu
  · exact ⟨q, r, v, hq, hr, hqv, hrv .null⟩
  · obtain ⟨r, hr⟩ := hr
    cases hr.symm.trans he

/-- A path that goes on behind a reference path that leads nowhere selects null. -/
theorem evaluate_suffix_unresolved {e : PathError} (hp : parse P = .ok p)
    (href : p.isReferencePath = true) (hS : Suffix S) (hd : p.evaluate input context = .error e)
    (hq : parse (P ++ S) = .ok q) : q.evaluate input context = .ok .null := by
  obtain ⟨keys, hkeys, hevaluate⟩ := keys_of_reference hp href
  have hplace : getAt? keys (p.root input context) = none := by
    rw [hevaluate] at hd
    split at hd
    · cases hd
    · assumption
  obtain ⟨sts, q', -, hsts, hq', hroot, hroute⟩ | ⟨-, e, he⟩ := parse_suffix hp hkeys hS
  · cases hq.symm.trans hq'
    refine evaluate_of_suffix (v := .null) hroot hroute ?_
    rw [hplace]
    exact Query.eval_null (Query.ofSteps_moves (hS.moves sts hsts))
  · cases hq.symm.trans he

def missing : Path :=
  ⟨"$.missing", false, [.select (.key (.field "missing"))], .reference [.field "missing"]⟩

theorem star_suffix : Suffix "[*]" := by
  have hread : readSegments "[*]".toList = .ok [.select .items] := by cbv
  have hsteps : stepsOf? .narrow [.select .items] = some [.select .items] := by cbv
  exact .of_read ⟨_, _, rfl, rfl⟩ hread hsteps ⟨_, List.mem_cons_self, by rintro k ⟨⟩⟩
    (by simp [Step.Moves, Selector.Moves])

/-- What is not there is no failure any more when a star stands behind it. -/
theorem missing_suffix : parse "$.missing" = .ok missing ∧ missing.isReferencePath = true ∧
    missing.evaluate (.obj []) .null = .error (.unresolved "$.missing") ∧
    ∃ q, parse "$.missing[*]" = .ok q ∧ q.evaluate (.obj []) .null = .ok .null := by
  have hp : parse "$.missing" = .ok missing := by cbv
  have hd : missing.evaluate (.obj []) .null = .error (.unresolved "$.missing") := rfl
  have hq : parse "$.missing[*]" = .ok ⟨"$.missing[*]", false,
      [.select (.key (.field "missing")), .select .items],
      .query .narrow (.select (.field "missing") (.select .items .here))⟩ := by cbv
  exact ⟨hp, rfl, hd, _, hq, evaluate_suffix_unresolved hp rfl star_suffix hd hq⟩

end

end StatesLanguage.Path
