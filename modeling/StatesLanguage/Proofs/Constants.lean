import StatesLanguage.Machine.Compile
import StatesLanguage.Proofs.Calls
import StatesLanguage.Proofs.Placements
import StatesLanguage.Proofs.Reencoding

/-! Pass states that are given their result. What a document gives as the result is what the state
completes with, or what its output holds at the place of the result, unless it is null: a null
result is as good as none. -/
namespace StatesLanguage

namespace Document

open Decoder

section

variable {α β : Type} {decode : Decoder β} {read : FieldReader α} {get : α → β} {r r' : α}
  {key : String} {v : Value} {before after entries : List (String × Value)}

theorem readEntries_append (before after : List (String × Value)) :
    readEntries read r (before ++ after) =
      readEntries read r before >>= fun r => readEntries read r after :=
  List.foldlM_append

/-- A field that is not given stays as it was. -/
theorem readEntries_absent (get : α → β)
    (hother : ∀ {k v r r'}, k ≠ key → read k v r = .ok r' → get r' = get r)
    (hkey : ∀ e ∈ entries, e.1 ≠ key) (h : readEntries read r entries = .ok r') :
    get r' = get r :=
  readEntries_keeps (P := fun x => get x = get r) h rfl fun e he _ _ hr hread =>
    (hother (hkey e he) hread).trans hr

/-- The entries around that of a key that is given once. -/
theorem split_at_key (hkeys : (entries.map Prod.fst).Nodup) (hv : entries.lookup key = some v) :
    ∃ before after, entries = before ++ (key, v) :: after ∧ (∀ e ∈ before, e.1 ≠ key) ∧
      ∀ e ∈ after, e.1 ≠ key := by
  obtain ⟨before, after, rfl, hbefore⟩ := List.lookup_eq_some_iff.mp hv
  rw [List.map_append, List.map_cons, List.nodup_append] at hkeys
  refine ⟨before, after, rfl, fun e he => ?_, fun e he => ?_⟩
  · exact (bne_iff_ne.mp (hbefore e he)).symm
  · rintro rfl
    exact (List.nodup_cons.mp hkeys.2.1).1 (List.mem_map.mpr ⟨e, he, rfl⟩)

theorem keys_ne_of_lookup (h : entries.lookup key = none) : ∀ e ∈ entries, e.1 ≠ key :=
  fun e he => (bne_iff_ne.mp (List.lookup_eq_none_iff.mp h e he)).symm

/-- A field that is given is as it has been read. -/
theorem readEntries_given
    (hfield : ∀ {v r r'}, read key v r = .ok r' → decode v = .ok (get r'))
    (hother : ∀ {k v r r'}, k ≠ key → read k v r = .ok r' → get r' = get r)
    (hkeys : (entries.map Prod.fst).Nodup) (hv : entries.lookup key = some v)
    (h : readEntries read r entries = .ok r') : decode v = .ok (get r') := by
  obtain ⟨before, after, rfl, -, hafter⟩ := split_at_key hkeys hv
  rw [readEntries_append] at h
  obtain ⟨r₁, -, h⟩ := bind_ok h
  rw [readEntries_cons] at h
  obtain ⟨r₂, hread, h⟩ := bind_ok h
  rw [readEntries_absent get hother hafter h]
  exact hfield hread

end

namespace Pass

variable {k key : String} {v : Value} {s s' : Pass}

theorem read_result (h : Pass.read "Result" v s = .ok s') : optional any v = .ok s'.result := by
  obtain ⟨o, ho, heq⟩ := bind_ok h
  cases heq
  exact ho

theorem read_resultPath (h : Pass.read "ResultPath" v s = .ok s') :
    path v = .ok s'.resultPath := by
  obtain ⟨o, ho, heq⟩ := bind_ok h
  cases heq
  exact ho

theorem read_other (h : Pass.read k v s = .ok s') :
    (k ≠ "Result" → s'.result = s.result) ∧ (k ≠ "ResultPath" → s'.resultPath = s.resultPath) ∧
      (k ≠ "OutputPath" → s'.paths.output = s.paths.output) := by
  unfold Pass.read at h
  split at h
  case h_9 =>
    cases h
    exact ⟨fun _ => rfl, fun _ => rfl, fun _ => rfl⟩
  all_goals
    obtain ⟨o, -, heq⟩ := bind_ok h
    cases heq
    simp

end Pass

section

variable {name : String} {v : Value} {entries : List (String × Value)} {s : Pass}

theorem State.decode_pass : State.decode name (.obj entries) = .ok (.pass s) ↔
    kindOf name (.obj entries) = .ok .pass ∧ readEntries Pass.read {} entries = .ok s := by
  rw [State.decode_obj]
  constructor
  · intro h
    obtain ⟨kind, hkind, h⟩ := bind_ok h
    have hread := mapError_ok h
    cases kind <;> obtain ⟨s', hs', heq⟩ := map_ok hread <;> cases heq
    exact ⟨hkind, hs'⟩
  · rintro ⟨hkind, hread⟩
    rw [hkind]
    exact congrArg (fun x => Except.mapError (DecodeError.within name) (Except.map State.pass x))
      hread

/-- A null result is passed over. -/
theorem State.decode_without_result (hkeys : (entries.map Prod.fst).Nodup)
    (hnull : entries.lookup "Result" = some .null)
    (h : State.decode name (.obj entries) = .ok (.pass s)) :
    State.decode name (.obj (entries.filter fun e => e.1 != "Result")) = .ok (.pass s) := by
  obtain ⟨hkind, hread⟩ := decode_pass.mp h
  obtain ⟨before, after, rfl, hbefore, hafter⟩ := split_at_key hkeys hnull
  have hrest : (before ++ ("Result", Value.null) :: after).filter (fun e => e.1 != "Result") =
      before ++ after := by
    rw [List.filter_append, List.filter_cons_of_neg (by simp),
      List.filter_eq_self.mpr fun e he => bne_iff_ne.mpr (hbefore e he),
      List.filter_eq_self.mpr fun e he => bne_iff_ne.mpr (hafter e he)]
  rw [hrest]
  refine decode_pass.mpr ⟨?_, ?_⟩
  · have htype : (before ++ after).lookup "Type" =
        (before ++ ("Result", Value.null) :: after).lookup "Type" := by
      rw [List.lookup_append, List.lookup_append, List.lookup_cons]
      rfl
    simpa only [kindOf, Value.field?, htype] using hkind
  · rw [readEntries_append] at hread ⊢
    obtain ⟨s₁, hs₁, hread⟩ := bind_ok hread
    -- nothing has been read as the result so far, and null leaves it so
    have hnone : s₁.result = none :=
      readEntries_absent Pass.result (fun hk h => (Pass.read_other h).1 hk) hbefore hs₁
    have hsame : { s₁ with result := none } = s₁ := by rw [← hnone]
    have hnull : Pass.read "Result" .null s₁ = .ok s₁ := congrArg Except.ok hsame
    rw [readEntries_cons, hnull] at hread
    rw [hs₁]
    exact hread

end

end Document

section

variable {f : DataFlow} {paths : Document.Paths} {parameters selector : Option Value}
  {resultPath : Document.PathField}

theorem DataFlow.of_compile
    (h : DataFlow.compile paths parameters selector resultPath = .ok f) :
    compileTemplate? selector = .ok f.resultSelector ∧
      ResultPath.compile resultPath = .ok f.resultPath ∧
      FilterPath.compile paths.output = .ok f.outputPath := by
  obtain ⟨_, -, h⟩ := bind_ok h
  obtain ⟨_, -, h⟩ := bind_ok h
  obtain ⟨_, hselector, h⟩ := bind_ok h
  obtain ⟨_, hresult, h⟩ := bind_ok h
  obtain ⟨_, houtput, h⟩ := bind_ok h
  cases h
  exact ⟨hselector, hresult, houtput⟩

/-- Where the path of a field can set a result, the result path puts it there too, and the path then
leads to it. -/
theorem ResultPath.apply_compiled {text : String} {result : ResultPath} {q : Path}
    {d d' v : Value} (h : ResultPath.compile (.path text) = .ok result)
    (hq : Path.parse text = .ok q) (hset : q.set d v = .ok d') (context : Value) :
    result.apply d v = .ok d' ∧ q.evaluate d' context = .ok v := by
  have hreference : ∃ ks, q.inContext = false ∧ q.route = .reference ks := by
    unfold Path.set at hset
    split at hset
    · rename_i ks hroot hroute
      exact ⟨ks, hroot, hroute⟩
    · cases hset
  obtain ⟨ks, hroot, hroute⟩ := hreference
  have hget : q.evaluate d' context = .ok v :=
    (Path.evaluate_ok_iff hroot hroute).mpr
      (Path.getAt?_setAt ((Path.set_of_route hroot hroute).symm.trans hset))
  refine ⟨?_, hget⟩
  rw [ResultPath.compile] at h
  split at h
  · rename_i hdollar
    subst hdollar
    have hwhole : Path.parse "$" = .ok ⟨"$", false, [], .reference []⟩ := by cbv
    cases hwhole.symm.trans hq
    cases h
    cases hset
    rfl
  · obtain ⟨q', hq', h⟩ := bind_ok h
    cases hq.symm.trans (mapError_ok hq')
    split at h
    · cases h
    · cases h
      exact congrArg (Except.mapError _) hset

end

namespace Machine

section

variable {name : String} {v : Value} {entries : List (String × Value)} {s : Document.Pass}
  {p : Pass}

theorem Pass.of_compile (h : Pass.compile s = .ok p) :
    p.result = s.result ∧
      DataFlow.compile s.paths s.parameters none s.resultPath = .ok p.flow := by
  obtain ⟨f, hf, h⟩ := bind_ok h
  cases h
  exact ⟨rfl, mapError_ok hf⟩

/-- Only the result path stands between a result and an output that is not narrowed. -/
theorem Pass.advance_result (hresult : p.result = some v)
    (hselector : p.flow.resultSelector = none) (houtput : p.flow.outputPath = .whole)
    (m : Moment) (data context : Value) :
    p.advance m data context =
      (p.flow.resultPath.apply data v).map fun d => .completed d p.next := by
  have hput : p.flow.output m.outputIds data context v = p.flow.resultPath.apply data v := by
    rw [DataFlow.output, hselector, houtput]
    exact bind_pure (m := Except ExecutionError) (p.flow.resultPath.apply data v)
  rw [Pass.advance, hresult, ← hput]
  rfl

/-- A result that is not null is what the state completes with, where neither ResultPath nor
OutputPath is given. Where only ResultPath is, and it can be set in the input of the state, it leads
to that result in the output. But a null result is passed over: without that field the document
gives the same state, and the state passes on its input. -/
theorem Pass.completes_with_result (hkeys : (entries.map Prod.fst).Nodup)
    (hdecode : Document.State.decode name (.obj entries) = .ok (.pass s))
    (hcompile : Pass.compile s = .ok p) (hresult : entries.lookup "Result" = some v)
    (m : Moment) (data context : Value) :
    (v ≠ .null → entries.lookup "OutputPath" = none →
      (entries.lookup "ResultPath" = none →
        p.advance m data context = .ok (.completed v p.next)) ∧
      ∀ text q d', entries.lookup "ResultPath" = some (.str text) → Path.parse text = .ok q →
        q.set data v = .ok d' →
        p.advance m data context = .ok (.completed d' p.next) ∧ q.evaluate d' context = .ok v) ∧
    (v = .null →
      Document.State.decode name (.obj (entries.filter fun e => e.1 != "Result")) =
        .ok (.pass s) ∧
      p.advance m data context =
        p.flow.effectiveInput m.inputIds data context >>=
          p.flow.complete m p.next data context) := by
  have hread := (Document.State.decode_pass.mp hdecode).2
  obtain ⟨hsame, hflow⟩ := Pass.of_compile hcompile
  obtain ⟨hselector, hplace, houtput⟩ := DataFlow.of_compile hflow
  have hgiven := Document.readEntries_given Document.Pass.read_result
    (fun hk h => (Document.Pass.read_other h).1 hk) hkeys hresult hread
  refine ⟨fun hv hwhole => ?_, ?_⟩
  · have hraw : p.result = some v := by
      rw [hsame]
      cases v
      case null => exact absurd rfl hv
      all_goals exact (Except.ok.inj hgiven).symm
    have hselector : p.flow.resultSelector = none := (Except.ok.inj hselector).symm
    have hwhole : s.paths.output = .absent :=
      Document.readEntries_absent (fun s : Document.Pass => s.paths.output)
        (fun hk h => (Document.Pass.read_other h).2.2 hk) (Document.keys_ne_of_lookup hwhole) hread
    have houtput : p.flow.outputPath = .whole := by
      rw [hwhole] at houtput
      exact (Except.ok.inj houtput).symm
    have hadvance := Pass.advance_result hraw hselector houtput m data context
    refine ⟨fun habsent => ?_, fun text q d' hgiven hq hset => ?_⟩
    · have hnone : s.resultPath = .absent :=
        Document.readEntries_absent Document.Pass.resultPath
          (fun hk h => (Document.Pass.read_other h).2.1 hk) (Document.keys_ne_of_lookup habsent)
          hread
      rw [hnone] at hplace
      rw [hadvance, ← Except.ok.inj hplace]
      rfl
    · have htext := Document.readEntries_given Document.Pass.read_resultPath
        (fun hk h => (Document.Pass.read_other h).2.1 hk) hkeys hgiven hread
      rw [← Except.ok.inj htext] at hplace
      obtain ⟨happly, hget⟩ := ResultPath.apply_compiled hplace hq hset context
      rw [hadvance, happly]
      exact ⟨rfl, hget⟩
  · rintro rfl
    refine ⟨Document.State.decode_without_result hkeys hresult hdecode, ?_⟩
    have hraw : p.result = none := by
      rw [hsame]
      exact (Except.ok.inj hgiven).symm
    rw [Pass.advance, hraw]

/-- A state that puts the entrance into its input. -/
def entranceFields : List (String × Value) :=
  [("Type", .str "Pass"), ("Result", .str "north"), ("ResultPath", .str "$.way.in"),
    ("End", .bool true)]

/-- The text `$.way.in`. -/
def wayIn : Path := ⟨"$.way.in", false,
  [.select (.key (.field "way")), .select (.key (.field "in"))],
  .reference [.field "way", .field "in"]⟩

def entranceState : Document.Pass :=
  { transition := { isEnd := true }, result := some (.str "north"), resultPath := .path "$.way.in" }

def entrance : Pass :=
  { next := none, flow := { resultPath := .merge wayIn }, result := some (.str "north") }

/-- A state with a null result. -/
def vacantFields : List (String × Value) :=
  [("Type", .str "Pass"), ("Result", .null), ("End", .bool true)]

def vacantState : Document.Pass := { transition := { isEnd := true } }

def vacant : Pass := { next := none, flow := {}, result := none }

/-- The entrance stands where it belongs. The state with the null result is read as if it had none,
and completes with its input. -/
theorem entrance_completes :
    entrance.advance .zero (.obj []) .null =
      .ok (.completed (.obj [("way", .obj [("in", .str "north")])]) none) ∧
    wayIn.evaluate (.obj [("way", .obj [("in", .str "north")])]) .null = .ok (.str "north") ∧
    Document.State.decode "Vacant" (.obj [("Type", .str "Pass"), ("End", .bool true)]) =
      .ok (.pass vacantState) ∧
    vacant.advance .zero (.obj [("a", .int 1)]) .null =
      .ok (.completed (.obj [("a", .int 1)]) none) := by
  have hread : Document.State.decode "Entrance" (.obj entranceFields) =
      .ok (.pass entranceState) := rfl
  have hvacant : Document.State.decode "Vacant" (.obj vacantFields) =
      .ok (.pass vacantState) := rfl
  have hentrance := Pass.completes_with_result (p := entrance) (by decide) hread (by cbv) rfl
    .zero (.obj []) .null
  have hnull := Pass.completes_with_result (p := vacant) (by decide) hvacant (by cbv) rfl
    .zero (.obj [("a", .int 1)]) .null
  obtain ⟨hplaced, hfound⟩ := (hentrance.1 (by simp) rfl).2 "$.way.in" wayIn _ rfl (by cbv) rfl
  obtain ⟨hdecode, hadvance⟩ := hnull.2 rfl
  exact ⟨hplaced, hfound, hdecode, hadvance⟩

end

end Machine

end StatesLanguage
