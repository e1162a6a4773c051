import StatesLanguage.Proofs.Kinds

/-! The states that have graphs inside them are read again as they were written, if the graphs are. -/
namespace StatesLanguage.Document

open Decoder

variable {key : String} {v : Value}

theorem Branches.decodeItems_eq (items : List Value) :
    Branches.decodeItems items = items.mapM (Graph.decode .inState) := by
  induction items with
  | nil =>
    rw [Branches.decodeItems]
    rfl
  | cons v rest ih =>
    rw [Branches.decodeItems, List.mapM_cons, ih]
    rfl

theorem Branches.decode?_eq (v : Value) :
    Branches.decode? v = optional (list (Graph.decode .inState)) v := by
  cases v <;> simp [Branches.decode?, Branches.decodeItems_eq, Decoder.optional, list, Except.map]

theorem Branches.encode?_eq (o : Option (List Graph)) :
    Branches.encode? o = o.map (encodeList Graph.encode) := by
  have hitems : ∀ gs : List Graph, Branches.encodeItems gs = gs.map Graph.encode := by
    intro gs
    induction gs with
    | nil => rw [Branches.encodeItems, List.map_nil]
    | cons g rest ih => rw [Branches.encodeItems, List.map_cons, ih]
  cases o <;> simp [Branches.encode?, encodeList, hitems]

theorem Processor.decode?_eq (v : Value) :
    Processor.decode? v = optional (Graph.decode .inState) v := by
  cases v with
  | arr items =>
    simp only [Processor.decode?, Decoder.optional, Graph.decode]
    cases Graph.decodeItems {} Graph.fields items with
    | error e => rfl
    | ok g =>
      simp only [bind, Except.bind]
      split <;> rfl
  | _ => simp [Processor.decode?, Graph.decode, Decoder.optional, Except.map]

theorem Processor.encode?_eq (o : Option Graph) : Processor.encode? o = o.map Graph.encode := by
  cases o <;> simp [Processor.encode?]

/-! ### Parallel states -/

namespace Parallel

/-- A Parallel state with its branches. -/
structure Whole where
  fields : Parallel := {}
  branches : Option (List Graph) := none

variable {p p' : Whole} {s s' : Parallel}

def Whole.state (p : Whole) : State := .parallel p.fields p.branches

/-- Takes one entry of a Parallel state, be it the branches or another. -/
def readWhole : FieldReader Whole := fun key v p =>
  if key = "Branches" then
    (optional (list (Graph.decode .inState)) v).map fun b => { p with branches := b }
  else (Parallel.read key v p.fields).map fun s => { p with fields := s }

theorem decodeEntries_eq (p : Whole) (entries : List (String × Value)) :
    Parallel.decodeEntries p.fields p.branches entries =
      (readEntries readWhole p entries).map Whole.state := by
  induction entries generalizing p with
  | nil =>
    rw [Parallel.decodeEntries]
    rfl
  | cons e rest ih =>
    obtain ⟨key, v⟩ := e
    rw [readEntries_cons, Parallel.decodeEntries, readWhole, Branches.decode?_eq]
    split
    · cases optional (list (Graph.decode .inState)) v with
      | error e => rfl
      | ok b => exact ih { p with branches := b }
    · cases Parallel.read key v p.fields with
      | error e => rfl
      | ok s => exact ih { p with fields := s }

/-- A plain field is taken into the state. -/
theorem readWhole_field {β : Type} {decode : Decoder β} {f : β → Parallel}
    (h : Parallel.read key v p.fields = decode v >>= fun x => .ok (f x)) (hkey : key ≠ "Branches") :
    readWhole key v p = decode v >>= fun x => .ok { p with fields := f x } := by
  rw [readWhole, if_neg hkey, h]
  cases decode v <;> rfl

structure Kept (p : Whole) : Prop where
  parameters : ∀ x ∈ p.fields.parameters, Returns any id x
  resultSelector : ∀ x ∈ p.fields.resultSelector, Returns any id x
  retry : ∀ r ∈ p.fields.retry, Returns (Retrier.decode .inState) Retrier.encode r
  branches : ∀ gs ∈ p.branches, Returns (list (Graph.decode .inState)) (encodeList Graph.encode) gs

theorem read_keeps (hp : Kept p) (h : Parallel.read key v p.fields = .ok s') :
    Kept { p with fields := s' } := by
  unfold Parallel.read at h
  split at h
  case h_7 =>
    obtain ⟨o, ho, heq⟩ := bind_ok h
    cases heq
    exact { hp with parameters := any_returns ho }
  case h_8 =>
    obtain ⟨o, ho, heq⟩ := bind_ok h
    cases heq
    exact { hp with resultSelector := any_returns ho }
  case h_9 =>
    obtain ⟨o, ho, heq⟩ := bind_ok h
    cases heq
    exact { hp with retry := retriers_return ho }
  case h_11 =>
    cases h
    exact hp
  all_goals
    obtain ⟨o, -, heq⟩ := bind_ok h
    cases heq
    exact ⟨hp.parameters, hp.resultSelector, hp.retry, hp.branches⟩

theorem readWhole_keeps (hp : Kept p) (h : readWhole key v p = .ok p')
    (hv : ∀ w, sizeOf w < sizeOf v → StableAt (Graph.decode .inState) Graph.encode w) : Kept p' := by
  unfold readWhole at h
  split at h
  · obtain ⟨o, ho, rfl⟩ := map_ok h
    exact { hp with branches := optional_returns ho fun _ => stable_list hv }
  · obtain ⟨s', hs', rfl⟩ := map_ok h
    exact read_keeps hp hs'

theorem Kept.reads (h : Kept p) : readEntries readWhole {}
    (p.fields.encode (Branches.encode? p.branches)) = .ok p := by
  simp only [Parallel.encode, List.append_assoc, Branches.encode?_eq]
  refine reads_append (reads_string (fun p x => { p with fields.comment := x })
    (fun _ => readWhole_field rfl (by decide)) rfl) ?_
  refine reads_append (reads_transition (fun p t => { p with fields.transition := t })
    (fun _ _ _ => readWhole_field rfl (by decide)) (fun _ _ _ => readWhole_field rfl (by decide))
    rfl) ?_
  refine reads_append (reads_paths (fun p x => { p with fields.paths := x })
    (fun _ _ _ => readWhole_field rfl (by decide)) (fun _ _ _ => readWhole_field rfl (by decide))
    rfl) ?_
  refine reads_append (reads_path (fun p x => { p with fields.resultPath := x })
    (fun _ => readWhole_field rfl (by decide)) rfl) ?_
  refine reads_append (reads_any (fun p x => { p with fields.parameters := x })
    (fun _ => readWhole_field rfl (by decide)) rfl h.parameters) ?_
  refine reads_append (reads_any (fun p x => { p with fields.resultSelector := x })
    (fun _ => readWhole_field rfl (by decide)) rfl h.resultSelector) ?_
  refine reads_append (reads_optional (fun p x => { p with branches := x })
    (fun _ => rfl) rfl h.branches) ?_
  refine reads_append (reads_list (fun p x => { p with fields.retry := x })
    (fun _ => readWhole_field rfl (by decide)) rfl h.retry) ?_
  exact reads_list (fun (p : Whole) x => { p with fields.catchers := x })
    (fun _ => readWhole_field rfl (by decide)) rfl fun c _ => c.returns

end Parallel

/-! ### Map states -/

namespace Map

/-- A Map state with what it has given under one of two names so far. -/
structure Whole where
  fields : Map := {}
  processor : Option (Option Graph) := none
  selector : Option (Option Value) := none

variable {p p' : Whole} {s s' : Map}

/-- The fields with the selector among them. -/
def Whole.declared (p : Whole) : Map := { p.fields with itemSelector := p.selector.join }

def Whole.state (p : Whole) : State := .map p.declared p.processor.join

/-- Takes one entry of a Map state. -/
def readWhole : FieldReader Whole := fun key v p =>
  if Map.declaredName key = "ItemProcessor" then
    if p.processor.isSome then .error (.duplicateField "ItemProcessor")
    else (optional (Graph.decode .inState) v).map fun g => { p with processor := some g }
  else if Map.declaredName key = "ItemSelector" then
    if p.selector.isSome then .error (.duplicateField "ItemSelector")
    else (optional any v).map fun t => { p with selector := some t }
  else (Map.read key v p.fields).map fun s => { p with fields := s }

theorem decodeEntries_eq (p : Whole) (entries : List (String × Value)) :
    Map.decodeEntries p.fields p.processor p.selector entries =
      (readEntries readWhole p entries).map Whole.state := by
  induction entries generalizing p with
  | nil =>
    rw [Map.decodeEntries]
    rfl
  | cons e rest ih =>
    obtain ⟨key, v⟩ := e
    rw [readEntries_cons, Map.decodeEntries, readWhole, Processor.decode?_eq]
    split
    · split
      · rfl
      · cases optional (Graph.decode .inState) v with
        | error e => rfl
        | ok g => exact ih { p with processor := some g }
    · split
      · split
        · rfl
        · cases optional any v with
          | error e => rfl
          | ok t => exact ih { p with selector := some t }
      · cases Map.read key v p.fields with
        | error e => rfl
        | ok s => exact ih { p with fields := s }

/-- A plain field is taken into the state. -/
theorem readWhole_field {β : Type} {decode : Decoder β} {f : β → Map}
    (h : Map.read key v p.fields = decode v >>= fun x => .ok (f x))
    (hkey : Map.declaredName key ∉ ["ItemProcessor", "ItemSelector"]) :
    readWhole key v p = decode v >>= fun x => .ok { p with fields := f x } := by
  simp only [List.mem_cons, List.not_mem_nil, or_false, not_or] at hkey
  rw [readWhole, if_neg hkey.1, if_neg hkey.2, h]
  cases decode v <;> rfl

structure Kept (p : Whole) : Prop where
  resultSelector : ∀ x ∈ p.fields.resultSelector, Returns any id x
  maxConcurrency : ∀ n ∈ p.fields.maxConcurrency, Returns word64 Value.ofNat n
  failureCount : ∀ n ∈ p.fields.toleratedFailureCount, Returns word64 Value.ofNat n
  retry : ∀ r ∈ p.fields.retry, Returns (Retrier.decode .inState) Retrier.encode r
  processor : ∀ g ∈ p.processor.join, Returns (Graph.decode .inState) Graph.encode g
  selector : ∀ x ∈ p.selector.join, Returns any id x

theorem read_keeps (hp : Kept p) (h : Map.read key v p.fields = .ok s') :
    Kept { p with fields := s' } := by
  unfold Map.read at h
  split at h
  case h_7 =>
    obtain ⟨o, ho, heq⟩ := bind_ok h
    cases heq
    exact { hp with resultSelector := any_returns ho }
  case h_9 =>
    obtain ⟨o, ho, heq⟩ := bind_ok h
    cases heq
    exact { hp with maxConcurrency := word64_returns ho }
  case h_10 =>
    obtain ⟨o, ho, heq⟩ := bind_ok h
    cases heq
    exact { hp with failureCount := word64_returns ho }
  case h_12 =>
    obtain ⟨o, ho, heq⟩ := bind_ok h
    cases heq
    exact { hp with retry := retriers_return ho }
  case h_14 =>
    cases h
    exact hp
  all_goals
    obtain ⟨o, -, heq⟩ := bind_ok h
    cases heq
    exact ⟨hp.resultSelector, hp.maxConcurrency, hp.failureCount, hp.retry, hp.processor, hp.selector⟩

theorem readWhole_keeps (hp : Kept p) (h : readWhole key v p = .ok p')
    (hv : StableAt (Graph.decode .inState) Graph.encode v) : Kept p' := by
  unfold readWhole at h
  split at h
  · split at h
    · cases h
    · obtain ⟨o, ho, rfl⟩ := map_ok h
      exact { hp with processor := optional_returns ho fun _ => hv }
  · split at h
    · split at h
      · cases h
      · obtain ⟨o, ho, rfl⟩ := map_ok h
        exact { hp with selector := any_returns ho }
    · obtain ⟨s', hs', rfl⟩ := map_ok h
      exact read_keeps hp hs'

theorem reads_processor {o : Option Graph}
    (ho : ∀ g ∈ o, Returns (Graph.decode .inState) Graph.encode g) (hblank : p.processor = none) :
    readEntries readWhole p (field "ItemProcessor" (o.map Graph.encode)) =
      .ok { p with processor := o.map some } := by
  cases o with
  | none =>
    cases p
    cases hblank
    rfl
  | some g =>
    refine reads_single ?_
    rw [readWhole, if_pos (by decide), hblank, optional_encode (ho g rfl)]
    rfl

theorem reads_selector {o : Option Value} (ho : ∀ x ∈ o, Returns any id x)
    (hblank : p.selector = none) :
    readEntries readWhole p (field "ItemSelector" o) = .ok { p with selector := o.map some } := by
  cases o with
  | none =>
    cases p
    cases hblank
    rfl
  | some x =>
    have hx : optional any x = .ok (some x) := optional_encode (ho x rfl)
    refine reads_single ?_
    rw [readWhole, if_neg (by decide), if_pos (by decide), hblank, hx]
    rfl

theorem Kept.reads_parts (h : Kept p) :
    readEntries readWhole {} (p.declared.encode (Processor.encode? p.processor.join)) =
      .ok ⟨{ p.fields with itemSelector := none }, p.processor.join.map some,
        p.selector.join.map some⟩ := by
  simp only [Map.encode, List.append_assoc, Processor.encode?_eq]
  refine reads_append (reads_string (fun p x => { p with fields.comment := x })
    (fun _ => readWhole_field rfl (by decide)) rfl) ?_
  refine reads_append (reads_transition (fun p t => { p with fields.transition := t })
    (fun _ _ _ => readWhole_field rfl (by decide)) (fun _ _ _ => readWhole_field rfl (by decide))
    rfl) ?_
  refine reads_append (reads_paths (fun p x => { p with fields.paths := x })
    (fun _ _ _ => readWhole_field rfl (by decide)) (fun _ _ _ => readWhole_field rfl (by decide))
    rfl) ?_
  refine reads_append (reads_path (fun p x => { p with fields.resultPath := x })
    (fun _ => readWhole_field rfl (by decide)) rfl) ?_
  refine reads_append (reads_any (fun p x => { p with fields.resultSelector := x })
    (fun _ => readWhole_field rfl (by decide)) rfl h.resultSelector) ?_
  refine reads_append (reads_string (fun p x => { p with fields.itemsPath := x })
    (fun _ => readWhole_field rfl (by decide)) rfl) ?_
  refine reads_append (reads_processor h.processor rfl) ?_
  refine reads_append (reads_selector h.selector rfl) ?_
  refine reads_append (reads_optional (fun p x => { p with fields.maxConcurrency := x })
    (fun _ => readWhole_field rfl (by decide)) rfl h.maxConcurrency) ?_
  refine reads_append (reads_optional (fun p x => { p with fields.toleratedFailureCount := x })
    (fun _ => readWhole_field rfl (by decide)) rfl h.failureCount) ?_
  refine reads_append (reads_number (fun p x => { p with fields.toleratedFailurePercentage := x })
    (fun _ => readWhole_field rfl (by decide)) rfl) ?_
  refine reads_append (reads_list (fun p x => { p with fields.retry := x })
    (fun _ => readWhole_field rfl (by decide)) rfl h.retry) ?_
  exact reads_list (fun (p : Whole) x => { p with fields.catchers := x })
    (fun _ => readWhole_field rfl (by decide)) rfl fun c _ => c.returns

theorem Kept.reads (h : Kept p) :
    (readEntries readWhole {} (p.declared.encode (Processor.encode? p.processor.join))).map
      Whole.state = .ok p.state := by
  have hjoin : ∀ {β : Type} (o : Option β), (o.map some).join = o := by rintro _ (_ | _) <;> rfl
  rw [h.reads_parts]
  simp only [Except.map, Whole.state, Whole.declared, hjoin]

end Map

end StatesLanguage.Document
