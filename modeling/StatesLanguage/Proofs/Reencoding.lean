import StatesLanguage.Document.Parse
import StatesLanguage.Proofs.Containers

/-! A document that has been read is read again from what is written of it. -/
namespace StatesLanguage.Document

open Decoder

variable {key name : String} {v : Value} {entries : List (String × Value)} {setting : Setting}

/-! ### States -/

namespace State

/-- The state of a kind that the entries give. -/
def readAs (kind : Kind) (entries : List (String × Value)) : Except DecodeError State :=
  match kind with
  | .pass => (readEntries Pass.read {} entries).map .pass
  | .task => (readEntries Task.read {} entries).map .task
  | .wait => (readEntries Wait.read {} entries).map .wait
  | .choice => (readEntries Choice.read {} entries).map .choice
  | .succeed => (readEntries Succeed.read {} entries).map .succeed
  | .fail => (readEntries Fail.read {} entries).map .fail
  | .parallel => (readEntries Parallel.readWhole {} entries).map Parallel.Whole.state
  | .map => (readEntries Map.readWhole {} entries).map Map.Whole.state

theorem decode_obj (name : String) (entries : List (String × Value)) :
    State.decode name (.obj entries) = kindOf name (.obj entries) >>= fun kind =>
      (readAs kind entries).mapError (.within name) := by
  have hparallel := Parallel.decodeEntries_eq {} entries
  have hmap := Map.decodeEntries_eq {} entries
  rw [State.decode]
  congr 1
  funext kind
  cases kind with
  | parallel => exact congrArg (Except.mapError (DecodeError.within name)) hparallel
  | map => exact congrArg (Except.mapError (DecodeError.within name)) hmap
  | _ => rfl

theorem kindOf_encode (kind : Kind) (name : String) (fields : List (String × Value)) :
    kindOf name (.obj (kind.encode ++ fields)) = .ok kind := by
  cases kind <;> rfl

/-- The Type field of a state is none of its other fields. -/
theorem readAs_encode (kind : Kind) (fields : List (String × Value)) :
    readAs kind (kind.encode ++ fields) = readAs kind fields := by
  cases kind <;> rfl

/-- A state of a kind is read as one of that kind. -/
theorem returns_of_readAs (kind : Kind) (fields : List (String × Value)) {s : State}
    (hencode : s.encode = .obj (kind.encode ++ fields)) (hread : readAs kind fields = .ok s) :
    Returns (State.decode name) State.encode s := by
  rw [Returns, hencode]
  refine ⟨by simp, ?_⟩
  rw [decode_obj, kindOf_encode]
  exact congrArg (Except.mapError (DecodeError.within name)) ((readAs_encode kind fields).trans hread)

/-- What is read as a state of a kind returns if the graphs inside it do. -/
theorem readAs_returns {kind : Kind} {s : State} (h : readAs kind entries = .ok s)
    (hv : ∀ e ∈ entries, ∀ w, sizeOf w ≤ sizeOf e.2 →
      StableAt (Graph.decode .inState) Graph.encode w) :
    Returns (State.decode name) State.encode s := by
  cases kind with
  | pass =>
    obtain ⟨s, hs, rfl⟩ := map_ok h
    exact returns_of_readAs .pass s.encode (by rw [State.encode])
      (congrArg (Except.map State.pass) (Pass.stable hs))
  | task =>
    obtain ⟨s, hs, rfl⟩ := map_ok h
    exact returns_of_readAs .task s.encode (by rw [State.encode])
      (congrArg (Except.map State.task) (Task.stable hs))
  | wait =>
    obtain ⟨s, hs, rfl⟩ := map_ok h
    exact returns_of_readAs .wait s.encode (by rw [State.encode])
      (congrArg (Except.map State.wait) (Wait.stable hs))
  | choice =>
    obtain ⟨s, hs, rfl⟩ := map_ok h
    exact returns_of_readAs .choice s.encode (by rw [State.encode])
      (congrArg (Except.map State.choice) (Choice.stable hs))
  | succeed =>
    obtain ⟨s, -, rfl⟩ := map_ok h
    exact returns_of_readAs .succeed s.encode (by rw [State.encode])
      (congrArg (Except.map State.succeed) s.reads)
  | fail =>
    obtain ⟨s, -, rfl⟩ := map_ok h
    exact returns_of_readAs .fail s.encode (by rw [State.encode])
      (congrArg (Except.map State.fail) s.reads)
  | parallel =>
    obtain ⟨p, hp, rfl⟩ := map_ok h
    have hkept : Parallel.Kept p :=
      readEntries_keeps hp ⟨nofun, nofun, nofun, nofun⟩ fun e he _ _ hp hread =>
        Parallel.readWhole_keeps hp hread fun w hw => hv e he w (Nat.le_of_lt hw)
    exact returns_of_readAs .parallel (p.fields.encode (Branches.encode? p.branches))
      (by rw [Parallel.Whole.state, State.encode])
      (congrArg (Except.map Parallel.Whole.state) hkept.reads)
  | map =>
    obtain ⟨p, hp, rfl⟩ := map_ok h
    have hkept : Map.Kept p :=
      readEntries_keeps hp ⟨nofun, nofun, nofun, nofun, nofun, nofun⟩ fun e he _ _ hp hread =>
        Map.readWhole_keeps hp hread (hv e he e.2 (Nat.le_refl _))
    exact returns_of_readAs .map (p.declared.encode (Processor.encode? p.processor.join))
      (by rw [Map.Whole.state, State.encode]) hkept.reads

theorem stable_of_inner
    (hv : ∀ w, sizeOf w < sizeOf v → StableAt (Graph.decode .inState) Graph.encode w) :
    StableAt (State.decode name) State.encode v := by
  intro s h
  cases v with
  | obj entries =>
    rw [decode_obj] at h
    obtain ⟨kind, -, h⟩ := bind_ok h
    exact readAs_returns (mapError_ok h) fun e he w hw =>
      hv w (Nat.lt_of_le_of_lt hw (sizeOf_entry he))
  | _ => simp [State.decode] at h

end State

/-! ### Graphs -/

namespace States

variable {done ss : List (String × State)}

/-- The states of a graph, given as an object. -/
def decode : Decoder (List (String × State))
  | .obj entries => States.decodeEntries [] entries
  | v => .error (.invalidType v .states)

def encode (ss : List (String × State)) : Value := .obj (States.encodeEntries ss)

theorem decode?_eq (v : Value) : States.decode? v = optional decode v := by
  cases v <;> simp [States.decode?, decode, Decoder.optional, Except.map]

theorem encode?_eq (o : Option (List (String × State))) : States.encode? o = o.map encode := by
  cases o <;> simp [States.encode?, encode]

/-- States with names of their own, each of which returns. -/
structure Kept (ss : List (String × State)) : Prop where
  names : (ss.map Prod.fst).Nodup
  states : ∀ s ∈ ss, Returns (State.decode s.1) State.encode s.2

theorem lookup_isSome (ss : List (String × State)) (name : String) :
    (ss.lookup name).isSome = true ↔ name ∈ ss.map Prod.fst := by
  rw [List.lookup_isSome_iff, List.mem_map]
  exact exists_congr fun s => and_congr_right fun _ => ⟨fun h => (eq_of_beq h).symm, fun h => by simp [h]⟩

theorem decodeEntries_keeps (h : States.decodeEntries done entries = .ok ss) (hdone : Kept done)
    (hv : ∀ e ∈ entries, StableAt (State.decode e.1) State.encode e.2) : Kept ss := by
  induction entries generalizing done with
  | nil =>
    rw [States.decodeEntries] at h
    cases h
    exact hdone
  | cons e rest ih =>
    obtain ⟨name, v⟩ := e
    obtain ⟨hfirst, hrest⟩ := List.forall_mem_cons.mp hv
    rw [States.decodeEntries] at h
    split at h
    · cases h
    · rename_i hnew
      obtain ⟨s, hs, h⟩ := bind_ok h
      refine ih h ⟨?_, ?_⟩ hrest
      · rw [lookup_isSome] at hnew
        rw [List.map_append, List.map_singleton, List.nodup_append]
        refine ⟨hdone.names, List.pairwise_singleton _ _, fun a ha b hb hab => hnew ?_⟩
        have hname : name = a := (hab.trans (List.mem_singleton.mp hb)).symm
        rwa [hname]
      · rw [List.forall_mem_append, List.forall_mem_singleton]
        exact ⟨hdone.states, hfirst s hs⟩

theorem decodeEntries_encode (h : Kept (done ++ ss)) :
    States.decodeEntries done (States.encodeEntries ss) = .ok (done ++ ss) := by
  induction ss generalizing done with
  | nil => rw [States.encodeEntries, States.decodeEntries, List.append_nil]
  | cons s rest ih =>
    obtain ⟨name, s⟩ := s
    have hnew : ¬ (done.lookup name).isSome = true := by
      rw [lookup_isSome]
      have hnames := h.names
      rw [List.map_append, List.nodup_append] at hnames
      exact fun hmem => hnames.2.2 name hmem name List.mem_cons_self rfl
    have hs := (h.states (name, s) (by simp)).2
    have happend : done ++ [(name, s)] ++ rest = done ++ (name, s) :: rest := by simp
    rw [← happend] at h ⊢
    rw [States.encodeEntries, States.decodeEntries, if_neg hnew, hs]
    exact ih h

theorem Kept.returns (h : Kept ss) : Returns decode encode ss :=
  ⟨nofun, decodeEntries_encode h⟩

theorem stable_of_inner
    (hv : ∀ w, sizeOf w < sizeOf v → StableAt (Graph.decode .inState) Graph.encode w) :
    StableAt decode encode v := by
  intro ss h
  cases v with
  | obj entries =>
    refine Kept.returns (decodeEntries_keeps h ⟨List.nodup_nil, nofun⟩ fun e he => ?_)
    exact State.stable_of_inner fun w hw => hv w (Nat.lt_trans hw (sizeOf_entry he))
  | _ => cases h

end States

namespace Graph

variable {g g' : Graph}

/-- Takes one entry of a graph, be it the states or another. -/
def readWhole : FieldReader Graph := fun key v g =>
  if key = "States" then (optional States.decode v).map fun ss => { g with states := ss }
  else Graph.read key v g

theorem decodeEntries_eq (g : Graph) (entries : List (String × Value)) :
    Graph.decodeEntries g entries = readEntries readWhole g entries := by
  induction entries generalizing g with
  | nil =>
    rw [Graph.decodeEntries]
    rfl
  | cons e rest ih =>
    obtain ⟨key, v⟩ := e
    simp only [readEntries_cons, readWhole, Graph.decodeEntries, States.decode?_eq, ih]
    split <;> rfl

theorem decodeItems_eq (g : Graph) (keys : List String) (items : List Value) :
    Graph.decodeItems g keys items = readEntries readWhole g (keys.zip items) := by
  induction keys generalizing g items with
  | nil =>
    rw [Graph.decodeItems]
    · rfl
    · nofun
  | cons key keys ih =>
    cases items with
    | nil =>
      rw [Graph.decodeItems]
      · rfl
      · nofun
    | cons v rest =>
      simp only [List.zip_cons_cons, readEntries_cons, readWhole, Graph.decodeItems, States.decode?_eq, ih]
      split <;> rfl

theorem decode_eq (setting : Setting) (v : Value) : Graph.decode setting v =
    recordOf "StateMachineDefinition" Graph.fields readWhole {} setting v := by
  cases v <;> simp [Graph.decode, recordOf, decodeEntries_eq, decodeItems_eq]

structure Kept (g : Graph) : Prop where
  states : ∀ ss ∈ g.states, Returns States.decode States.encode ss
  timeoutSeconds : ∀ n ∈ g.timeoutSeconds, Returns word64 Value.ofNat n

theorem read_keeps (hg : g.Kept) (h : Graph.read key v g = .ok g') : g'.Kept := by
  unfold Graph.read at h
  split at h
  case h_4 =>
    obtain ⟨o, ho, heq⟩ := bind_ok h
    cases heq
    exact { hg with timeoutSeconds := word64_returns ho }
  case h_5 =>
    cases h
    exact hg
  all_goals
    obtain ⟨o, -, heq⟩ := bind_ok h
    cases heq
    exact ⟨hg.states, hg.timeoutSeconds⟩

theorem readWhole_keeps (hg : g.Kept) (h : readWhole key v g = .ok g')
    (hv : ∀ w, sizeOf w < sizeOf v → StableAt (Graph.decode .inState) Graph.encode w) : g'.Kept := by
  unfold readWhole at h
  split at h
  · obtain ⟨o, ho, rfl⟩ := map_ok h
    exact { hg with states := optional_returns ho fun _ => States.stable_of_inner hv }
  · exact read_keeps hg h

theorem Kept.returns (h : g.Kept) : Returns (Graph.decode setting) Graph.encode g := by
  obtain ⟨comment, startAt, states, version, timeoutSeconds⟩ := g
  rw [Returns, Graph.encode, decode_eq, States.encode?_eq]
  refine ⟨by simp, ?_⟩
  simp only [recordOf, List.append_assoc]
  refine reads_append (reads_string (fun g x => { g with comment := x }) (fun _ => rfl) rfl) ?_
  refine reads_append (reads_string (fun g x => { g with startAt := x }) (fun _ => rfl) rfl) ?_
  refine reads_append
    (reads_optional (fun g x => { g with states := x }) (fun _ => rfl) rfl h.states) ?_
  refine reads_append (reads_string (fun g x => { g with version := x }) (fun _ => rfl) rfl) ?_
  exact reads_optional (fun (g : Graph) x => { g with timeoutSeconds := x }) (fun _ => rfl) rfl
    h.timeoutSeconds

/-- What is read as a graph returns if the graphs inside it do. -/
theorem stable_of_inner
    (hv : ∀ w, sizeOf w < sizeOf v → StableAt (Graph.decode .inState) Graph.encode w) :
    StableAt (Graph.decode setting) Graph.encode v := by
  intro g h
  rw [decode_eq] at h
  refine Kept.returns (recordOf_keeps h ⟨nofun, nofun⟩ fun _ w _ _ hw hg hread => ?_)
  exact readWhole_keeps hg hread fun u hu => hv u (Nat.lt_trans hu hw)

/-- What is read as a graph returns. -/
theorem stable (setting : Setting) (v : Value) : StableAt (Graph.decode setting) Graph.encode v :=
  stable_of_inner fun w _ => stable .inState w
termination_by sizeOf v

theorem ofValue_written (d : Graph) :
    Graph.ofValue d.encode = (Graph.decode .alone d.encode).mapError .undecodable := by
  cases d
  rw [Graph.encode]
  rfl

/-- A document that has been read from a value is written as a value from which it is read again. -/
theorem ofValue_encode {d : Graph} (h : Graph.ofValue v = .ok d) :
    Graph.ofValue d.encode = .ok d := by
  cases v with
  | obj entries =>
    obtain ⟨-, hreturns⟩ := stable .alone _ d (mapError_ok h)
    rw [ofValue_written, hreturns]
    rfl
  | _ => cases h

/-- A document with what can be written in several ways: a graph and a retrier as arrays, the older
names of a Map state, paths that are null, and fields that nothing knows. -/
def manifoldValue : Value := .obj [
  ("Comment", .null), ("StartAt", .str "Each"), ("Owner", .str "nobody"),
  ("States", .obj [
    ("Each", .obj [
      ("Type", .str "Map"), ("Next", .str "Check"), ("InputPath", .null),
      ("Parameters", .obj [("item.$", .str "$$.Map.Item.Value")]),
      ("Iterator", .arr [.null, .str "Work", .obj [
        ("Work", .obj [
          ("End", .bool true), ("Type", .str "Task"), ("Resource", .str "local"),
          ("Retry", .arr [.arr [.arr [.str "States.ALL"], .int 2, .int 5]])])]])]),
    ("Check", .obj [
      ("Type", .str "Choice"), ("Default", .str "Both"),
      ("Choices", .arr [.obj [
        ("Next", .str "Both"),
        ("Not", .obj [("NumericEquals", .int 3), ("Variable", .str "$.count")])]])]),
    ("Both", .obj [
      ("Type", .str "Parallel"), ("End", .bool true), ("ResultPath", .null),
      ("Branches", .arr [.obj [
        ("States", .obj [("Hold", .obj [("Type", .str "Wait"), ("Seconds", .int 7)])])]])])])]

def manifoldGraph : Graph := (Graph.ofValue manifoldValue).toOption.getD default

theorem manifold_encode : Graph.ofValue manifoldValue = .ok manifoldGraph ∧
    Graph.ofValue manifoldGraph.encode = .ok manifoldGraph := by
  have hread : Graph.ofValue manifoldValue = .ok manifoldGraph := rfl
  exact ⟨hread, ofValue_encode hread⟩

end Graph

end StatesLanguage.Document
