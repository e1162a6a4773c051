import StatesLanguage.Machine.Compile
import StatesLanguage.Proofs.Calls
import StatesLanguage.Proofs.Ledger

/-! How a Map state fans out: a nested workflow for each item, in the order of the items. The items
share one context object, but a selector finds no item in it other than the one it is applied for.
The first item that the selector fails for decides, and then nothing is started. -/
namespace StatesLanguage

namespace Context

/-- What a context object tells of an item. -/
def itemEntry (index : Nat) (item : Value) : Value :=
  .obj [("Item", .obj [("Index", .ofNat index), ("Value", item)])]

/-- A context object with one more entry, behind those that it has. -/
def plus (key : String) (entry : Value) : Value → Value
  | .obj fields => .obj (fields ++ [(key, entry)])
  | context => context

theorem withItem_contextAt (index : Nat) (item : Value) (r : Run) (v : Visit) :
    withItem index item (r.contextAt v) = plus "Map" (itemEntry index item) (r.contextAt v) := rfl

/-- An item leaves nothing behind for the next one. -/
theorem withItem_withItem (index last : Nat) (item before context : Value) :
    withItem index item (withItem last before context) = withItem index item context := by
  cases context with
  | obj fields => exact congrArg Value.obj (setField_setField ..)
  | _ => rfl

end Context

namespace Machine

/-- The input of the nested workflow for an item: the item itself, or what the selector makes of the
input of the state when the context object tells of that item too. -/
def Map.itemInput (p : Map) (ids : Identifiers) (input context : Value) (i : Nat) (item : Value) :
    Except ExecutionError Value :=
  match p.itemSelector with
  | none => .ok item
  | some selector =>
    selector.apply (ids.part i) input (Context.plus "Map" (Context.itemEntry i item) context)

section

variable {p : Map} {ids : Identifiers} {input : Value} {r : Run} {v : Visit} {n : Nat}
  {items inputs : List Value} {err : ExecutionError}

theorem Map.itemInputs_withItem {context : Value} (last : Nat) (item : Value) :
    p.itemInputs ids input (Context.withItem last item context) n items =
      p.itemInputs ids input context n items := by
  cases items with
  | nil => rfl
  | cons item rest => rw [itemInputs, itemInputs, Context.withItem_withItem]

/-- The input of each item is made as if there were no items before it. -/
theorem Map.itemInputs_cons (item : Value) (rest : List Value) :
    p.itemInputs ids input (r.contextAt v) n (item :: rest) = do
      let w ← p.itemInput ids input (r.contextAt v) n item
      let ws ← p.itemInputs ids input (r.contextAt v) (n + 1) rest
      return w :: ws := by
  have hitem : applyTemplate? p.itemSelector item (ids.part n) input
      (Context.withItem n item (r.contextAt v)) =
        p.itemInput ids input (r.contextAt v) n item := by
    rw [itemInput, applyTemplate?.eq_def, Context.withItem_contextAt]
    cases p.itemSelector <;> rfl
  rw [itemInputs, itemInputs_withItem, hitem]

theorem Map.itemInputs_ok_iff :
    p.itemInputs ids input (r.contextAt v) n items = .ok inputs ↔
      inputs.length = items.length ∧ ∀ i (hi : i < items.length) (hi' : i < inputs.length),
        p.itemInput ids input (r.contextAt v) (n + i) items[i] = .ok inputs[i] := by
  induction items generalizing n inputs with
  | nil => cases inputs <;> simp [itemInputs]
  | cons item rest ih =>
    rw [itemInputs_cons]
    constructor
    · intro h
      obtain ⟨w, hw, h⟩ := bind_ok h
      obtain ⟨ws, hws, h⟩ := bind_ok h
      cases h
      obtain ⟨hlength, hall⟩ := ih.mp hws
      refine ⟨by rw [List.length_cons, List.length_cons, hlength], fun i hi hi' => ?_⟩
      cases i with
      | zero => exact hw
      | succ i =>
        rw [← Nat.add_assoc, Nat.add_right_comm]
        exact hall i (Nat.lt_of_succ_lt_succ hi) (Nat.lt_of_succ_lt_succ hi')
    · rintro ⟨hlength, hall⟩
      obtain ⟨w, ws, rfl⟩ := List.exists_cons_of_length_eq_add_one hlength
      have hw : p.itemInput ids input (r.contextAt v) n item = .ok w :=
        hall 0 (Nat.zero_lt_succ _) (Nat.zero_lt_succ _)
      have hws := ih.mpr ⟨Nat.succ_inj.mp hlength, fun i hi hi' => by
        have hi := hall (i + 1) (Nat.succ_lt_succ hi) (Nat.succ_lt_succ hi')
        rwa [← Nat.add_assoc, Nat.add_right_comm] at hi⟩
      rw [hw, hws]
      rfl

theorem Map.itemInputs_error_iff :
    p.itemInputs ids input (r.contextAt v) n items = .error err ↔
      ∃ i, ∃ hi : i < items.length,
        p.itemInput ids input (r.contextAt v) (n + i) items[i] = .error err ∧
        ∀ j (hj : j < i),
          Succeeds (p.itemInput ids input (r.contextAt v) (n + j) items[j]) := by
  induction items generalizing n with
  | nil => simp [itemInputs]
  | cons item rest ih =>
    rw [itemInputs_cons]
    cases hitem : p.itemInput ids input (r.contextAt v) n item with
    | error err' =>
      constructor
      · intro h
        cases h
        exact ⟨0, Nat.zero_lt_succ _, hitem, nofun⟩
      · rintro ⟨i, hi, herr, hbefore⟩
        cases i with
        | zero =>
          cases hitem.symm.trans herr
          rfl
        | succ i =>
          obtain ⟨w, hw⟩ := hbefore 0 (Nat.zero_lt_succ i)
          cases hitem.symm.trans hw
    | ok w =>
      have hshift (i : Nat) : n + 1 + i = n + (i + 1) := by omega
      have hrest : ((do
          let ws ← p.itemInputs ids input (r.contextAt v) (n + 1) rest
          return w :: ws) = Except.error err) ↔
            p.itemInputs ids input (r.contextAt v) (n + 1) rest = .error err := by
        cases p.itemInputs ids input (r.contextAt v) (n + 1) rest <;>
          simp [bind, Except.bind, pure, Except.pure]
      refine hrest.trans (ih.trans ⟨?_, ?_⟩)
      · rintro ⟨i, hi, herr, hbefore⟩
        rw [hshift] at herr
        refine ⟨i + 1, Nat.succ_lt_succ hi, herr, fun j hj => ?_⟩
        cases j with
        | zero => exact ⟨w, hitem⟩
        | succ j =>
          rw [← hshift]
          exact hbefore j (Nat.lt_of_succ_lt_succ hj)
      · rintro ⟨i, hi, herr, hbefore⟩
        cases i with
        | zero => cases hitem.symm.trans herr
        | succ i =>
          rw [← hshift] at herr
          refine ⟨i, Nat.lt_of_succ_lt_succ hi, herr, fun j hj => ?_⟩
          rw [hshift]
          exact hbefore (j + 1) (Nat.succ_lt_succ hj)

end

section

variable {σ : Type} {p : Map} {m : Moment} {r : Run} {v : Visit} {items : List Value}
  {err : ExecutionError}

/-- A Map state whose nested workflows cannot be made hands on the error. It makes none of them, and
nothing is asked of the runner of jobs. -/
theorem Map.advance_unopened {e : Engine σ} {processor : Machine} {s : σ}
    (hstart : p.start m r.execution r.data (r.contextAt v) = .error err)
    (hprogress : ∀ b, v.progress ≠ .branches b)
    (hready : v.notBefore.any (fun t => m.now.before t) = false) :
    State.advance e m (.map p processor) r v s =
      ((p.handling.handle m r.data err { v with progress := .idle, notBefore := none }).1,
        (p.handling.handle m r.data err { v with progress := .idle, notBefore := none }).2, s) := by
  have hunopened : ∀ b, ({ v with notBefore := none } : Visit).progress ≠ .branches b := hprogress
  rw [advance_map, ErrorHandling.guard, hstart, hready]
  simp only [Bool.false_eq_true, if_false, Branches.work_unopened hunopened]

/-- A state that has given up its work for an error does nothing until it is advanced again. -/
theorem handle_idle {h : ErrorHandling} {data : Value} (hv : v.progress = .idle) :
    (h.handle m data err v).2.progress = .idle :=
  ErrorHandling.handle_rule (Q := fun q => q.2.progress = .idle) (fun _ _ => rfl)
    (fun _ _ => hv) (fun _ _ => hv) fun _ => hv

theorem ofList_inputs {limit : Nat} {tolerance : Tolerance} (x : Execution) (inputs : List Value) :
    Branches.ofList (inputs.map (Run.ofInput x)) limit tolerance = {
      pending := inputs.mapIdx fun i input => (i, .ofInput x input)
      inFlight := []
      results := List.replicate inputs.length none
      limit, tolerance } := by
  have hpending : (inputs.map (Run.ofInput x)).mapIdx (fun i child => (i, child)) =
      inputs.mapIdx fun i input => (i, Run.ofInput x input) :=
    List.ext_getElem (by simp) fun i _ _ => by simp
  rw [Branches.ofList, hpending, List.map_const', List.length_map]

/-- A Map state makes one nested workflow for each item, in their order, and none of them has
started. The input of each is the item, or what the selector makes of the input of the state when the
context object of the state tells of that item in addition. When the selector fails for an item, the
first such item decides: the state goes on with its error, without nested workflows and without a
job. -/
theorem Map.fanned_out
    (hitems : p.itemsPath.evaluate (p.flow.filteredInput r.data (r.contextAt v)) (r.contextAt v) =
      .ok (.arr items)) :
    let made := p.itemInput m.partIds (p.flow.filteredInput r.data (r.contextAt v)) (r.contextAt v)
    (∀ b, p.start m r.execution r.data (r.contextAt v) = .ok b ↔
      ∃ inputs : List Value, inputs.length = items.length ∧
        (∀ i (hi : i < items.length) (hi' : i < inputs.length), made i items[i] = .ok inputs[i]) ∧
        b = {
          pending := inputs.mapIdx fun i input => (i, .ofInput r.execution input)
          inFlight := []
          results := List.replicate inputs.length none
          limit := p.maxConcurrency
          tolerance := p.tolerance }) ∧
    ∀ err, (p.start m r.execution r.data (r.contextAt v) = .error err ↔
        ∃ i, ∃ hi : i < items.length, made i items[i] = .error err ∧
          ∀ j (hj : j < i), Succeeds (made j items[j])) ∧
      (p.start m r.execution r.data (r.contextAt v) = .error err →
        ∀ (e : Engine σ) (processor : Machine) (s : σ), (∀ b, v.progress ≠ .branches b) →
          v.notBefore.any (fun t => m.now.before t) = false →
          ∃ a v', State.advance e m (.map p processor) r v s = (a, v', s) ∧
            p.handling.handle m r.data err { v with progress := .idle, notBefore := none } =
              (a, v') ∧
            v'.progress = .idle) := by
  intro made
  have hstart : p.start m r.execution r.data (r.contextAt v) =
      (p.itemInputs m.partIds (p.flow.filteredInput r.data (r.contextAt v)) (r.contextAt v) 0
        items).map fun inputs =>
          .ofList (inputs.map (Run.ofInput r.execution)) p.maxConcurrency p.tolerance := by
    simp only [start, Map.items, resolve, hitems]
    rfl
  refine ⟨fun b => ?_, fun err => ⟨?_, fun h e processor s hprogress hready => ?_⟩⟩
  · have hok (inputs : List Value) :
        p.itemInputs m.partIds (p.flow.filteredInput r.data (r.contextAt v)) (r.contextAt v) 0
          items = .ok inputs ↔ _ := itemInputs_ok_iff
    simp only [Nat.zero_add] at hok
    rw [hstart]
    constructor
    · intro h
      obtain ⟨inputs, hinputs, rfl⟩ := map_ok h
      obtain ⟨hlength, hall⟩ := (hok inputs).mp hinputs
      exact ⟨inputs, hlength, hall, ofList_inputs ..⟩
    · rintro ⟨inputs, hlength, hall, rfl⟩
      rw [(hok inputs).mpr ⟨hlength, hall⟩, ← ofList_inputs]
      rfl
  · have herror :
        p.itemInputs m.partIds (p.flow.filteredInput r.data (r.contextAt v)) (r.contextAt v) 0
          items = .error err ↔ _ := itemInputs_error_iff
    simp only [Nat.zero_add] at herror
    rw [← herror, hstart]
    cases p.itemInputs m.partIds _ _ 0 items <;> simp [Except.map]
  · exact ⟨_, _, advance_unopened h hprogress hready, rfl, handle_idle rfl⟩

end

section

/-- The path of these names. -/
def namesPath (inContext : Bool) (names : List String) : Path where
  text := (if inContext then "$$." else "$.") ++ ".".intercalate names
  inContext
  segments := names.map fun name => .select (.key (.field name))
  route := .reference (names.map .field)

/-- A Map state whose selector reads the item, its number, and the input of the state. -/
def labelsMap : Document.Map where
  itemsPath := some "$.items"
  itemSelector := some (.obj [("index.$", .str "$$.Map.Item.Index"),
    ("id.$", .str "$$.Map.Item.Value.id"), ("owner.$", .str "$.owner")])

def labels : Map where
  next := none
  itemsPath := namesPath false ["items"]
  itemSelector := some (.object [("index", .path (namesPath true ["Map", "Item", "Index"])),
    ("id", .path (namesPath true ["Map", "Item", "Value", "id"])),
    ("owner", .path (namesPath false ["owner"]))])
  maxConcurrency := 0
  tolerance := {}
  flow := {}
  handling := {}

/-- A workflow that is in such a state for these items. -/
def labelsRun (items : List Value) : Run :=
  .ofInput default (.obj [("owner", .str "Ada"), ("items", .arr items)])

def labelsVisit : Visit := Run.arrive ⟨"Label", []⟩ "Label" Moment.zero.now

/-- An item with a name. -/
def named (id : String) : Value := .obj [("id", .str id)]

/-- What the selector makes of an item. -/
def label (index : Int) (id : String) : Value :=
  .obj [("index", .int index), ("id", .str id), ("owner", .str "Ada")]

/-- Why there is no label for an item. -/
def unlabelled : ExecutionError :=
  .path .parameters "Path \"$$.Map.Item.Value.id\" could not be resolved"

/-- Two items with names are labelled. Of three items the second has no name: the state fails
although it has made a label for the first, and no job has been launched. -/
theorem labels_fanned_out : Map.compile labelsMap = .ok labels ∧
    labels.start .zero default (labelsRun [named "x", named "y"]).data
        ((labelsRun [named "x", named "y"]).contextAt labelsVisit) = .ok {
      pending := [(0, .ofInput default (label 0 "x")), (1, .ofInput default (label 1 "y"))]
      results := [none, none] } ∧
    labels.start .zero default (labelsRun [named "x", .obj [], named "z"]).data
        ((labelsRun [named "x", .obj [], named "z"]).contextAt labelsVisit) = .error unlabelled ∧
    State.advance ⟨hangingRunner.logged, {}⟩ .zero (.map labels default)
        (labelsRun [named "x", .obj [], named "z"]) labelsVisit ((), []) =
      (.error unlabelled, labelsVisit, ((), [])) := by
  have hcompile : Map.compile labelsMap = .ok labels := by cbv
  have hitems (items : List Value) :
      labels.itemsPath.evaluate (labels.flow.filteredInput (labelsRun items).data
          ((labelsRun items).contextAt labelsVisit)) ((labelsRun items).contextAt labelsVisit) =
        .ok (.arr items) := rfl
  have hnamed := Map.fanned_out (σ := Unit × List JobCall) (m := .zero)
    (hitems [named "x", named "y"])
  have hunnamed := Map.fanned_out (σ := Unit × List JobCall) (m := .zero)
    (hitems [named "x", .obj [], named "z"])
  have hstart := (hunnamed.2 unlabelled).1.mpr ⟨1, by decide, rfl, fun j hj => by
    cases Nat.lt_one_iff.mp hj
    exact ⟨label 0 "x", rfl⟩⟩
  refine ⟨hcompile, (hnamed.1 _).mpr ⟨[label 0 "x", label 1 "y"], rfl, ?_, rfl⟩, hstart, ?_⟩
  · rintro (_ | _ | i) hi _
    · rfl
    · rfl
    · exact absurd hi (by simp)
  · obtain ⟨a, v', hadvance, hhandle, -⟩ := (hunnamed.2 unlabelled).2 hstart
      ⟨hangingRunner.logged, {}⟩ default ((), []) (by simp [labelsVisit, Run.arrive]) rfl
    rw [hadvance]
    cases hhandle
    rfl

end

end Machine

end StatesLanguage
