import StatesLanguage.Proofs.Overrides
import StatesLanguage.Proofs.Reencoding

/-! A state that a JSON text declares twice is not reported. By the time its declarations are read
only the last of them is left. -/
namespace StatesLanguage

/-- A value right inside another. -/
inductive Value.Child : Value → Value → Prop where
  | item {v : Value} {items : List Value} : v ∈ items → Child v (.arr items)
  | entry {e : String × Value} {entries : List (String × Value)} : e ∈ entries →
    Child e.2 (.obj entries)

theorem Value.Child.sizeOf_lt {v w : Value} (h : w.Child v) : sizeOf w < sizeOf v := by
  cases h with
  | item h => exact Document.sizeOf_item h
  | entry h => exact Document.sizeOf_entry h

theorem Value.Child.distinct {v w : Value} (h : w.Child v) (hv : v.Distinct) : w.Distinct := by
  cases h with
  | item h =>
    cases hv with
    | arr hitems => exact hitems w h
  | entry h =>
    cases hv with
    | obj _ hentries => exact hentries _ h

namespace Document

open Decoder

/-- The result is no report of a state that is declared more than once. -/
def DeclaresOnce {α : Type} (x : Except DecodeError α) : Prop :=
  ∀ name, x ≠ .error (.duplicateState name)

namespace DeclaresOnce

variable {α β : Type} {x : Except DecodeError α} {decode : Decoder α} {v : Value}

@[simp] theorem ok (a : α) : DeclaresOnce (.ok a : Except DecodeError α) := fun _ h => by cases h

theorem bind {f : α → Except DecodeError β} (hx : DeclaresOnce x) (hf : ∀ a, DeclaresOnce (f a)) :
    DeclaresOnce (x >>= f) := by
  cases x with
  | error e => exact fun name h => hx name (congrArg Except.error (Except.error.inj h))
  | ok a => exact hf a

theorem map {f : α → β} (hx : DeclaresOnce x) : DeclaresOnce (x.map f) := by
  cases x with
  | error e => exact fun name h => hx name (congrArg Except.error (Except.error.inj h))
  | ok a => exact ok (f a)

/-- What is wrong in a state is not that it is declared more than once. -/
theorem within (hx : DeclaresOnce x) (name : String) :
    DeclaresOnce (x.mapError (.within name)) := by
  cases x with
  | ok a => exact ok a
  | error e =>
    intro other h
    have he : DecodeError.within name e = .duplicateState other := Except.error.inj h
    unfold DecodeError.within at he
    split at he
    · exact hx other (congrArg Except.error he)
    · cases he

theorem mapM {f : α → Except DecodeError β} {xs : List α} (h : ∀ a ∈ xs, DeclaresOnce (f a)) :
    DeclaresOnce (xs.mapM f) := by
  induction xs with
  | nil => exact ok []
  | cons a rest ih =>
    obtain ⟨ha, hrest⟩ := List.forall_mem_cons.mp h
    rw [List.mapM_cons]
    exact ha.bind fun _ => (ih hrest).bind fun _ => ok _

@[simp] theorem string : DeclaresOnce (string v) := by
  cases v <;> exact fun _ h => by cases h

@[simp] theorem boolean : DeclaresOnce (boolean v) := by
  cases v <;> exact fun _ h => by cases h

@[simp] theorem natural {shape : Shape} {limit : Nat} : DeclaresOnce (natural shape limit v) := by
  unfold Decoder.natural
  split
  · split <;> exact fun _ h => by cases h
  · exact fun _ h => by cases h

@[simp] theorem word64 : DeclaresOnce (word64 v) := natural

@[simp] theorem word32 : DeclaresOnce (word32 v) := natural

@[simp] theorem number : DeclaresOnce (number v) := by
  cases v <;> exact fun _ h => by cases h

@[simp] theorem any : DeclaresOnce (any v) := ok v

@[simp] theorem optional (h : DeclaresOnce (decode v)) : DeclaresOnce (optional decode v) := by
  unfold Decoder.optional
  split
  · exact ok none
  · exact h.map

@[simp] theorem list (h : ∀ w : Value, w.Child v → DeclaresOnce (decode w)) :
    DeclaresOnce (list decode v) := by
  cases v with
  | arr items => exact mapM fun w hw => h w (.item hw)
  | _ => exact fun _ h => by cases h

@[simp] theorem path : DeclaresOnce (path v) := by
  refine .bind (.optional .string) fun o => ?_
  cases o <;> exact ok _

theorem readEntries {read : FieldReader α} {r : α} {entries : List (String × Value)}
    (h : ∀ e ∈ entries, ∀ r, DeclaresOnce (read e.1 e.2 r)) :
    DeclaresOnce (readEntries read r entries) := by
  induction entries generalizing r with
  | nil => exact ok r
  | cons e rest ih =>
    obtain ⟨he, hrest⟩ := List.forall_mem_cons.mp h
    exact (he r).bind fun _ => ih hrest

theorem recordOf {name : String} {fields : List String} {read : FieldReader α} {blank : α}
    {setting : Setting} (h : ∀ key (w : Value) r, w.Child v → DeclaresOnce (read key w r)) :
    DeclaresOnce (recordOf name fields read blank setting v) := by
  cases v with
  | obj entries => exact readEntries fun e he r => h e.1 e.2 r (.entry he)
  | arr items =>
    refine .bind (readEntries fun e he r => h e.1 e.2 r (.item (List.of_mem_zip he).2)) fun _ => ?_
    split
    · cases setting <;> exact fun _ h => by cases h
    · exact ok _
  | _ => exact fun _ h => by cases h

end DeclaresOnce

variable {key name : String} {v : Value} {setting : Setting} {entries : List (String × Value)}

/-! ### Handlers and rules -/

@[simp] theorem readJitter_once : DeclaresOnce (readJitter setting v) := by
  have hnamed (name : String) : DeclaresOnce (readJitter.named name) := by
    unfold readJitter.named
    split
    · exact .ok _
    · split <;> exact fun _ h => by cases h
  unfold readJitter
  split
  · exact hnamed _
  · refine (hnamed _).bind fun _ => ?_
    split <;> exact fun _ h => by cases h
  · exact fun _ h => by cases h
  · exact fun _ h => by cases h

@[simp] theorem Retrier.decode_once : DeclaresOnce (Retrier.decode setting v) := by
  refine .recordOf fun key w r _ => ?_
  unfold Retrier.read
  split
  case h_8 => exact .ok _
  all_goals exact .bind (by simp) fun _ => .ok _

@[simp] theorem Catcher.decode_once : DeclaresOnce (Catcher.decode setting v) := by
  refine .recordOf fun key w c _ => ?_
  unfold Catcher.read
  split
  case h_5 => exact .ok _
  all_goals exact .bind (by simp) fun _ => .ok _

mutual

theorem Rule.decode_once : ∀ v : Value, DeclaresOnce (Rule.decode v)
  | .obj entries => by
    rw [Rule.decode]
    exact Rule.decodeEntries_once {} entries
  | .null | .bool _ | .int _ | .float _ | .str _ | .arr _ => by
    simp [Rule.decode, DeclaresOnce]

theorem Rule.decodeEntries_once (r : Rule) :
    ∀ entries : List (String × Value), DeclaresOnce (Rule.decodeEntries r entries)
  | [] => by
    rw [Rule.decodeEntries]
    exact .ok r
  | (key, v) :: rest => by
    have hrest (r : Rule) := Rule.decodeEntries_once r rest
    unfold Rule.decodeEntries
    dsimp only
    split
    case h_3 => exact .bind (Rule.decodeList?_once v).map hrest
    case h_4 => exact .bind (Rule.decodeList?_once v).map hrest
    case h_5 => exact .bind (Rule.decode?_once v).map hrest
    case h_7 => exact hrest _
    all_goals exact .bind (.map (.optional .string)) hrest

theorem Rule.decode?_once : ∀ v : Value, DeclaresOnce (Rule.decode? v)
  | .null => by
    rw [Rule.decode?]
    exact .ok none
  | .obj entries => by
    rw [Rule.decode?]
    exact (Rule.decodeEntries_once {} entries).map
  | .bool _ | .int _ | .float _ | .str _ | .arr _ => by
    simp [Rule.decode?, DeclaresOnce]

theorem Rule.decodeList?_once : ∀ v : Value, DeclaresOnce (Rule.decodeList? v)
  | .null => by
    rw [Rule.decodeList?]
    exact .ok none
  | .arr items => by
    rw [Rule.decodeList?]
    exact (Rule.decodeItems_once items).map
  | .bool _ | .int _ | .float _ | .str _ | .obj _ => by
    simp [Rule.decodeList?, DeclaresOnce]

theorem Rule.decodeItems_once : ∀ items : List Value, DeclaresOnce (Rule.decodeItems items)
  | [] => by
    rw [Rule.decodeItems]
    exact .ok []
  | v :: rest => by
    rw [Rule.decodeItems]
    exact (Rule.decode_once v).bind fun _ => (Rule.decodeItems_once rest).bind fun _ => .ok _

end

/-! ### States -/

theorem Pass.read_once {s : Pass} : DeclaresOnce (Pass.read key v s) := by
  unfold Pass.read
  split
  case h_9 => exact .ok _
  all_goals exact .bind (by simp) fun _ => .ok _

theorem Task.read_once {s : Task} : DeclaresOnce (Task.read key v s) := by
  unfold Task.read
  split
  case h_14 => exact .ok _
  all_goals exact .bind (by simp) fun _ => .ok _

theorem Wait.read_once {s : Wait} : DeclaresOnce (Wait.read key v s) := by
  unfold Wait.read
  split
  case h_10 => exact .ok _
  all_goals exact .bind (by simp) fun _ => .ok _

theorem Choice.read_once {s : Choice} : DeclaresOnce (Choice.read key v s) := by
  unfold Choice.read
  split
  case h_4 => exact (Rule.decodeList?_once v).bind fun _ => .ok _
  case h_6 => exact .ok _
  all_goals exact .bind (by simp) fun _ => .ok _

theorem Succeed.read_once {s : Succeed} : DeclaresOnce (Succeed.read key v s) := by
  unfold Succeed.read
  split
  case h_4 => exact .ok _
  all_goals exact .bind (by simp) fun _ => .ok _

theorem Fail.read_once {s : Fail} : DeclaresOnce (Fail.read key v s) := by
  unfold Fail.read
  split
  case h_6 => exact .ok _
  all_goals exact .bind (by simp) fun _ => .ok _

theorem Parallel.read_once {s : Parallel} : DeclaresOnce (Parallel.read key v s) := by
  unfold Parallel.read
  split
  case h_11 => exact .ok _
  all_goals exact .bind (by simp) fun _ => .ok _

theorem Map.read_once {s : Map} : DeclaresOnce (Map.read key v s) := by
  unfold Map.read
  split
  case h_14 => exact .ok _
  all_goals exact .bind (by simp) fun _ => .ok _

theorem Graph.read_once {g : Graph} : DeclaresOnce (Graph.read key v g) := by
  unfold Graph.read
  split
  case h_5 => exact .ok _
  all_goals exact .bind (by simp) fun _ => .ok _

theorem kindOf_once : DeclaresOnce (kindOf name v) := by
  unfold kindOf
  split
  · exact fun _ h => by cases h
  · split <;> exact fun _ h => by cases h
  · exact fun _ h => by cases h

/-! ### Graphs -/

/-- What is read as a graph inside the value declares no state more than once. -/
def InnerOnce (v : Value) : Prop :=
  ∀ w : Value, sizeOf w < sizeOf v → w.Distinct → DeclaresOnce (Graph.decode .inState w)

theorem InnerOnce.child {w : Value} (h : InnerOnce v) (hw : w.Child v) : InnerOnce w :=
  fun u hu hdistinct => h u (Nat.lt_trans hu hw.sizeOf_lt) hdistinct

theorem InnerOnce.graph {w : Value} (h : InnerOnce v) (hv : v.Distinct) (hw : w.Child v) :
    DeclaresOnce (Graph.decode .inState w) :=
  h w hw.sizeOf_lt (hw.distinct hv)

theorem Parallel.readWhole_once {p : Parallel.Whole} (h : InnerOnce v) (hv : v.Distinct) :
    DeclaresOnce (Parallel.readWhole key v p) := by
  unfold Parallel.readWhole
  split
  · exact .map (.optional (.list fun w hw => h.graph hv hw))
  · exact Parallel.read_once.map

theorem Map.readWhole_once {p : Map.Whole} (h : DeclaresOnce (Graph.decode .inState v)) :
    DeclaresOnce (Map.readWhole key v p) := by
  unfold Map.readWhole
  split
  · split
    · exact fun _ h => by cases h
    · exact .map (.optional h)
  · split
    · split
      · exact fun _ h => by cases h
      · exact .map (.optional .any)
    · exact Map.read_once.map

theorem State.decode_once (h : InnerOnce v) (hv : v.Distinct) :
    DeclaresOnce (State.decode name v) := by
  cases v with
  | obj entries =>
    rw [State.decode_obj]
    refine kindOf_once.bind fun kind => .within ?_ name
    cases kind with
    | pass => exact .map (.readEntries fun _ _ _ => Pass.read_once)
    | task => exact .map (.readEntries fun _ _ _ => Task.read_once)
    | wait => exact .map (.readEntries fun _ _ _ => Wait.read_once)
    | choice => exact .map (.readEntries fun _ _ _ => Choice.read_once)
    | succeed => exact .map (.readEntries fun _ _ _ => Succeed.read_once)
    | fail => exact .map (.readEntries fun _ _ _ => Fail.read_once)
    | parallel =>
      refine .map (.readEntries fun e he _ => ?_)
      have hchild : e.2.Child (.obj entries) := .entry he
      exact Parallel.readWhole_once (h.child hchild) (hchild.distinct hv)
    | map =>
      exact .map (.readEntries fun e he _ => Map.readWhole_once (h.graph hv (.entry he)))
  | _ => simp [State.decode, DeclaresOnce]

theorem States.decodeEntries_once {done : List (String × State)}
    (hnames : (done.map Prod.fst ++ entries.map Prod.fst).Nodup)
    (h : ∀ e ∈ entries, DeclaresOnce (State.decode e.1 e.2)) :
    DeclaresOnce (States.decodeEntries done entries) := by
  induction entries generalizing done with
  | nil =>
    rw [States.decodeEntries]
    exact .ok done
  | cons e rest ih =>
    obtain ⟨name, v⟩ := e
    obtain ⟨hv, hrest⟩ := List.forall_mem_cons.mp h
    have hnew : ¬ (done.lookup name).isSome = true := by
      rw [States.lookup_isSome]
      exact fun hmem => (List.nodup_append.mp hnames).2.2 name hmem name (by simp) rfl
    rw [States.decodeEntries, if_neg hnew]
    exact hv.bind fun s => ih (by simpa using hnames) hrest

theorem States.decode_once (h : InnerOnce v) (hv : v.Distinct) :
    DeclaresOnce (States.decode v) := by
  cases v with
  | obj entries =>
    cases hv with
    | obj hkeys hentries =>
      refine States.decodeEntries_once (by simpa using hkeys) fun e he => ?_
      exact State.decode_once (h.child (.entry he)) (hentries e he)
  | _ => exact fun _ h => by cases h

theorem Graph.once_of_inner (h : InnerOnce v) (hv : v.Distinct) :
    DeclaresOnce (Graph.decode setting v) := by
  rw [Graph.decode_eq]
  refine .recordOf fun key w g hw => ?_
  unfold Graph.readWhole
  split
  · exact .map (.optional (States.decode_once (h.child hw) (hw.distinct hv)))
  · exact Graph.read_once

/-- Where no key is given twice, no state is found to be declared more than once. -/
theorem Graph.decode_once (setting : Setting) (v : Value) (hv : v.Distinct) :
    DeclaresOnce (Graph.decode setting v) :=
  Graph.once_of_inner (fun w _ hw => Graph.decode_once .inState w hw) hv
termination_by sizeOf v

namespace Graph

variable {text : List Char}

/-- A text that starts with a brace is read as JSON. -/
theorem parse_of_brace (h : (trimStart text).head? = some '\x7b') :
    Graph.parse text = match Value.parse? text with
      | some v => Graph.ofValue v
      | none => .error .malformedJson :=
  if_pos (beq_iff_eq.mpr h)

theorem ofValue_once (hv : v.Distinct) (name : String) :
    Graph.ofValue v ≠ .error (.undecodable (.duplicateState name)) := by
  unfold Graph.ofValue
  split
  · rename_i entries
    have honce := Graph.decode_once .alone (.obj entries) hv name
    cases hdecode : Graph.decode .alone (.obj entries) with
    | ok g => exact fun h => by cases h
    | error e =>
      intro h
      cases h
      exact honce hdecode
  · exact fun h => by cases h

/-- A JSON text never makes a state appear twice. Whatever its objects repeat, it gives the document
of the text that has kept the last entry of every key alone. -/
theorem parse_settled {fields : List (String × Source)}
    (h : Source.ofText text = (.obj fields true, true)) :
    (Source.obj fields true).settled.Unrepeated ∧
    (∀ name, Graph.parse text ≠ .error (.undecodable (.duplicateState name))) ∧
    (Value.parse? text = none → Graph.parse text = .error .malformedJson) ∧
    ∀ v, Value.parse? text = some v →
      (Source.obj fields true).settled.toValue? Source.maxDepth = some v ∧
      Graph.parse text = Graph.ofValue v ∧
      ∀ text', Source.ofText text' = ((Source.obj fields true).settled, true) →
        Graph.parse text' = Graph.parse text := by
  have hparse := parse_of_brace (Source.ofText_obj h)
  refine ⟨Source.settled_unrepeated _, fun name => ?_, fun hnone => ?_, fun v hv => ?_⟩
  · rw [hparse]
    split
    · exact ofValue_once (Value.parse?_distinct ‹_›) name
    · exact fun h => by cases h
  · rw [hparse, hnone]
  · have hread : (Source.obj fields true).toValue? Source.maxDepth = some v := by
      rwa [Value.parse?, h] at hv
    have hsettled := Source.toValue?_settled _ _ hread
    have hsome : Graph.parse text = Graph.ofValue v := by rw [hparse, hv]
    refine ⟨hsettled, hsome, fun text' h' => ?_⟩
    have hv' : Value.parse? text' = some v := by
      rw [Value.parse?, h']
      exact hsettled
    rw [Source.settled] at h'
    rw [hsome, parse_of_brace (Source.ofText_obj h'), hv']

/-- The state A is declared twice. -/
def twiceText : List Char :=
  ("\x7b\"StartAt\":\"A\",\"States\":\x7b\"A\":\x7b\"Type\":\"Succeed\"\x7d," ++
    "\"A\":\x7b\"Type\":\"Fail\"\x7d\x7d\x7d").toList

def twiceSource : Source := .obj [
  ("StartAt", .scalar (.str "A")),
  ("States", .obj [
    ("A", .obj [("Type", .scalar (.str "Succeed"))] true),
    ("A", .obj [("Type", .scalar (.str "Fail"))] true)] true)] true

/-- The state A as it is declared last. -/
def onceText : List Char :=
  ("\x7b\"StartAt\":\"A\",\"States\":\x7b\"A\":\x7b\"Type\":\"Fail\"\x7d\x7d\x7d").toList

def onceSource : Source := .obj [
  ("StartAt", .scalar (.str "A")),
  ("States", .obj [("A", .obj [("Type", .scalar (.str "Fail"))] true)] true)] true

def onceValue : Value := .obj [
  ("StartAt", .str "A"), ("States", .obj [("A", .obj [("Type", .str "Fail")])])]

def onceGraph : Graph where
  startAt := some "A"
  states := some [("A", .fail {})]

/-- Of the two states only the second is there. -/
theorem twice_settled : Graph.parse twiceText = .ok onceGraph ∧
    Graph.parse onceText = .ok onceGraph := by
  have htwice : Source.ofText twiceText = (twiceSource, true) := by cbv
  have honce : Source.ofText onceText = (onceSource, true) := by
    unfold onceText onceSource
    cbv
  have hsettled : twiceSource.settled = onceSource := by
    simp [twiceSource, onceSource, Source.settled, Source.settledFields, collectFields, setField]
  have hread : twiceSource.toValue? (122 + 5) = some onceValue := by
    simp [twiceSource, onceValue, Source.toValue?, Source.fieldsToValues?, collectFields, setField]
  have hvalue : Value.parse? twiceText = some onceValue := by rwa [Value.parse?, htwice]
  obtain ⟨-, hgraph, hsame⟩ := (parse_settled htwice).2.2.2 onceValue hvalue
  have hlast : Graph.ofValue onceValue = .ok onceGraph := rfl
  have hagain := hsame onceText (honce.trans (by rw [← hsettled]; rfl))
  exact ⟨hgraph.trans hlast, hagain.trans (hgraph.trans hlast)⟩

end Graph

end Document

end StatesLanguage
