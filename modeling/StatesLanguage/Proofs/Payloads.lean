import Mathlib
import StatesLanguage.Proofs.Distinctness
import StatesLanguage.Proofs.Outcomes
import StatesLanguage.Template.Basic

/-! What a template means, told of the value that it is written as. Compiling the template changes
nothing about that, though parts without expressions are not looked into any more. -/
namespace StatesLanguage

namespace Template

/-- Why a value that is meant as a template has no payload: an expression in it cannot be read, or it
fails. -/
inductive Refusal where
  | unreadable (error : TemplateError)
  | failed (error : ExecutionError)

/-- The value of an expression, which is a path if it starts with a dollar sign and else an intrinsic
call. -/
def expressionValue (ids : Identifiers) (input context : Value) (key : String) :
    Value → Except Refusal Value
  | .str e =>
    if e.toList.head? = some '$' then do
      let p ← (Path.parse e).mapError fun error => .unreadable (.path error)
      (p.evaluate input context).mapError fun error => .failed (.ofPath .parameters error)
    else do
      let c ← (Intrinsic.Call.parse e).mapError fun error => .unreadable (.call error)
      (c.evaluate ids input context).mapError .failed
  | _ => .error (.unreadable (.notExpression key))

mutual

/-- The payload of a value that is meant as a template: an array item by item, an object entry by
entry, and all else as it is. -/
def interpret (ids : Identifiers) (input context : Value) : Value → Except Refusal Value
  | .obj fields => (interpretFields ids input context 0 [] fields).map .obj
  | .arr items => (interpretItems ids input context 0 items).map .arr
  | v => .ok v

/-- The entries of an object, put one after the other into what is done. An entry under a dynamic key
is put under the name of the key with the value of its expression. -/
def interpretFields (ids : Identifiers) (input context : Value) (n : Nat)
    (done : List (String × Value)) :
    List (String × Value) → Except Refusal (List (String × Value))
  | [] => .ok done
  | (key, v) :: rest =>
    match dynamicName? key with
    | some name => do
      let w ← expressionValue (ids.part n) input context key v
      interpretFields ids input context (n + 1) (setField name w done) rest
    | none => do
      let w ← interpret (ids.part n) input context v
      interpretFields ids input context (n + 1) (setField key w done) rest

def interpretItems (ids : Identifiers) (input context : Value) (n : Nat) :
    List Value → Except Refusal (List Value)
  | [] => .ok []
  | v :: rest => do
    let w ← interpret (ids.part n) input context v
    let ws ← interpretItems ids input context (n + 1) rest
    return w :: ws

end

variable {ids : Identifiers} {input context : Value}

theorem interpretFields_dynamic {key name : String} (h : dynamicName? key = some name)
    (ids : Identifiers) (n : Nat) (done : List (String × Value)) (v : Value)
    (rest : List (String × Value)) : interpretFields ids input context n done ((key, v) :: rest) =
      (do
        let w ← expressionValue (ids.part n) input context key v
        interpretFields ids input context (n + 1) (setField name w done) rest) := by
  rw [interpretFields, h]

theorem interpretFields_plain {key : String} (h : dynamicName? key = none) (ids : Identifiers)
    (n : Nat) (done : List (String × Value)) (v : Value) (rest : List (String × Value)) :
    interpretFields ids input context n done ((key, v) :: rest) =
      (do
        let w ← interpret (ids.part n) input context v
        interpretFields ids input context (n + 1) (setField key w done) rest) := by
  rw [interpretFields, h]

mutual

/-- A value without expressions means itself. -/
theorem interpret_static (ids : Identifiers) : ∀ v : Value, v.Distinct → isDynamic v = false →
    interpret ids input context v = .ok v
  | .obj fields, .obj hkeys hfields, h => by
    rw [isDynamic] at h
    have hread := interpretFields_static ids 0 fields [] hkeys hfields h
    rw [interpret, hread]
    rfl
  | .arr items, .arr hitems, h => by
    rw [isDynamic] at h
    rw [interpret, interpretItems_static ids 0 items hitems h]
    rfl
  | .null, _, _ | .bool _, _, _ | .int _, _, _ | .float _, _, _ | .str _, _, _ => by
    rw [interpret]
    all_goals simp

theorem interpretFields_static (ids : Identifiers) (n : Nat) :
    ∀ (fields done : List (String × Value)), ((done ++ fields).map Prod.fst).Nodup →
      (∀ e ∈ fields, e.2.Distinct) → anyDynamicField fields = false →
      interpretFields ids input context n done fields = .ok (done ++ fields)
  | [], done, _, _, _ => by rw [interpretFields, List.append_nil]
  | (key, v) :: rest, done, hkeys, hfields, h => by
    obtain ⟨hv, hrest⟩ := List.forall_mem_cons.mp hfields
    simp only [anyDynamicField, Bool.or_eq_false_iff] at h
    obtain ⟨⟨hname, hstatic⟩, hstatics⟩ := h
    rw [List.map_append, List.map_cons, List.nodup_middle, List.nodup_cons] at hkeys
    have hnew : key ∉ done.map Prod.fst := fun hmem => hkeys.1 (List.mem_append_left _ hmem)
    have hnext : ((done ++ [(key, v)] ++ rest).map Prod.fst).Nodup := by
      rw [List.append_assoc, List.map_append]
      exact List.nodup_middle.mpr (List.nodup_cons.mpr hkeys)
    rw [interpretFields_plain (Option.not_isSome_iff_eq_none.mp (by simp [hname])),
      interpret_static (ids.part n) v hv hstatic]
    refine (interpretFields_static ids (n + 1) rest _ ?_ hrest hstatics).trans ?_
    · rwa [setField_of_not_mem hnew]
    · rw [setField_of_not_mem hnew, List.append_assoc]
      rfl

theorem interpretItems_static (ids : Identifiers) (n : Nat) : ∀ items : List Value,
    (∀ v ∈ items, v.Distinct) → anyDynamic items = false →
    interpretItems ids input context n items = .ok items
  | [], _, _ => by rw [interpretItems]
  | v :: rest, hitems, h => by
    obtain ⟨hv, hrest⟩ := List.forall_mem_cons.mp hitems
    simp only [anyDynamic, Bool.or_eq_false_iff] at h
    rw [interpretItems, interpret_static (ids.part n) v hv h.1,
      interpretItems_static ids (n + 1) rest hrest h.2]
    rfl

end

/-- An expression that has been read has the value that it has when it is read on the spot. -/
theorem expressionValue_eq {key : String} {v : Value} {t : Template}
    (h : expression key v = .ok t) (ids : Identifiers) :
    expressionValue ids input context key v = (t.apply ids input context).mapError .failed := by
  cases v with
  | str e =>
    rw [expression] at h
    rw [expressionValue]
    split at h
    · rename_i rest heq
      obtain ⟨p, hp, rfl⟩ := map_ok (mapError_ok h)
      rw [if_pos (by rw [heq]; rfl), hp, apply]
      cases hvalue : p.evaluate input context <;> simp [hvalue, Except.mapError, bind, Except.bind]
    · rename_i hnone
      obtain ⟨c, hc, rfl⟩ := map_ok (mapError_ok h)
      have hhead : e.toList.head? ≠ some '$' := by
        intro heq
        obtain ⟨rest, hrest⟩ := List.head?_eq_some_iff.mp heq
        exact hnone rest hrest
      rw [if_neg hhead, hc, apply]
      rfl
  | _ => cases h

/-- One entry after another: when the value of the first and the entries behind it agree with their
templates, the whole does. -/
theorem applyEntries_agree {n : Nat} {key : String} {t : Template} {x : Except Refusal Value}
    {rest done : List (String × Value)} {entries : List (String × Template)}
    (hx : x = (t.apply (ids.part n) input context).mapError .failed)
    (hrest : ∀ done, interpretFields ids input context (n + 1) done rest =
      ((applyEntries ids input context (n + 1) entries).mapError .failed).map fun fs =>
        fs.foldl (fun fields entry => setField entry.1 entry.2 fields) done) :
    (do let w ← x; interpretFields ids input context (n + 1) (setField key w done) rest) =
      ((applyEntries ids input context n ((key, t) :: entries)).mapError .failed).map fun fs =>
        fs.foldl (fun fields entry => setField entry.1 entry.2 fields) done := by
  rw [hx, applyEntries]
  cases t.apply (ids.part n) input context with
  | error e => rfl
  | ok w =>
    refine (hrest (setField key w done)).trans ?_
    cases applyEntries ids input context (n + 1) entries <;> rfl

mutual

/-- The payload of a compiled template is what the value means that it was compiled from. -/
theorem interpret_compiled (ids : Identifiers) : ∀ (v : Value) (t : Template), v.Distinct →
    compile v = .ok t → interpret ids input context v = (t.apply ids input context).mapError .failed
  | .obj fields, t, hv, h => by
    rw [compile] at h
    split at h
    · obtain ⟨entries, hentries, rfl⟩ := map_ok h
      cases hv with
      | obj hkeys hfields =>
        rw [interpret, interpretFields_compiled ids 0 fields entries [] hfields hentries, apply]
        cases applyEntries ids input context 0 entries <;> rfl
    · rename_i hstatic
      cases h
      exact interpret_static ids _ hv (by rw [isDynamic]; exact Bool.eq_false_iff.mpr hstatic)
  | .arr items, t, hv, h => by
    rw [compile] at h
    split at h
    · obtain ⟨ts, hts, rfl⟩ := map_ok h
      cases hv with
      | arr hitems =>
        rw [interpret, interpretItems_compiled ids 0 items ts hitems hts, apply]
        cases applyItems ids input context 0 ts <;> rfl
    · rename_i hstatic
      cases h
      exact interpret_static ids _ hv (by rw [isDynamic]; exact Bool.eq_false_iff.mpr hstatic)
  | .null, t, hv, h | .bool _, t, hv, h | .int _, t, hv, h | .float _, t, hv, h
  | .str _, t, hv, h => by
    rw [compile] at h
    · cases h
      exact interpret_static ids _ hv rfl
    all_goals simp

theorem interpretFields_compiled (ids : Identifiers) (n : Nat) :
    ∀ (fields : List (String × Value)) (entries : List (String × Template))
      (done : List (String × Value)), (∀ e ∈ fields, e.2.Distinct) →
      compileFields fields = .ok entries → interpretFields ids input context n done fields =
        ((applyEntries ids input context n entries).mapError .failed).map fun fs =>
          fs.foldl (fun fields entry => setField entry.1 entry.2 fields) done
  | [], entries, done, _, h => by
    rw [compileFields] at h
    cases h
    rw [interpretFields, applyEntries]
    rfl
  | (key, v) :: rest, entries, done, hfields, h => by
    obtain ⟨hv, hrest⟩ := List.forall_mem_cons.mp hfields
    rw [compileFields] at h
    split at h
    · rename_i name hname
      obtain ⟨entry, hentry, h⟩ := bind_ok h
      obtain ⟨entries, hentries, h⟩ := bind_ok h
      obtain ⟨t, ht, rfl⟩ := map_ok hentry
      cases h
      rw [interpretFields_dynamic hname]
      exact applyEntries_agree (expressionValue_eq ht _) fun done =>
        interpretFields_compiled ids (n + 1) rest entries done hrest hentries
    · rename_i hname
      obtain ⟨entry, hentry, h⟩ := bind_ok h
      obtain ⟨entries, hentries, h⟩ := bind_ok h
      obtain ⟨t, ht, rfl⟩ := map_ok hentry
      cases h
      rw [interpretFields_plain hname]
      exact applyEntries_agree (interpret_compiled _ v t hv ht) fun done =>
        interpretFields_compiled ids (n + 1) rest entries done hrest hentries

theorem interpretItems_compiled (ids : Identifiers) (n : Nat) :
    ∀ (items : List Value) (ts : List Template), (∀ v ∈ items, v.Distinct) →
      compileItems items = .ok ts → interpretItems ids input context n items =
        (applyItems ids input context n ts).mapError .failed
  | [], ts, _, h => by
    rw [compileItems] at h
    cases h
    rw [interpretItems, applyItems]
    rfl
  | v :: rest, ts, hitems, h => by
    obtain ⟨hv, hrest⟩ := List.forall_mem_cons.mp hitems
    rw [compileItems] at h
    obtain ⟨t, ht, h⟩ := bind_ok h
    obtain ⟨ts', hts, h⟩ := bind_ok h
    cases h
    rw [interpretItems, interpret_compiled (ids.part n) v t hv ht,
      interpretItems_compiled ids (n + 1) rest ts' hrest hts, applyItems]
    cases t.apply (ids.part n) input context with
    | error e => rfl
    | ok w => cases applyItems ids input context (n + 1) ts' <;> rfl

end

theorem compile_static {v : Value} (h : isDynamic v = false) : compile v = .ok (.literal v) := by
  cases v with
  | obj fields =>
    rw [isDynamic] at h
    rw [compile, if_neg (Bool.eq_false_iff.mp h)]
  | arr items =>
    rw [isDynamic] at h
    rw [compile, if_neg (Bool.eq_false_iff.mp h)]
  | _ =>
    rw [compile]
    all_goals simp

/-- A compiled template gives what the value means that it was compiled from, or fails as that does.
What has no expressions is its own payload. -/
theorem compiled_meaning {v : Value} {t : Template} (hv : v.Distinct) (h : compile v = .ok t) :
    (∀ ids input context,
      interpret ids input context v = (t.apply ids input context).mapError .failed) ∧
    (isDynamic v = false → t = .literal v ∧
      ∀ ids input context, interpret ids input context v = .ok v) := by
  refine ⟨fun ids input context => interpret_compiled ids v t hv h, fun hstatic => ⟨?_, ?_⟩⟩
  · have hliteral : Except.ok t = Except.ok (.literal v) := h.symm.trans (compile_static hstatic)
    exact Except.ok.inj hliteral
  · exact fun ids input context => interpret_static ids v hv hstatic

/-- An order whose total is given twice, the second time as an expression. -/
def orderText : String :=
  "\x7b\"total\": 0, \"lines\": [\x7b\"buyer.$\": \"$['name']\"\x7d, \x7b\"paid\": [true]\x7d], " ++
    "\"total.$\": \"States.ArrayLength($.items)\"\x7d"

def order : Value :=
  .obj [("total", .int 0),
    ("lines", .arr [.obj [("buyer.$", .str "$['name']")], .obj [("paid", .arr [.bool true])]]),
    ("total.$", .str "States.ArrayLength($.items)")]

def orderTemplate : Template :=
  .object [("total", .literal (.int 0)),
    ("lines", .array
      [.object [("buyer", .path ⟨"$['name']", false, [.select (.key (.field "name"))],
        .reference [.field "name"]⟩)],
      .literal (.obj [("paid", .arr [.bool true])])]),
    ("total", .call ⟨.arrayLength, [.path ⟨"$.items", false, [.select (.key (.field "items"))],
      .reference [.field "items"]⟩]⟩)]

/-- The second total takes the place of the first one. -/
theorem order_meaning : order.Distinct ∧ compile order = .ok orderTemplate ∧
    (∀ ids, interpret ids (.obj [("name", .str "Ada"), ("items", .arr [.int 1, .int 2])])
      .null order = .ok (.obj [("total", .int 2),
        ("lines", .arr [.obj [("buyer", .str "Ada")], .obj [("paid", .arr [.bool true])]])])) ∧
    Value.Distinct (.arr [.bool true]) ∧ isDynamic (.arr [.bool true]) = false ∧
    ∀ ids input context,
      interpret ids input context (.arr [.bool true]) = .ok (.arr [.bool true]) := by
  have hread : Value.parse? orderText.toList = some order := by cbv
  have horder : order.Distinct := Value.parse?_distinct hread
  have hcompile : compile order = .ok orderTemplate := by cbv
  have hpaid : Value.Distinct (.arr [.bool true]) := .arr (List.forall_mem_singleton.mpr .bool)
  refine ⟨horder, hcompile, fun ids => ?_, hpaid, rfl, ?_⟩
  · rw [(compiled_meaning horder hcompile).1]
    cbv
  · exact ((compiled_meaning hpaid (compile_static rfl)).2 rfl).2

end Template

end StatesLanguage
