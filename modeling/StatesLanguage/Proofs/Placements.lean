import Mathlib.Data.List.Basic
import StatesLanguage.Path.Basic

/-! Reference paths as lenses. What a path sets is what it then selects, a later setting replaces an
earlier one, to set what is already there changes nothing, and whatever another path leads to is left
as it was. Each law is shown for a single key first and then by induction along the keys. -/
namespace StatesLanguage.Path

variable {text : String} {k l : Key} {ks ls : List Key} {put : Value → Value}
  {c d d' u v w context : Value}

theorem position?_lt {i : Int} {length n : Nat} (h : position? i length = some n) : n < length := by
  rw [position?, Option.ite_none_right_eq_some] at h
  obtain ⟨⟨_, hlt⟩, hn⟩ := h
  cases hn
  omega

theorem position?_ofNat {length n : Nat} (h : n < length) : position? n length = some n := by
  have hn : ¬ (n : Int) < 0 := by omega
  rw [position?, if_neg hn, if_pos ⟨by omega, by omega⟩, Int.toNat_natCast]

namespace Key

/-- How a document takes a value at the place of a key, if it has such a place: an object has one for
every name, an array only for the elements that it has. -/
def place? : Key → Value → Option (Value → Value)
  | .field name, .obj fields => some fun v => .obj (setField name v fields)
  | .index i, .arr items => (position? i items.length).map fun n v => .arr (items.set n v)
  | _, _ => none

/-- What is set below a key when the rest of a path goes on there: the value that the key selects, or
a new object. -/
def below (k : Key) (d : Value) : Value := (k.get? d).getD (.obj [])

/-- The key with its position counted from the start of the array, so that keys for one element are
equal. -/
def resolve : Key → Value → Key
  | .index i, .arr items => .index (((position? i items.length).map Int.ofNat).getD i)
  | k, _ => k

theorem place?_cases (h : k.place? d = some put) :
    (∃ name fields, k = .field name ∧ d = .obj fields ∧
      put = fun v => .obj (setField name v fields)) ∨
    (∃ i items n, k = .index i ∧ d = .arr items ∧ position? i items.length = some n ∧
      put = fun v => .arr (items.set n v)) := by
  cases k with
  | field name =>
    cases d with
    | obj fields => exact .inl ⟨name, fields, rfl, rfl, (Option.some.inj h).symm⟩
    | _ => cases h
  | index i =>
    cases d with
    | arr items =>
      obtain ⟨n, hn, rfl⟩ := Option.map_eq_some_iff.mp h
      exact .inr ⟨i, items, n, rfl, rfl, hn, rfl⟩
    | _ => cases h

/-- What is put at a place is there. -/
theorem get?_put (h : k.place? d = some put) : k.get? (put v) = some v := by
  obtain ⟨name, fields, rfl, rfl, rfl⟩ | ⟨i, items, n, rfl, rfl, hn, rfl⟩ := place?_cases h
  · exact (lookup_setField ..).trans (if_pos rfl)
  · simp [get?, hn, position?_lt hn]

/-- A place takes the next value as if it had not taken one before. -/
theorem place?_put (h : k.place? d = some put) : k.place? (put v) = some put := by
  obtain ⟨name, fields, rfl, rfl, rfl⟩ | ⟨i, items, n, rfl, rfl, hn, rfl⟩ := place?_cases h
  · simp only [place?, setField_setField]
  · simp [place?, hn]

/-- A value has a place where it is selected, and nothing changes when it is put there again. -/
theorem place?_of_get? (h : k.get? d = some c) : ∃ put, k.place? d = some put ∧ put c = d := by
  cases k with
  | field name =>
    cases d with
    | obj fields => exact ⟨_, rfl, congrArg Value.obj (setField_of_lookup h)⟩
    | _ => cases h
  | index i =>
    cases d with
    | arr items =>
      obtain ⟨n, hn, hc⟩ := Option.bind_eq_some_iff.mp h
      obtain ⟨hlt, rfl⟩ := List.getElem?_eq_some_iff.mp hc
      exact ⟨_, congrArg (Option.map _) hn, congrArg Value.arr (List.set_getElem_self hlt)⟩
    | _ => cases h

/-- Only the length of an array tells which of its elements a key is for, and it stays. -/
theorem resolve_put (h : k.place? d = some put) : l.resolve (put v) = l.resolve d := by
  obtain ⟨name, fields, rfl, rfl, rfl⟩ | ⟨i, items, n, rfl, rfl, hn, rfl⟩ := place?_cases h
  · cases l <;> rfl
  · cases l
    · rfl
    · simp only [resolve, List.length_set]

theorem get?_resolve : (k.resolve d).get? d = k.get? d := by
  cases k <;> cases d <;> try rfl
  case index.arr i items =>
    cases hn : position? i items.length with
    | none => simp only [resolve, get?, hn, Option.map_none, Option.getD_none]
    | some n =>
      simp only [resolve, get?, hn, Option.map_some, Option.getD_some, Int.ofNat_eq_natCast,
        position?_ofNat (position?_lt hn)]

theorem get?_congr (h : k.resolve d = l.resolve d) : k.get? d = l.get? d := by
  rw [← get?_resolve, h, get?_resolve]

/-- What is put at a place is of no concern to a key for another one. -/
theorem get?_put_of_ne (h : k.place? d = some put) (hne : k.resolve d ≠ l.resolve d) :
    l.get? (put v) = l.get? d := by
  obtain ⟨name, fields, rfl, rfl, rfl⟩ | ⟨i, items, n, rfl, rfl, hn, rfl⟩ := place?_cases h
  · cases l with
    | field name' =>
      have hname : name' ≠ name := fun heq => hne (by rw [heq])
      exact (lookup_setField ..).trans (if_neg hname)
    | index j => rfl
  · cases l with
    | field name' => rfl
    | index j =>
      cases hm : position? j items.length with
      | none => simp [get?, hm]
      | some m =>
        have hnm : n ≠ m := fun heq => hne (by simp [resolve, hn, hm, heq])
        simp [get?, hm, List.getElem?_set_ne hnm]

end Key

theorem setAt_cons (h : k.place? d = some put) :
    setAt text v (k :: ks) d = (setAt text v ks (k.below d)).map put := by
  obtain ⟨name, fields, rfl, rfl, rfl⟩ | ⟨i, items, n, rfl, rfl, hn, rfl⟩ := Key.place?_cases h
  · rfl
  · simp only [setAt, hn, Key.below, Key.get?, Option.bind_some]
    rw [List.getElem?_eq_getElem (position?_lt hn), List.getD_eq_getElem?_getD,
      List.getElem?_eq_getElem (position?_lt hn)]
    rfl

theorem setAt_cons_of_none (h : k.place? d = none) :
    ∃ err, setAt text v (k :: ks) d = .error err := by
  cases k with
  | field name =>
    cases d with
    | obj fields => cases h
    | _ => exact ⟨_, rfl⟩
  | index i =>
    cases d with
    | arr items =>
      refine ⟨.outOfBounds text i, ?_⟩
      simp only [setAt, Option.map_eq_none_iff.mp h]
    | _ => exact ⟨_, rfl⟩

theorem setAt_cons_ok (h : setAt text v (k :: ks) d = .ok d') :
    ∃ put c, k.place? d = some put ∧ setAt text v ks (k.below d) = .ok c ∧ put c = d' := by
  cases hput : k.place? d with
  | none =>
    obtain ⟨err, herr⟩ := setAt_cons_of_none hput
    exact nomatch herr.symm.trans h
  | some put =>
    rw [setAt_cons hput] at h
    cases hc : setAt text v ks (k.below d) with
    | error err => rw [hc] at h; cases h
    | ok c => rw [hc] at h; exact ⟨put, c, rfl, rfl, Except.ok.inj h⟩

theorem getAt?_setAt (h : setAt text v ks d = .ok d') : getAt? ks d' = some v := by
  induction ks generalizing d d' with
  | nil => cases h; rfl
  | cons k ks ih =>
    obtain ⟨put, c, hput, hc, rfl⟩ := setAt_cons_ok h
    rw [getAt?, Key.get?_put hput, Option.bind_some, ih hc]

/-- The second setting finds the objects that the first has made, and undoes it. -/
theorem setAt_setAt (h : setAt text v ks d = .ok d') :
    setAt text w ks d' = setAt text w ks d := by
  induction ks generalizing d d' with
  | nil => rfl
  | cons k ks ih =>
    obtain ⟨put, c, hput, hc, rfl⟩ := setAt_cons_ok h
    have hbelow : k.below (put c) = c := by rw [Key.below, Key.get?_put hput, Option.getD_some]
    rw [setAt_cons (Key.place?_put hput), setAt_cons hput, hbelow, ih hc]

theorem setAt_of_getAt? (h : getAt? ks d = some u) :
    setAt text u ks d = .ok d ∧ ∃ d', setAt text v ks d = .ok d' := by
  induction ks generalizing d with
  | nil => cases h; exact ⟨rfl, v, rfl⟩
  | cons k ks ih =>
    obtain ⟨c, hget, hc⟩ := Option.bind_eq_some_iff.mp h
    obtain ⟨put, hput, hsame⟩ := Key.place?_of_get? hget
    have hbelow : k.below d = c := by rw [Key.below, hget, Option.getD_some]
    obtain ⟨hself, c', hother⟩ := ih hc
    rw [setAt_cons hput, setAt_cons hput, hbelow, hself, hother]
    exact ⟨congrArg Except.ok hsame, put c', rfl⟩

/-- In that document the second list of keys leaves the first at some key: another field, or a
position for another element of the array. Up to there both lead to the same places, of which those
that are not there yet would be new objects. -/
inductive LeadsAway : List Key → List Key → Value → Prop where
  | here {k l : Key} {ks ls : List Key} {d : Value} : k.resolve d ≠ l.resolve d →
    LeadsAway (k :: ks) (l :: ls) d
  | beyond {k l : Key} {ks ls : List Key} {d : Value} : k.resolve d = l.resolve d →
    LeadsAway ks ls (k.below d) → LeadsAway (k :: ks) (l :: ls) d

/-- A new object holds nothing that could be reached by leading away. -/
theorem LeadsAway.getAt?_empty (h : LeadsAway ks ls d) : getAt? ls (.obj []) = none := by
  have hget (l : Key) : l.get? (.obj []) = none := by cases l <;> rfl
  cases h <;> rw [getAt?, hget, Option.bind_none]

theorem getAt?_setAt_of_leadsAway (hl : LeadsAway ks ls d) (h : setAt text v ks d = .ok d') :
    getAt? ls d' = getAt? ls d := by
  induction hl generalizing d' with
  | here hne =>
    obtain ⟨put, c, hput, -, rfl⟩ := setAt_cons_ok h
    rw [getAt?, getAt?, Key.get?_put_of_ne hput hne]
  | @beyond k l ks ls d heq hl ih =>
    obtain ⟨put, c, hput, hc, rfl⟩ := setAt_cons_ok h
    have heq' : k.resolve (put c) = l.resolve (put c) := by
      rw [Key.resolve_put hput, Key.resolve_put hput, heq]
    have hafter : l.get? (put c) = some c := (Key.get?_congr heq').symm.trans (Key.get?_put hput)
    have hnew : getAt? ls c = getAt? ls (k.below d) := ih hc
    rw [getAt?, getAt?, hafter, Option.bind_some, hnew, ← Key.get?_congr heq, Key.below]
    -- where there was nothing, the second path still finds nothing
    cases hget : k.get? d with
    | none => rw [Option.getD_none, Option.bind_none, hl.getAt?_empty]
    | some c₀ => rw [Option.getD_some, Option.bind_some]

/-- The path leaves another one at some key, on its way through that document. -/
def Leaves (q p : Path) (d : Value) : Prop :=
  ∃ ks ls, p.route = .reference ks ∧ q.route = .reference ls ∧ LeadsAway ks ls d

theorem set_of_route {p : Path} (hp : p.inContext = false) (h : p.route = .reference ks) :
    p.set d v = setAt p.text v ks d := by
  simp only [set, hp, h]

theorem evaluate_of_route {p : Path} (hp : p.inContext = false) (h : p.route = .reference ks) :
    p.evaluate d context = ((getAt? ks d).map .ok).getD (.error (.unresolved p.text)) := by
  rw [evaluate, hp, h]
  cases hd : getAt? ks d <;> simp [hd]

theorem evaluate_ok_iff {p : Path} (hp : p.inContext = false) (h : p.route = .reference ks) :
    p.evaluate d context = .ok u ↔ getAt? ks d = some u := by
  rw [evaluate_of_route hp h]
  cases getAt? ks d <;> simp

theorem Leaves.evaluate_eq {p q : Path} (hp : p.inContext = false) (hq : q.Leaves p d)
    (h : p.set d v = .ok d') : q.evaluate d' context = q.evaluate d context := by
  obtain ⟨ks, ls, hks, hls, hl⟩ := hq
  rw [set_of_route hp hks] at h
  cases hroot : q.inContext with
  | true => simp only [evaluate, hroot, if_true]
  | false =>
    rw [evaluate_of_route hroot hls, evaluate_of_route hroot hls, getAt?_setAt_of_leadsAway hl h]

/-- A reference path into the data is a lens. After it has set a value it selects that value, the
next value is set as if this one had not been, and every reference path that leaves it selects what
it did before, or nothing as before. Where it selects a value, setting that value changes nothing,
and any other can be set. -/
theorem set_lens (p : Path) (hroot : p.inContext = false) (href : p.isReferencePath = true)
    (d context : Value) :
    (∀ v d', p.set d v = .ok d' →
      p.evaluate d' context = .ok v ∧ (∀ w, p.set d' w = p.set d w) ∧
        ∀ q : Path, q.Leaves p d → q.evaluate d' context = q.evaluate d context) ∧
    ∀ u, p.evaluate d context = .ok u → p.set d u = .ok d ∧ ∀ v, ∃ d', p.set d v = .ok d' := by
  obtain ⟨ks, hks⟩ : ∃ ks, p.route = .reference ks := by
    cases h : p.route with
    | reference ks => exact ⟨ks, rfl⟩
    | query q => rw [isReferencePath, h] at href; cases href
  refine ⟨fun v d' h => ?_, fun u h => ?_⟩
  · have hset : setAt p.text v ks d = .ok d' := (set_of_route hroot hks).symm.trans h
    refine ⟨(evaluate_ok_iff hroot hks).mpr (getAt?_setAt hset), fun w => ?_,
      fun q hq => hq.evaluate_eq hroot h⟩
    rw [set_of_route hroot hks, set_of_route hroot hks, setAt_setAt hset]
  · have hget : getAt? ks d = some u := (evaluate_ok_iff hroot hks).mp h
    refine ⟨(set_of_route hroot hks).trans (setAt_of_getAt? (v := u) hget).1, fun v => ?_⟩
    rw [set_of_route hroot hks]
    exact (setAt_of_getAt? hget).2

section

/-- The text `$.orders[-1].total`. -/
def lastTotal : Path := ⟨"$.orders[-1].total", false,
  [.select (.key (.field "orders")), .select (.key (.index (-1))),
    .select (.key (.field "total"))],
  .reference [.field "orders", .index (-1), .field "total"]⟩

/-- The text `$.orders[0].total`. -/
def firstTotal : Path := ⟨"$.orders[0].total", false,
  [.select (.key (.field "orders")), .select (.key (.index 0)), .select (.key (.field "total"))],
  .reference [.field "orders", .index 0, .field "total"]⟩

/-- Orders with these totals. -/
def ordersOf (totals : List Int) : Value :=
  .obj [("orders", .arr (totals.map fun n => .obj [("total", .int n)]))]

/-- The total of the last order is set without a change to that of the first, although both paths
lead through the same array; when there is just one order, both are the same place. -/
theorem lastTotal_lens :
    lastTotal.set (ordersOf [1, 2]) (.int 5) = .ok (ordersOf [1, 5]) ∧
    lastTotal.evaluate (ordersOf [1, 5]) .null = .ok (.int 5) ∧
    lastTotal.set (ordersOf [1, 5]) (.int 2) = .ok (ordersOf [1, 2]) ∧
    firstTotal.Leaves lastTotal (ordersOf [1, 2]) ∧
    firstTotal.evaluate (ordersOf [1, 5]) .null = .ok (.int 1) ∧
    lastTotal.set (ordersOf [1, 2]) (.int 2) = .ok (ordersOf [1, 2]) ∧
    ¬ firstTotal.Leaves lastTotal (ordersOf [1]) := by
  have hlens := set_lens lastTotal rfl rfl (ordersOf [1, 2]) .null
  have hset : lastTotal.set (ordersOf [1, 2]) (.int 5) = .ok (ordersOf [1, 5]) := rfl
  have hleaves : firstTotal.Leaves lastTotal (ordersOf [1, 2]) :=
    ⟨_, _, rfl, rfl, .beyond rfl (.here (by decide))⟩
  obtain ⟨hget, hagain, hframe⟩ := hlens.1 _ _ hset
  refine ⟨hset, hget, (hagain _).trans rfl, hleaves, (hframe _ hleaves).trans rfl,
    (hlens.2 (.int 2) rfl).1, ?_⟩
  rintro ⟨ks, ls, hks, hls, hl⟩
  cases hks
  cases hls
  cases hl with
  | here hne => exact hne rfl
  | beyond _ hl =>
    cases hl with
    | here hne => exact hne (by decide)
    | beyond _ hl =>
      cases hl with
      | here hne => exact hne rfl
      | beyond _ hl => cases hl

end

end StatesLanguage.Path
