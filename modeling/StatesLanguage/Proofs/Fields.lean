import StatesLanguage.Document.Decode
import StatesLanguage.Document.Encode
import StatesLanguage.Proofs.Outcomes

/-! Writing the fields of a record and reading them again. A value *returns* when what is written of
it is read as the same value; all that has been read returns, unless it was null from the start. -/
namespace StatesLanguage.Document

open Decoder

section

variable {α β : Type} {decode : Decoder β} {encode : β → Value} {x : β} {v : Value}

/-- What is written of a value is not null and is read as the value again. -/
def Returns (decode : Decoder β) (encode : β → Value) (x : β) : Prop :=
  encode x ≠ .null ∧ decode (encode x) = .ok x

/-- What is read of `v` returns. -/
def StableAt (decode : Decoder β) (encode : β → Value) (v : Value) : Prop :=
  ∀ x, decode v = .ok x → Returns decode encode x

/-- A list, written item by item. -/
def encodeList (encode : β → Value) (xs : List β) : Value := .arr (xs.map encode)

theorem returns_string (s : String) : Returns string .str s := ⟨nofun, rfl⟩

theorem returns_number (x : Float) : Returns number .float x := ⟨nofun, rfl⟩

theorem returns_any (h : v ≠ .null) : Returns any id v := ⟨h, rfl⟩

theorem stable_natural (shape : Shape) (limit : Nat) :
    StableAt (natural shape limit) Value.ofNat v := by
  intro n h
  cases v with
  | int i =>
    simp only [natural] at h
    split at h
    · rename_i hlimit
      cases h
      refine ⟨by simp [Value.ofNat], ?_⟩
      have hnat : (0 : Int) ≤ i.toNat ∧ (i.toNat : Int) ≤ limit := by omega
      simp only [Value.ofNat, natural, hnat, and_self, if_true, Int.toNat_natCast]
    · cases h
  | _ => cases h

theorem sizeOf_item {items : List Value} (h : v ∈ items) : sizeOf v < sizeOf (Value.arr items) := by
  have hsize := List.sizeOf_lt_of_mem h
  simp only [Value.arr.sizeOf_spec]
  omega

theorem sizeOf_entry {entries : List (String × Value)} {e : String × Value} (h : e ∈ entries) :
    sizeOf e.2 < sizeOf (Value.obj entries) := by
  have hsize := List.sizeOf_lt_of_mem h
  obtain ⟨key, w⟩ := e
  simp only [Prod.mk.sizeOf_spec, Value.obj.sizeOf_spec] at hsize ⊢
  omega

theorem mapM_returns {xs : List β} (h : ∀ x ∈ xs, Returns decode encode x) :
    (xs.map encode).mapM decode = .ok xs := by
  induction xs with
  | nil => rfl
  | cons x rest ih =>
    obtain ⟨hx, hrest⟩ := List.forall_mem_cons.mp h
    rw [List.map_cons, List.mapM_cons, hx.2, ih hrest]
    rfl

theorem returns_list {xs : List β} (h : ∀ x ∈ xs, Returns decode encode x) :
    Returns (list decode) (encodeList encode) xs :=
  ⟨nofun, mapM_returns h⟩

/-- The items of a list that has been read return when each of them does. -/
theorem list_returns {xs : List β} (h : list decode v = .ok xs)
    (hv : ∀ w, sizeOf w < sizeOf v → StableAt decode encode w) :
    ∀ x ∈ xs, Returns decode encode x := by
  intro x hx
  cases v with
  | arr items =>
    obtain ⟨w, hw, hread⟩ := mapM_ok h hx
    exact hv w (sizeOf_item hw) x hread
  | _ => cases h

theorem stable_list (hv : ∀ w, sizeOf w < sizeOf v → StableAt decode encode w) :
    StableAt (list decode) (encodeList encode) v :=
  fun _ h => returns_list (list_returns h hv)

theorem optional_returns {o : Option β} (h : optional decode v = .ok o)
    (hv : v ≠ .null → StableAt decode encode v) : ∀ x ∈ o, Returns decode encode x := by
  rintro x rfl
  cases v with
  | null => cases h
  | _ =>
    obtain ⟨y, hread, heq⟩ := map_ok h
    cases heq
    exact hv nofun _ hread

end

section

variable {α β : Type} {decode : Decoder β} {encode : β → Value} {read : FieldReader α}
  {r r' r'' : α} {key : String} {xs ys entries : List (String × Value)}

theorem readEntries_cons (read : FieldReader α) (r : α) (key : String) (v : Value)
    (rest : List (String × Value)) :
    readEntries read r ((key, v) :: rest) = read key v r >>= fun r => readEntries read r rest :=
  rfl

theorem reads_append (hxs : readEntries read r xs = .ok r')
    (hys : readEntries read r' ys = .ok r'') : readEntries read r (xs ++ ys) = .ok r'' := by
  unfold readEntries at hxs hys ⊢
  rw [List.foldlM_append, hxs]
  exact hys

theorem reads_single {v : Value} (h : read key v r = .ok r') :
    readEntries read r [(key, v)] = .ok r' := by
  simp only [readEntries, List.foldlM_cons, List.foldlM_nil, h]
  rfl

/-- What holds before any entry is read and is kept by each of them holds after all are read. -/
theorem readEntries_keeps {P : α → Prop} (h : readEntries read r entries = .ok r') (hr : P r)
    (hkeeps : ∀ e ∈ entries, ∀ r r', P r → read e.1 e.2 r = .ok r' → P r') : P r' := by
  induction entries generalizing r with
  | nil =>
    cases h
    exact hr
  | cons e rest ih =>
    obtain ⟨hfirst, hrest⟩ := List.forall_mem_cons.mp hkeeps
    obtain ⟨r₁, hread, h⟩ := bind_ok h
    exact ih h (hfirst r r₁ hr hread) hrest

/-- The same of a record, whether it is given as an object or as an array. -/
theorem recordOf_keeps {name : String} {fields : List String} {setting : Setting} {v : Value}
    {P : α → Prop} (h : recordOf name fields read r setting v = .ok r') (hr : P r)
    (hkeeps : ∀ key w r r', sizeOf w < sizeOf v → P r → read key w r = .ok r' → P r') : P r' := by
  cases v with
  | obj entries =>
    exact readEntries_keeps h hr fun e he r r' => hkeeps e.1 e.2 r r' (sizeOf_entry he)
  | arr items =>
    obtain ⟨record, hread, h⟩ := bind_ok h
    split at h
    · cases h
    · cases h
      exact readEntries_keeps hread hr fun e he r r' =>
        hkeeps e.1 e.2 r r' (sizeOf_item (List.of_mem_zip he).2)
  | _ => cases h

/-! Each of the following puts one field in place, given how the reader takes it (`hread`) and that it
is not there yet (`hblank`). -/

theorem optional_encode {x : β} (h : Returns decode encode x) :
    optional decode (encode x) = .ok (some x) := by
  unfold Decoder.optional
  split
  · exact absurd ‹_› h.1
  · rw [h.2]
    rfl

theorem reads_optional (set : α → Option β → α)
    (hread : ∀ v, read key v r = optional decode v >>= fun x => .ok (set r x))
    (hblank : set r none = r) {o : Option β} (ho : ∀ x ∈ o, Returns decode encode x) :
    readEntries read r (field key (o.map encode)) = .ok (set r o) := by
  cases o with
  | none => exact congrArg Except.ok hblank.symm
  | some x =>
    refine reads_single ?_
    rw [hread, optional_encode (ho x rfl)]
    rfl

theorem reads_string (set : α → Option String → α)
    (hread : ∀ v, read key v r = optional string v >>= fun x => .ok (set r x))
    (hblank : set r none = r) {o : Option String} :
    readEntries read r (stringField key o) = .ok (set r o) :=
  reads_optional set hread hblank fun s _ => returns_string s

theorem reads_number (set : α → Option Float → α)
    (hread : ∀ v, read key v r = optional number v >>= fun x => .ok (set r x))
    (hblank : set r none = r) {o : Option Float} :
    readEntries read r (floatField key o) = .ok (set r o) :=
  reads_optional set hread hblank fun x _ => returns_number x

theorem reads_any (set : α → Option Value → α)
    (hread : ∀ v, read key v r = optional any v >>= fun x => .ok (set r x))
    (hblank : set r none = r) {o : Option Value} (ho : ∀ x ∈ o, Returns any id x) :
    readEntries read r (field key o) = .ok (set r o) := by
  simpa only [Option.map_id, id] using reads_optional set hread hblank ho

theorem reads_path (set : α → PathField → α)
    (hread : ∀ v, read key v r = path v >>= fun x => .ok (set r x))
    (hblank : set r .absent = r) {f : PathField} :
    readEntries read r (pathField key f) = .ok (set r f) := by
  cases f with
  | absent => exact congrArg Except.ok hblank.symm
  | null | path text =>
    refine reads_single ?_
    rw [hread]
    rfl

theorem reads_list (set : α → List β → α)
    (hread : ∀ v, read key v r = list decode v >>= fun x => .ok (set r x))
    (hblank : set r [] = r) {xs : List β} (hxs : ∀ x ∈ xs, Returns decode encode x) :
    readEntries read r (listField key (xs.map encode)) = .ok (set r xs) := by
  unfold listField
  split
  · rename_i hempty
    rw [List.isEmpty_iff, List.map_eq_nil_iff] at hempty
    rw [hempty]
    exact congrArg Except.ok hblank.symm
  · refine reads_single ?_
    rw [hread, list, mapM_returns hxs]
    rfl

theorem reads_names (set : α → List String → α)
    (hread : ∀ v, read key v r = list string v >>= fun x => .ok (set r x)) {names : List String} :
    readEntries read r (namesField key names) = .ok (set r names) := by
  refine reads_single ?_
  rw [hread, list, mapM_returns fun s _ => returns_string s]
  rfl

theorem reads_transition (set : α → Transition → α)
    (hnext : ∀ v r t, read "Next" v (set r t) =
      optional string v >>= fun x => .ok (set r { t with next := x }))
    (hend : ∀ v r t, read "End" v (set r t) =
      boolean v >>= fun x => .ok (set r { t with isEnd := x }))
    (hblank : set r {} = r) {t : Transition} :
    readEntries read r t.encode = .ok (set r t) := by
  have hfirst := reads_string (r := set r {}) (o := t.next)
    (fun _ x => set r { next := x }) (fun v => hnext v r {}) rfl
  rw [hblank] at hfirst
  refine reads_append hfirst (reads_single ?_)
  rw [hend]
  rfl

theorem reads_paths (set : α → Paths → α)
    (hinput : ∀ v r p, read "InputPath" v (set r p) =
      path v >>= fun x => .ok (set r { p with input := x }))
    (houtput : ∀ v r p, read "OutputPath" v (set r p) =
      path v >>= fun x => .ok (set r { p with output := x }))
    (hblank : set r {} = r) {p : Paths} :
    readEntries read r p.encode = .ok (set r p) := by
  have hfirst := reads_path (r := set r {}) (f := p.input)
    (fun _ x => set r { input := x }) (fun v => hinput v r {}) rfl
  rw [hblank] at hfirst
  exact reads_append hfirst (reads_path (fun _ x => set r { input := p.input, output := x })
    (fun v => houtput v r { input := p.input }) rfl)

end

end StatesLanguage.Document
