import StatesLanguage.Json.Source

/-! Values in which no object gives a key twice. All that is read from a text is such a value, since
the last entry of a key takes the place of the ones before it. -/
namespace StatesLanguage

/-- No object of the value gives a key twice. -/
inductive Value.Distinct : Value → Prop where
  | null : Distinct .null
  | bool {b : Bool} : Distinct (.bool b)
  | int {n : Int} : Distinct (.int n)
  | float {x : Float} : Distinct (.float x)
  | str {s : String} : Distinct (.str s)
  | arr {items : List Value} : (∀ v ∈ items, v.Distinct) → Distinct (.arr items)
  | obj {fields : List (String × Value)} : (fields.map Prod.fst).Nodup →
    (∀ e ∈ fields, e.2.Distinct) → Distinct (.obj fields)

theorem setField_of_not_mem {α : Type} {key : String} {v : α} {fields : List (String × α)}
    (h : key ∉ fields.map Prod.fst) : setField key v fields = fields ++ [(key, v)] := by
  induction fields with
  | nil => rfl
  | cons e rest ih =>
    rw [List.map_cons, List.mem_cons, not_or] at h
    rw [setField, if_neg (Ne.symm h.1), ih h.2]
    rfl

theorem keys_setField {α : Type} {key : String} {v : α} {fields : List (String × α)}
    (h : key ∈ fields.map Prod.fst) :
    (setField key v fields).map Prod.fst = fields.map Prod.fst := by
  induction fields with
  | nil => cases h
  | cons e rest ih =>
    rw [setField]
    split
    · rename_i heq
      rw [List.map_cons, List.map_cons, heq]
    · rename_i hne
      rw [List.map_cons, ih (List.mem_of_ne_of_mem (Ne.symm hne) h)]
      rfl

theorem forall_mem_setField {α : Type} {p : α → Prop} {key : String} {v : α}
    {fields : List (String × α)} (hv : p v) (h : ∀ e ∈ fields, p e.2) :
    ∀ e ∈ setField key v fields, p e.2 := by
  induction fields with
  | nil => exact List.forall_mem_singleton.mpr hv
  | cons e rest ih =>
    obtain ⟨he, hrest⟩ := List.forall_mem_cons.mp h
    rw [setField]
    split
    · exact List.forall_mem_cons.mpr ⟨hv, hrest⟩
    · exact List.forall_mem_cons.mpr ⟨he, ih hrest⟩

theorem nodup_setField {α : Type} {key : String} {v : α} {fields : List (String × α)}
    (h : (fields.map Prod.fst).Nodup) : ((setField key v fields).map Prod.fst).Nodup := by
  by_cases hmem : key ∈ fields.map Prod.fst
  · rwa [keys_setField hmem]
  · rw [setField_of_not_mem hmem, List.map_append]
    exact List.nodup_append.mpr ⟨h, by simp, by grind⟩

theorem Value.Distinct.setField {key : String} {v : Value} {fields : List (String × Value)}
    (h : Distinct (.obj fields)) (hv : v.Distinct) :
    Distinct (.obj (StatesLanguage.setField key v fields)) := by
  cases h with
  | obj hkeys hfields => exact .obj (nodup_setField hkeys) (forall_mem_setField hv hfields)

theorem collectFields_distinct {entries : List (String × Value)}
    (h : ∀ e ∈ entries, e.2.Distinct) : Value.Distinct (.obj (collectFields entries)) := by
  refine List.foldlRecOn entries _ (motive := fun fields => Value.Distinct (.obj fields))
    (.obj .nil (by simp)) ?_
  exact fun fields hfields e he => hfields.setField (h e he)

/-- A reading whose scalars give no key twice, as they are neither arrays nor objects. -/
inductive Source.Flat : Source → Prop where
  | scalar {v : Value} : v.Distinct → Flat (.scalar v)
  | arr {items : List Source} {closed : Bool} : (∀ s ∈ items, s.Flat) → Flat (.arr items closed)
  | obj {fields : List (String × Source)} {closed : Bool} : (∀ e ∈ fields, e.2.Flat) →
    Flat (.obj fields closed)
  | malformed : Flat .malformed

namespace Source

theorem integerOf_distinct {negative : Bool} {s : Significand} {v : Value}
    (h : integerOf negative s = some v) : v.Distinct := by
  unfold integerOf at h
  split at h
  · obtain ⟨x, -, rfl⟩ := Option.map_eq_some_iff.mp h
    exact .float
  · split at h
    · cases h
      exact .int
    · split at h
      · cases h
        exact .float
      · cases h
        exact .int

theorem readExponent_distinct {negative : Bool} {s : Significand} {cs rest : List Char} {v : Value}
    (h : readExponent negative s cs = some (v, rest)) : v.Distinct := by
  unfold readExponent at h
  split at h
  simp only at h
  split at h
  · cases h
  · split at h
    · split at h
      · cases h
      · cases h
        exact .float
    · obtain ⟨x, -, heq⟩ := Option.map_eq_some_iff.mp h
      cases heq
      exact .float

theorem readMagnitude_distinct {negative : Bool} {cs rest : List Char} {v : Value}
    (h : readMagnitude negative cs = some (v, rest)) : v.Distinct := by
  unfold readMagnitude at h
  simp only at h
  split at h
  · cases h
  · cases h
  · split at h
    · split at h
      · cases h
      · split at h
        · exact readExponent_distinct h
        · exact readExponent_distinct h
        · obtain ⟨x, -, heq⟩ := Option.map_eq_some_iff.mp h
          cases heq
          exact .float
    · exact readExponent_distinct h
    · exact readExponent_distinct h
    · obtain ⟨w, hw, heq⟩ := Option.map_eq_some_iff.mp h
      cases heq
      exact integerOf_distinct hw

theorem readNumber_distinct {cs rest : List Char} {v : Value}
    (h : readNumber cs = some (v, rest)) : v.Distinct := by
  unfold readNumber at h
  split at h <;> exact readMagnitude_distinct h

/-- All that is read is flat, however much fuel there is. -/
theorem readValue_flat (fuel : Nat) : (∀ cs, (readValue fuel cs).1.Flat) ∧
    (∀ cs, ∀ s ∈ (readItems fuel cs).1, s.Flat) ∧
    ∀ cs, ∀ e ∈ (readFields fuel cs).1, e.2.Flat := by
  induction fuel with
  | zero =>
    refine ⟨fun cs => ?_, fun cs => ?_, fun cs => ?_⟩
    · exact .malformed
    · simp [readItems]
    · simp [readFields]
  | succ fuel ih =>
    obtain ⟨hvalue, hitems, hfields⟩ := ih
    refine ⟨fun cs => ?_, fun cs => ?_, fun cs => ?_⟩
    · unfold readValue
      split
      · exact .scalar .null
      · exact .scalar .bool
      · exact .scalar .bool
      · split
        · exact .scalar .str
        · exact .malformed
      · split
        · exact .arr (by simp)
        · exact .arr (hitems _)
      · split
        · exact .obj (by simp)
        · exact .obj (hfields _)
      · split
        · exact .scalar (readNumber_distinct ‹_›)
        · exact .malformed
    · have hitem := hvalue cs
      rw [readItems]
      split
      · rename_i item heq
        rw [heq] at hitem
        exact List.forall_mem_singleton.mpr hitem
      · rename_i item rest heq
        rw [heq] at hitem
        split
        · exact List.forall_mem_singleton.mpr hitem
        · exact List.forall_mem_cons.mpr ⟨hitem, hitems _⟩
        · exact List.forall_mem_singleton.mpr hitem
    · rw [readFields]
      split
      · split
        · simp
        · split
          · rename_i rest _
            have hfield := hvalue rest
            split
            · rename_i value heq
              rw [heq] at hfield
              exact List.forall_mem_singleton.mpr hfield
            · rename_i value rest' heq
              rw [heq] at hfield
              split
              · exact List.forall_mem_singleton.mpr hfield
              · exact List.forall_mem_cons.mpr ⟨hfield, hfields _⟩
              · exact List.forall_mem_singleton.mpr hfield
          · exact List.forall_mem_singleton.mpr .malformed
      · simp

mutual

/-- The value of a reading gives no key twice, whatever the reading does. -/
theorem toValue?_distinct : ∀ (depth : Nat) (s : Source) {v : Value}, s.Flat →
    toValue? depth s = some v → v.Distinct
  | depth, .scalar w, v, .scalar hw, h => by
    rw [toValue?] at h
    cases h
    exact hw
  | depth, .malformed, v, _, h => by
    rw [toValue?] at h
    cases h
  | 0, .arr _ _, v, _, h | 0, .obj _ _, v, _, h => by
    rw [toValue?] at h
    cases h
  | depth + 1, .arr items closed, v, .arr hitems, h => by
    rw [toValue?] at h
    split at h
    · obtain ⟨vs, hvs, rfl⟩ := Option.map_eq_some_iff.mp h
      exact .arr (itemsToValues?_distinct depth items hitems hvs)
    · cases h
  | depth + 1, .obj fields closed, v, .obj hfields, h => by
    rw [toValue?] at h
    split at h
    · obtain ⟨fs, hfs, rfl⟩ := Option.map_eq_some_iff.mp h
      exact collectFields_distinct (fieldsToValues?_distinct depth fields hfields hfs)
    · cases h

theorem itemsToValues?_distinct : ∀ (depth : Nat) (items : List Source) {vs : List Value},
    (∀ s ∈ items, s.Flat) → itemsToValues? depth items = some vs → ∀ v ∈ vs, v.Distinct
  | depth, [], vs, _, h => by
    rw [itemsToValues?] at h
    cases h
    simp
  | depth, s :: rest, vs, hitems, h => by
    obtain ⟨hs, hrest⟩ := List.forall_mem_cons.mp hitems
    rw [itemsToValues?] at h
    split at h
    · cases h
    · rename_i v hv
      obtain ⟨ws, hws, rfl⟩ := Option.map_eq_some_iff.mp h
      exact List.forall_mem_cons.mpr ⟨toValue?_distinct depth s hs hv,
        itemsToValues?_distinct depth rest hrest hws⟩

theorem fieldsToValues?_distinct : ∀ (depth : Nat) (fields : List (String × Source))
    {fs : List (String × Value)}, (∀ e ∈ fields, e.2.Flat) →
    fieldsToValues? depth fields = some fs → ∀ e ∈ fs, e.2.Distinct
  | depth, [], fs, _, h => by
    rw [fieldsToValues?] at h
    cases h
    simp
  | depth, (key, s) :: rest, fs, hfields, h => by
    obtain ⟨hs, hrest⟩ := List.forall_mem_cons.mp hfields
    rw [fieldsToValues?] at h
    split at h
    · cases h
    · rename_i v hv
      obtain ⟨ws, hws, rfl⟩ := Option.map_eq_some_iff.mp h
      exact List.forall_mem_cons.mpr ⟨toValue?_distinct depth s hs hv,
        fieldsToValues?_distinct depth rest hrest hws⟩

end

end Source

/-- What is read from a text gives no key twice. -/
theorem Value.parse?_distinct {text : List Char} {v : Value} (h : Value.parse? text = some v) :
    v.Distinct := by
  rw [Value.parse?] at h
  split at h
  · rename_i source heq
    refine Source.toValue?_distinct _ source ?_ h
    have hflat : (Source.ofText text).1.Flat := by
      have hread := (Source.readValue_flat (text.length + 1)).1 text
      rw [Source.ofText]
      split <;> simpa [*] using hread
    rwa [heq] at hflat
  · cases h

end StatesLanguage
