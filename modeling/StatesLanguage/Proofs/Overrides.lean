import StatesLanguage.Proofs.Distinctness
import StatesLanguage.Text.Class

/-! Texts that give a key twice are read as if they had given it once: the last entry of a key
stands where the first was, and the others have not been there. -/
namespace StatesLanguage

section

variable {α : Type} {xs : List (String × α)}

theorem nodup_collectFields (xs : List (String × α)) :
    ((collectFields xs).map Prod.fst).Nodup :=
  List.foldlRecOn xs _ (motive := fun acc : List (String × α) => (acc.map Prod.fst).Nodup) .nil
    fun _ hacc _ _ => nodup_setField hacc

theorem forall_mem_collectFields {p : α → Prop} (h : ∀ e ∈ xs, p e.2) :
    ∀ e ∈ collectFields xs, p e.2 :=
  List.foldlRecOn xs _ (motive := fun acc : List (String × α) => ∀ e ∈ acc, p e.2) (by simp)
    fun _ hacc e he => forall_mem_setField (h e he) hacc

theorem foldl_setField (acc : List (String × α)) (h : ((acc ++ xs).map Prod.fst).Nodup) :
    xs.foldl (fun fields entry => setField entry.1 entry.2 fields) acc = acc ++ xs := by
  induction xs generalizing acc with
  | nil => rw [List.foldl_nil, List.append_nil]
  | cons e rest ih =>
    have hnew : e.1 ∉ acc.map Prod.fst := by
      rw [List.map_append, List.nodup_append] at h
      exact fun hmem => h.2.2 e.1 hmem e.1 (by simp) rfl
    have happend : acc ++ [(e.1, e.2)] ++ rest = acc ++ e :: rest := by simp
    rw [List.foldl_cons, setField_of_not_mem hnew, ih _ (by rwa [happend]), happend]

/-- Where no key is given twice, nothing is overridden. -/
theorem collectFields_of_nodup (h : (xs.map Prod.fst).Nodup) : collectFields xs = xs :=
  foldl_setField [] h

end

namespace Source

mutual

/-- The reading with the last entry of each key alone, in the place of the first. -/
def settled : Source → Source
  | .scalar v => .scalar v
  | .arr items closed => .arr (settledItems items) closed
  | .obj fields closed => .obj (collectFields (settledFields fields)) closed
  | .malformed => .malformed

def settledItems : List Source → List Source
  | [] => []
  | s :: rest => settled s :: settledItems rest

def settledFields : List (String × Source) → List (String × Source)
  | [] => []
  | (key, s) :: rest => (key, settled s) :: settledFields rest

end

/-- No object of the reading gives a key twice. -/
inductive Unrepeated : Source → Prop where
  | scalar {v : Value} : Unrepeated (.scalar v)
  | arr {items : List Source} {closed : Bool} : (∀ s ∈ items, s.Unrepeated) →
    Unrepeated (.arr items closed)
  | obj {fields : List (String × Source)} {closed : Bool} : (fields.map Prod.fst).Nodup →
    (∀ e ∈ fields, e.2.Unrepeated) → Unrepeated (.obj fields closed)
  | malformed : Unrepeated .malformed

section

variable {depth : Nat} {key : String} {s : Source} {v : Value}
  {fields acc : List (String × Source)} {fs acc' : List (String × Value)}

mutual

theorem settled_unrepeated : ∀ s : Source, s.settled.Unrepeated
  | .scalar v => by
    rw [settled]
    exact .scalar
  | .arr items closed => by
    rw [settled]
    exact .arr (settledItems_unrepeated items)
  | .obj fields closed => by
    rw [settled]
    exact .obj (nodup_collectFields _) (forall_mem_collectFields (settledFields_unrepeated fields))
  | .malformed => by
    rw [settled]
    exact .malformed

theorem settledItems_unrepeated : ∀ items : List Source, ∀ s ∈ settledItems items, s.Unrepeated
  | [] => by simp [settledItems]
  | s :: rest => by
    rw [settledItems]
    exact List.forall_mem_cons.mpr ⟨settled_unrepeated s, settledItems_unrepeated rest⟩

theorem settledFields_unrepeated : ∀ fields : List (String × Source),
    ∀ e ∈ settledFields fields, e.2.Unrepeated
  | [] => by simp [settledFields]
  | (key, s) :: rest => by
    rw [settledFields]
    exact List.forall_mem_cons.mpr ⟨settled_unrepeated s, settledFields_unrepeated rest⟩

end

theorem itemsToValues?_cons {items : List Source} {vs : List Value} :
    itemsToValues? depth (s :: items) = some vs ↔ ∃ w ws, s.toValue? depth = some w ∧
      itemsToValues? depth items = some ws ∧ w :: ws = vs := by
  rw [itemsToValues?]
  cases s.toValue? depth with
  | none => simp
  | some w => simp [Option.map_eq_some_iff]

theorem fieldsToValues?_cons : fieldsToValues? depth ((key, s) :: fields) = some fs ↔
    ∃ w ws, s.toValue? depth = some w ∧ fieldsToValues? depth fields = some ws ∧
      (key, w) :: ws = fs := by
  rw [fieldsToValues?]
  cases s.toValue? depth with
  | none => simp
  | some w => simp [Option.map_eq_some_iff]

/-- An entry of a reading is overridden as that of its value is. -/
theorem fieldsToValues?_setField (hacc : fieldsToValues? depth acc = some acc')
    (hs : s.toValue? depth = some v) :
    fieldsToValues? depth (setField key s acc) = some (setField key v acc') := by
  induction acc generalizing acc' with
  | nil =>
    rw [fieldsToValues?] at hacc
    cases hacc
    simp [setField, fieldsToValues?, hs]
  | cons e rest ih =>
    obtain ⟨k, s'⟩ := e
    obtain ⟨w, rest', hw, hrest, rfl⟩ := fieldsToValues?_cons.mp hacc
    rw [setField, setField]
    split
    · exact fieldsToValues?_cons.mpr ⟨v, rest', hs, hrest, rfl⟩
    · exact fieldsToValues?_cons.mpr ⟨w, _, hw, ih hrest, rfl⟩

theorem fieldsToValues?_foldl (hacc : fieldsToValues? depth acc = some acc')
    (h : fieldsToValues? depth fields = some fs) :
    fieldsToValues? depth (fields.foldl (fun xs e => setField e.1 e.2 xs) acc) =
      some (fs.foldl (fun xs e => setField e.1 e.2 xs) acc') := by
  induction fields generalizing fs acc acc' with
  | nil =>
    rw [fieldsToValues?] at h
    cases h
    exact hacc
  | cons e rest ih =>
    obtain ⟨k, s⟩ := e
    obtain ⟨w, rest', hw, hrest, rfl⟩ := fieldsToValues?_cons.mp h
    rw [List.foldl_cons, List.foldl_cons]
    exact ih (fieldsToValues?_setField hacc hw) hrest

theorem fieldsToValues?_collectFields (h : fieldsToValues? depth fields = some fs) :
    fieldsToValues? depth (collectFields fields) = some (collectFields fs) :=
  fieldsToValues?_foldl (by simp only [fieldsToValues?]) h

mutual

/-- What is settled is read as the same value. -/
theorem toValue?_settled : ∀ (depth : Nat) (s : Source) {v : Value},
    s.toValue? depth = some v → s.settled.toValue? depth = some v
  | depth, .scalar w, v, h => by rwa [settled]
  | depth, .malformed, v, h => by rwa [settled]
  | 0, .arr _ _, v, h | 0, .obj _ _, v, h => by
    rw [toValue?] at h
    cases h
  | depth + 1, .arr items closed, v, h => by
    rw [toValue?] at h
    rw [settled, toValue?]
    split at h
    · obtain ⟨vs, hvs, rfl⟩ := Option.map_eq_some_iff.mp h
      rw [if_pos ‹_›, itemsToValues?_settled depth items hvs, Option.map_some]
    · cases h
  | depth + 1, .obj fields closed, v, h => by
    rw [toValue?] at h
    rw [settled, toValue?]
    split at h
    · obtain ⟨fs, hfs, rfl⟩ := Option.map_eq_some_iff.mp h
      have hsettled := fieldsToValues?_collectFields (fieldsToValues?_settled depth fields hfs)
      rw [if_pos ‹_›, hsettled, Option.map_some, collectFields_of_nodup (nodup_collectFields fs)]
    · cases h

theorem itemsToValues?_settled : ∀ (depth : Nat) (items : List Source) {vs : List Value},
    itemsToValues? depth items = some vs → itemsToValues? depth (settledItems items) = some vs
  | depth, [], vs, h => by rwa [settledItems]
  | depth, s :: rest, vs, h => by
    obtain ⟨w, rest', hw, hrest, rfl⟩ := itemsToValues?_cons.mp h
    rw [settledItems]
    exact itemsToValues?_cons.mpr
      ⟨w, rest', toValue?_settled depth s hw, itemsToValues?_settled depth rest hrest, rfl⟩

theorem fieldsToValues?_settled : ∀ (depth : Nat) (fields : List (String × Source))
    {fs : List (String × Value)}, fieldsToValues? depth fields = some fs →
    fieldsToValues? depth (settledFields fields) = some fs
  | depth, [], fs, h => by rwa [settledFields]
  | depth, (key, s) :: rest, fs, h => by
    obtain ⟨w, rest', hw, hrest, rfl⟩ := fieldsToValues?_cons.mp h
    rw [settledFields]
    exact fieldsToValues?_cons.mpr
      ⟨w, rest', toValue?_settled depth s hw, fieldsToValues?_settled depth rest hrest, rfl⟩

end

end

theorem isBlank_of_isSpace {c : Char} (h : isSpace c = true) : isBlank c = true := by
  simp only [isSpace, Bool.or_eq_true, beq_iff_eq] at h
  rcases h with ((rfl | rfl) | rfl) | rfl <;> rfl

theorem trimStart_skipSpace (cs : List Char) : trimStart (skipSpace cs) = trimStart cs := by
  induction cs with
  | nil => rfl
  | cons c cs ih =>
    by_cases hc : isSpace c = true
    · rw [skipSpace, List.dropWhile_cons_of_pos hc, trimStart.eq_def (c :: cs),
        List.dropWhile_cons_of_pos (isBlank_of_isSpace hc)]
      exact ih
    · rw [skipSpace, List.dropWhile_cons_of_neg hc]

/-- A text that gives an object starts with its brace. -/
theorem ofText_obj {text : List Char} {fields : List (String × Source)} {closed whole : Bool}
    (h : ofText text = (.obj fields closed, whole)) : (trimStart text).head? = some '\x7b' := by
  have hread : (readValue (text.length + 1) text).1 = .obj fields closed := by
    unfold ofText at h
    split at h
    all_goals
      cases h
      simp [*]
  obtain ⟨rest, hrest⟩ : ∃ rest, skipSpace text = '\x7b' :: rest := by
    unfold readValue at hread
    split at hread
    case h_6 rest heq => exact ⟨rest, heq⟩
    all_goals
      try split at hread
      all_goals cases hread
  rw [← trimStart_skipSpace, hrest]
  rfl

end Source

end StatesLanguage
