import StatesLanguage.Proofs.Rounds

/-! Where the children of branches are: in flight, in line, or at their place with a result. -/
namespace StatesLanguage

variable {α σ : Type}

namespace Branches

variable {c : Child α σ} {b b' : Branches α} {n : Nat}

/-- The places that hold a result. -/
def filled (b : Branches α) : List Nat :=
  (List.range b.total).filter fun i => b.results[i]?.join.isSome

/-- The numbers of the children in flight and, behind them, of those that wait. -/
def line (b : Branches α) : List Nat := b.inFlight.map Prod.fst ++ b.pending.map Prod.fst

/-- The branches in the middle of a round, with the children put back that it has yet to step. -/
def facing (b : Branches α) (todo : List (Nat × α)) : Branches α :=
  { b with inFlight := b.inFlight ++ todo }

/-- Every child is in flight, or in line behind all children in flight, or has its result at its
place. -/
structure Layout (n : Nat) (b : Branches α) : Prop where
  total : b.total = n
  ordered : b.line.Pairwise (· < ·)
  partition : (b.line ++ b.filled).Perm (List.range n)

theorem mem_filled {j : Nat} : j ∈ b.filled ↔ ∃ v, b.results[j]? = some (some v) := by
  have hj : ∀ v, b.results[j]? = some v → j < b.total := fun v h =>
    (List.getElem?_eq_some_iff.mp h).1
  simp only [filled, List.mem_filter, List.mem_range, Option.isSome_iff_exists,
    Option.join_eq_some_iff]
  exact ⟨fun h => h.2, fun ⟨v, h⟩ => ⟨hj _ h, v, h⟩⟩

theorem nodup_filled : b.filled.Nodup := List.nodup_range.filter _

theorem layout_congr (h : Layout n b) (hline : b'.line = b.line) (hres : b'.results = b.results) :
    Layout n b' := by
  have hfilled : b'.filled = b.filled := by simp [filled, total, hres]
  exact ⟨by simpa [total, hres] using h.total, hline ▸ h.ordered, by
    rw [hline, hfilled]; exact h.partition⟩

theorem line_ofList {children : List α} {limit : Nat} {tolerance : Tolerance} :
    (ofList children limit tolerance).line = List.range children.length := by
  refine List.ext_getElem ?_ fun i _ _ => ?_ <;> simp [line, ofList]

theorem layout_ofList (children : List α) (limit : Nat) (tolerance : Tolerance) :
    Layout children.length (.ofList children limit tolerance) := by
  have hline : (ofList children limit tolerance).line = List.range children.length := line_ofList
  have hfilled : (ofList children limit tolerance).filled = [] := by
    refine List.eq_nil_iff_forall_not_mem.mpr fun j hj => ?_
    obtain ⟨v, hv⟩ := mem_filled.mp hj
    obtain ⟨_, hnone⟩ := List.getElem?_eq_some_iff.mp hv
    simp [ofList] at hnone
  refine ⟨by simp [total, ofList], ?_, ?_⟩
  · rw [hline]
    exact List.pairwise_lt_range
  · simp [hline, hfilled]

@[simp] theorem line_startNext : (b.startNext c).line = b.line := by
  have hsplit : (b.pending.take b.freeSlots).map Prod.fst ++
      (b.pending.drop b.freeSlots).map Prod.fst = b.pending.map Prod.fst := by
    rw [← List.map_append, List.take_append_drop]
  have hline : (b.startNext c).line = b.inFlight.map Prod.fst ++
      ((b.pending.take b.freeSlots).map Prod.fst ++
        (b.pending.drop b.freeSlots).map Prod.fst) := by
    simp [line, startNext, nextUp, Function.comp_def]
  rw [hline, hsplit]
  rfl

theorem layout_startNext (h : Layout n b) : Layout n (b.startNext c) :=
  layout_congr h line_startNext rfl

theorem layout_fill {i : Nat} {v : Value} {xs ys : List Nat} (h : Layout n b)
    (hline : b.line = xs ++ i :: ys) (hline' : b'.line = xs ++ ys)
    (hres : b'.results = b.results.set i (some v)) : Layout n b' := by
  have hperm := h.partition
  rw [hline] at hperm
  have hnodup : (xs ++ i :: ys ++ b.filled).Nodup := hperm.nodup_iff.mpr List.nodup_range
  have hi : i < b.total := by
    rw [h.total]
    exact List.mem_range.mp (hperm.mem_iff.mp (by simp))
  -- The place was free: a child in line would be counted twice otherwise.
  have hfree : i ∉ b.filled := by
    intro hmem
    exact (List.nodup_append.mp hnodup).2.2 i (by simp) i hmem rfl
  have hfilled : b'.filled.Perm (i :: b.filled) := by
    refine (List.perm_ext_iff_of_nodup nodup_filled (List.nodup_cons.mpr ⟨hfree, nodup_filled⟩)).mpr fun j => ?_
    rw [List.mem_cons, mem_filled, mem_filled, hres, List.getElem?_set]
    by_cases hj : i = j
    · subst j
      simpa [total] using hi
    · simp [hj, Ne.symm hj]
  refine ⟨by simpa [total, hres] using h.total, ?_, ?_⟩
  · rw [hline']
    refine h.ordered.sublist ?_
    rw [hline]
    exact (List.sublist_cons_self i ys).append_left xs
  · rw [hline']
    refine (hfilled.append_left _).trans (List.Perm.trans ?_ hperm)
    rw [List.append_assoc, List.append_assoc, List.cons_append]
    exact (List.perm_middle.append_left xs).trans (.refl _)

/-- No more children are in flight than there are slots. -/
def InLimit (b : Branches α) : Prop := b.limit ≠ 0 → b.inFlight.length ≤ b.limit

/-- Children wait only while every slot is in use, and never where slots are not counted. -/
structure Busy (b : Branches α) : Prop where
  inLimit : b.InLimit
  counted : b.limit ≠ 0 → b.pending = [] ∨ b.inFlight.length = b.limit
  uncounted : b.limit = 0 → b.pending = []

theorem busy_startNext (h : b.InLimit) : (b.startNext c).Busy := by
  by_cases hl : b.limit = 0
  · have hnone : b.pending.drop b.freeSlots = [] := by simp [freeSlots, hl]
    exact ⟨fun h => (h hl).elim, fun h => (h hl).elim, fun _ => hnone⟩
  · have hle := h hl
    have hfree : b.freeSlots = b.limit - b.inFlight.length := by simp [freeSlots, hl]
    have hlen : (b.startNext c).inFlight.length =
        b.inFlight.length + min b.freeSlots b.pending.length := by
      simp [startNext, nextUp]
    refine ⟨fun _ => ?_, fun _ => ?_, fun h => (hl h).elim⟩
    · change (b.startNext c).inFlight.length ≤ b.limit
      omega
    · by_cases hp : b.pending.length ≤ b.freeSlots
      · exact Or.inl (List.drop_eq_nil_of_le hp)
      · right
        change (b.startNext c).inFlight.length = b.limit
        omega

/-- A round that does not fail leaves no more children in flight than it was given. -/
theorem round_length {todo : List (Nat × α)} {p q : Bool} {s s' : σ}
    (h : round c todo p b s = (.ok q, b', s')) :
    b'.limit = b.limit ∧ b'.tolerance = b.tolerance ∧
      b'.inFlight.length ≤ b.inFlight.length + todo.length := by
  revert h
  refine round_rule
    (I := fun todo' _ b₁ _ => b₁.limit = b.limit ∧ b₁.tolerance = b.tolerance ∧
      b₁.inFlight.length + todo'.length ≤ b.inFlight.length + todo.length)
    (Q := fun x => x = (.ok q, b', s') → b'.limit = b.limit ∧ b'.tolerance = b.tolerance ∧
      b'.inFlight.length ≤ b.inFlight.length + todo.length) ?_ ?_ ?_ ?_ ⟨rfl, rfl, le_rfl⟩
  · rintro i a rest p b₁ s o a' s' ⟨hl, ht, hle⟩ _ _
    refine ⟨hl, ht, ?_⟩
    simp only [List.length_append, List.length_cons, List.length_nil] at hle ⊢
    omega
  · rintro i a rest p b₁ s o a' s' r b₂ ⟨hl, ht, hle⟩ _ _ hrec
    have hb₂ : b₂ = (b₁.record i r).1 := by rw [hrec]
    simp only [List.length_cons] at hle
    refine ⟨by simpa [hb₂] using hl, by simpa [hb₂] using ht, ?_⟩
    simp only [hb₂, record_inFlight]
    omega
  · intro i a rest p b₁ s o a' s' r b₂ e _ _ _ _ h
    simp at h
  · rintro p b₁ s ⟨hl, ht, hle⟩ h
    simp only [Prod.mk.injEq] at h
    rw [← h.2.1]
    exact ⟨hl, ht, by simpa using hle⟩

end Branches

end StatesLanguage
