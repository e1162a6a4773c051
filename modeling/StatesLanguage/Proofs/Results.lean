import Mathlib.Data.List.Nodup
import StatesLanguage.Proofs.Slots
import StatesLanguage.Proofs.Calls

/-! Whose result fills which place. The steps of the children are written down, so that the child a
result comes from can be told by its own course. -/
namespace StatesLanguage

variable {α σ : Type}

/-- What a result puts into its place. -/
def slotOf : Except ExecutionError Value → Value
  | .ok v => v
  | .error e => e.payload

def isFailure : Except ExecutionError Value → Bool
  | .ok _ => false
  | .error _ => true

/-- One step of a child: the child before and after. -/
structure ChildStep (α : Type) where
  index : Nat
  before : α
  after : α

/-- The steps of the child of that number. -/
def stepsOf (i : Nat) (log : List (ChildStep α)) : List (ChildStep α) :=
  log.filter fun x => x.index == i

@[simp] theorem stepsOf_append_self (i : Nat) (a a' : α) (log : List (ChildStep α)) :
    stepsOf i (log ++ [⟨i, a, a'⟩]) = stepsOf i log ++ [⟨i, a, a'⟩] := by
  simp [stepsOf]

theorem stepsOf_append_of_ne {i j : Nat} (h : j ≠ i) (a a' : α) (log : List (ChildStep α)) :
    stepsOf j (log ++ [⟨i, a, a'⟩]) = stepsOf j log := by
  simp [stepsOf, h.symm]

/-- The same children, with their steps written down behind the state of the runner. -/
def Child.logged (c : Child α σ) : Child α (σ × List (ChildStep α)) where
  start := c.start
  step i a s :=
    let (o, a', s') := c.step i a s.1
    (o, a', s', s.2 ++ [⟨i, a, a'⟩])
  result? := c.result?
  abort cause a s :=
    let (a', s') := c.abort cause a s.1
    (a', s', s.2)

/-- A child of that number was started as one of `C` does it, and led by the steps to where it is
now, each of them from where the one before had left it. -/
inductive Course (C : Child α σ → Prop) (i : Nat) (a₀ : α) : List (ChildStep α) → α → Prop where
  | started {c : Child α σ} : C c → Course C i a₀ [] (c.start i a₀)
  | step {steps : List (ChildStep α)} {a : α} (a' : α) :
    Course C i a₀ steps a → Course C i a₀ (steps ++ [⟨i, a, a'⟩]) a'

namespace Branches

variable {c : Child α σ} {C : Child α σ → Prop} {ends : α → Option (Except ExecutionError Value)}
  {children : List α} {log : List (ChildStep α)} {b b' : Branches α} {i : Nat} {a a' : α}
  {rest : List (Nat × α)} {outcomes : List (Option (Except ExecutionError Value))}
  {r : Except ExecutionError Value}

/-- Branches that have lost, doubled or confused no child: the ones that wait are as they were
given, the ones in flight are on their own course, and each place is filled by the outcome at the
end of the course of its child. -/
structure Tidy (C : Child α σ → Prop) (ends : α → Option (Except ExecutionError Value))
    (children : List α) (log : List (ChildStep α))
    (outcomes : List (Option (Except ExecutionError Value))) (b : Branches α) : Prop where
  layout : Layout children.length b
  results : b.results = outcomes.map (Option.map slotOf)
  recorded : b.recorded = outcomes.countP Option.isSome
  failed : b.failed = outcomes.countP (Option.any isFailure)
  tolerated : b.failed ≠ 0 → b.tolerance.allows b.failed children.length = true
  waiting : ∀ x ∈ b.pending, children[x.1]? = some x.2 ∧ stepsOf x.1 log = []
  flying : ∀ x ∈ b.inFlight,
    ∃ a₀, children[x.1]? = some a₀ ∧ Course C x.1 a₀ (stepsOf x.1 log) x.2
  ended : ∀ i r, outcomes[i]? = some (some r) →
    ∃ a₀ a, children[i]? = some a₀ ∧ Course C i a₀ (stepsOf i log) a ∧ ends a = some r

theorem tidy_ofList (children : List α) (limit : Nat) (tolerance : Tolerance) :
    Tidy C ends children [] (.replicate children.length none)
      (.ofList children limit tolerance) where
  layout := layout_ofList children limit tolerance
  results := by simp [ofList]
  recorded := by simp [ofList, List.countP_replicate]
  failed := by simp [ofList, List.countP_replicate]
  tolerated := by simp [ofList]
  waiting := by
    intro x hx
    obtain ⟨i, hi, rfl⟩ := List.mem_mapIdx.mp hx
    exact ⟨List.getElem?_eq_getElem hi, rfl⟩
  flying := by simp [ofList]
  ended := by simp [List.getElem?_replicate]

theorem tidy_startNext (hc : C c) (h : Tidy C ends children log outcomes b) :
    Tidy C ends children log outcomes (b.startNext c) where
  layout := layout_startNext h.layout
  results := h.results
  recorded := h.recorded
  failed := h.failed
  tolerated := h.tolerated
  waiting x hx := h.waiting x (List.mem_of_mem_drop hx)
  flying := by
    intro x hx
    rcases List.mem_append.mp hx with hx | hx
    · exact h.flying x hx
    · obtain ⟨⟨i, a⟩, ha, rfl⟩ := List.mem_map.mp hx
      obtain ⟨hchild, hsteps⟩ := h.waiting (i, a) (List.mem_of_mem_take ha)
      refine ⟨a, hchild, ?_⟩
      rw [hsteps]
      exact .started hc
  ended := h.ended

/-- What is recorded without an error: the result at its place, and a failure only where it is
tolerated. -/
theorem record_none (h : b.record i r = (b', none)) :
    b' = { b with
      results := b.results.set i (some (slotOf r))
      recorded := b.recorded + 1
      failed := b.failed + (isFailure r).toNat } ∧
    (isFailure r = true → b.tolerance.allows (b.failed + 1) b.total = true) := by
  cases r with
  | ok v =>
    simp only [record, fill, Prod.mk.injEq] at h
    exact ⟨h.1.symm, by simp [isFailure]⟩
  | error e =>
    simp only [record] at h
    split_ifs at h with hallow hconf
    · simp only [fill, Prod.mk.injEq] at h
      exact ⟨h.1.symm, fun _ => hallow⟩
    · simp at h
    · simp at h

/-- The child that is stepped is the only one of its number. -/
theorem other_number (h : Layout children.length (b.facing ((i, a) :: rest))) {x : Nat × α}
    (hx : x ∈ b.inFlight ++ rest ++ b.pending) : x.1 ≠ i := by
  have hnodup : (b.facing ((i, a) :: rest)).line.Nodup := h.ordered.imp fun hlt => Nat.ne_of_lt hlt
  have hline : (b.facing ((i, a) :: rest)).line =
      b.inFlight.map Prod.fst ++ i :: (rest.map Prod.fst ++ b.pending.map Prod.fst) := by
    simp [line, facing]
  rw [hline, List.nodup_middle, List.nodup_cons] at hnodup
  intro heq
  apply hnodup.1
  rw [← heq, ← List.append_assoc, ← List.map_append, ← List.map_append]
  exact List.mem_map_of_mem hx

theorem tidy_length (h : Tidy C ends children log outcomes b) :
    outcomes.length = children.length := by
  have htotal := h.layout.total
  rwa [total, h.results, List.length_map] at htotal

/-- The place of a child in flight or in line is free. -/
theorem tidy_free (h : Tidy C ends children log outcomes b) (hi : i ∈ b.line) :
    outcomes[i]? = some none := by
  have hnodup := h.layout.partition.nodup_iff.mpr List.nodup_range
  have hlt : i < outcomes.length := by
    rw [tidy_length h]
    exact List.mem_range.mp (h.layout.partition.mem_iff.mp (List.mem_append_left _ hi))
  rw [List.getElem?_eq_getElem hlt]
  cases ho : outcomes[i] with
  | none => rfl
  | some r =>
    have hfilled : i ∈ b.filled := by
      refine mem_filled.mpr ⟨slotOf r, ?_⟩
      rw [h.results, List.getElem?_map, List.getElem?_eq_getElem hlt, ho]
      rfl
    exact ((List.nodup_append.mp hnodup).2.2 i hi i hfilled rfl).elim

/-- The place of a child that is stepped is free. -/
theorem free_place (h : Tidy C ends children log outcomes (b.facing ((i, a) :: rest))) :
    outcomes[i]? = some none :=
  tidy_free h (by simp [line, facing])

/-- Nothing changes for the other children while one is stepped. -/
theorem tidy_others (a' : α) (h : Tidy C ends children log outcomes (b.facing ((i, a) :: rest))) :
    (∀ x ∈ b.pending, children[x.1]? = some x.2 ∧ stepsOf x.1 (log ++ [⟨i, a, a'⟩]) = []) ∧
    (∀ x ∈ b.inFlight ++ rest, ∃ a₀, children[x.1]? = some a₀ ∧
      Course C x.1 a₀ (stepsOf x.1 (log ++ [⟨i, a, a'⟩])) x.2) ∧
    (∀ j r, outcomes[j]? = some (some r) → ∃ a₀ a₁, children[j]? = some a₀ ∧
      Course C j a₀ (stepsOf j (log ++ [⟨i, a, a'⟩])) a₁ ∧ ends a₁ = some r) := by
  refine ⟨fun x hx => ?_, fun x hx => ?_, fun j r hj => ?_⟩
  · rw [stepsOf_append_of_ne (other_number h.layout (List.mem_append_right _ hx))]
    exact h.waiting x hx
  · rw [stepsOf_append_of_ne (other_number h.layout (List.mem_append_left _ hx))]
    refine h.flying x ?_
    rcases List.mem_append.mp hx with hx | hx
    · exact List.mem_append_left _ hx
    · exact List.mem_append_right _ (List.mem_cons_of_mem _ hx)
  · have hne : j ≠ i := by
      rintro rfl
      simp [free_place h] at hj
    rw [stepsOf_append_of_ne hne]
    exact h.ended j r hj

/-- The course of a child that is stepped goes on. -/
theorem tidy_course (a' : α)
    (h : Tidy C ends children log outcomes (b.facing ((i, a) :: rest))) :
    ∃ a₀, children[i]? = some a₀ ∧ Course C i a₀ (stepsOf i (log ++ [⟨i, a, a'⟩])) a' := by
  obtain ⟨a₀, hchild, hcourse⟩ := h.flying (i, a) (by simp [facing])
  refine ⟨a₀, hchild, ?_⟩
  rw [stepsOf_append_self]
  exact hcourse.step a'

theorem tidy_stay (h : Tidy C ends children log outcomes (b.facing ((i, a) :: rest))) :
    Tidy C ends children (log ++ [⟨i, a, a'⟩]) outcomes
      ({ b with inFlight := b.inFlight ++ [(i, a')] }.facing rest) := by
  obtain ⟨hwaiting, hflying, hended⟩ := tidy_others a' h
  refine ⟨layout_congr h.layout (by simp [line, facing]) rfl, h.results, h.recorded, h.failed,
    h.tolerated, hwaiting, ?_, hended⟩
  intro x hx
  have hx : x = (i, a') ∨ x ∈ b.inFlight ++ rest := by
    simp only [facing, List.mem_append, List.mem_singleton] at hx ⊢
    tauto
  rcases hx with rfl | hx
  · exact tidy_course a' h
  · exact hflying x hx

theorem countP_set_free {β : Type} {p : Option β → Bool} {l : List (Option β)} {r : β}
    (hp : p none = false) (h : l[i]? = some none) :
    (l.set i (some r)).countP p = l.countP p + (p (some r)).toNat := by
  obtain ⟨hi, hnone⟩ := List.getElem?_eq_some_iff.mp h
  rw [List.countP_set hi, hnone, hp]
  cases p (some r) <;> simp

theorem tidy_done (h : Tidy C ends children log outcomes (b.facing ((i, a) :: rest)))
    (hr : ends a' = some r) (hrec : b.record i r = (b', none)) :
    Tidy C ends children (log ++ [⟨i, a, a'⟩]) (outcomes.set i (some r)) (b'.facing rest) := by
  obtain ⟨hwaiting, hflying, hended⟩ := tidy_others a' h
  obtain ⟨rfl, hallow⟩ := record_none hrec
  have hfree := free_place h
  have hresults : b.results = outcomes.map (Option.map slotOf) := h.results
  have hrecorded : b.recorded = outcomes.countP Option.isSome := h.recorded
  have hfailed : b.failed = outcomes.countP (Option.any isFailure) := h.failed
  refine ⟨?_, ?_, ?_, ?_, ?_, hwaiting, hflying, ?_⟩
  · have hline : (b.facing ((i, a) :: rest)).line = b.inFlight.map Prod.fst ++
        i :: (rest.map Prod.fst ++ b.pending.map Prod.fst) := by
      simp [line, facing]
    exact layout_fill h.layout hline (by simp [line, facing]) rfl
  · simp [facing, hresults, List.map_set]
  · simp [facing, hrecorded, countP_set_free (p := Option.isSome) rfl hfree]
  · simp [facing, hfailed, countP_set_free (p := Option.any isFailure) rfl hfree]
  · intro hne
    cases hf : isFailure r with
    | true =>
      have htotal : b.total = children.length := h.layout.total
      simpa [facing, hf, htotal] using hallow hf
    | false =>
      have hne : b.failed ≠ 0 := by simpa [facing, hf] using hne
      simpa [facing, hf] using h.tolerated hne
  · intro j r' hj
    rw [List.getElem?_set] at hj
    split_ifs at hj with hij hlt
    · subst j
      obtain ⟨a₀, hchild, hcourse⟩ := tidy_course a' h
      simp only [Option.some.injEq] at hj
      exact ⟨a₀, a', hchild, hcourse, hj ▸ hr⟩
    · exact hended j r' hj

/-- A round that does not fail leaves the branches tidy. -/
theorem round_tidy (hends : c.result? = ends) {todo : List (Nat × α)} {p q : Bool} {s s' : σ}
    {log' : List (ChildStep α)} (h : Tidy C ends children log outcomes (b.facing todo))
    (hround : round c.logged todo p b (s, log) = (.ok q, b', s', log')) :
    ∃ outcomes, Tidy C ends children log' outcomes b' := by
  revert hround
  refine round_rule
    (I := fun todo _ b s => ∃ outcomes, Tidy C ends children s.2 outcomes (b.facing todo))
    (Q := fun x => x = (.ok q, b', s', log') → ∃ outcomes, Tidy C ends children log' outcomes b')
    ?_ ?_ ?_ ?_ ⟨outcomes, h⟩
  · rintro i a rest p b ⟨s, log⟩ o a' ⟨s', log'⟩ ⟨outcomes, h⟩ hstep _
    simp only [Child.logged, Prod.mk.injEq] at hstep
    obtain ⟨-, rfl, -, rfl⟩ := hstep
    exact ⟨outcomes, tidy_stay h⟩
  · rintro i a rest p b ⟨s, log⟩ o a' ⟨s', log'⟩ r b₁ ⟨outcomes, h⟩ hstep hr hrec
    simp only [Child.logged, Prod.mk.injEq] at hstep
    obtain ⟨-, rfl, -, rfl⟩ := hstep
    exact ⟨outcomes.set i (some r), tidy_done h (hends ▸ hr) hrec⟩
  · intro i a rest p b s o a' s' r b₁ e _ _ _ _ heq
    simp at heq
  · rintro p b ⟨s, log⟩ ⟨outcomes, h⟩ heq
    simp only [Prod.mk.injEq] at heq
    obtain ⟨-, rfl, -, rfl⟩ := heq
    exact ⟨outcomes, by simpa [facing] using h⟩

/-- Where no child is in flight or in line, every child has its outcome. -/
theorem tidy_outcome (h : Tidy C ends children log outcomes b) (hp : b.pending = [])
    (hf : b.inFlight = []) {i : Nat} (hi : i < children.length) :
    ∃ r, outcomes[i]? = some (some r) := by
  have hfilled : i ∈ b.filled := by
    have hmem := h.layout.partition.mem_iff.mpr (List.mem_range.mpr hi)
    simpa [line, hp, hf] using hmem
  obtain ⟨v, hv⟩ := mem_filled.mp hfilled
  rw [h.results, List.getElem?_map] at hv
  obtain ⟨o, ho, hslot⟩ := Option.map_eq_some_iff.mp hv
  obtain ⟨r, rfl, -⟩ := Option.map_eq_some_iff.mp hslot
  exact ⟨r, ho⟩

/-- The outcome of a child is at the place of the child. -/
theorem tidy_placed (h : Tidy C ends children log outcomes b) (hr : outcomes[i]? = some (some r)) :
    (b.results.map Value.ofOption)[i]? = some (slotOf r) := by
  simp [h.results, hr, Value.ofOption]

/-- Where every child has ended, every place is filled by the outcome of its child. -/
theorem tidy_complete (h : Tidy C ends children log outcomes b) (hp : b.pending = [])
    (hf : b.inFlight = []) {i : Nat} (hi : i < children.length) :
    ∃ a r, Course C i children[i] (stepsOf i log) a ∧ ends a = some r ∧
      (b.results.map Value.ofOption)[i]? = some (slotOf r) := by
  obtain ⟨r, ho⟩ := tidy_outcome h hp hf hi
  obtain ⟨a₀, a, hchild, hcourse, hr⟩ := h.ended i r ho
  rw [List.getElem?_eq_getElem hi, Option.some.injEq] at hchild
  exact ⟨a, r, hchild ▸ hcourse, hr, tidy_placed h ho⟩

/-- Of tidy branches without children in flight or in line, every place is recorded. -/
theorem tidy_recorded (h : Tidy C ends children log outcomes b) (hp : b.pending = [])
    (hf : b.inFlight = []) : b.recorded = children.length := by
  have hlength : outcomes.length = children.length := tidy_length h
  rw [h.recorded, ← hlength, List.countP_eq_length]
  intro o ho
  obtain ⟨i, hi, rfl⟩ := List.getElem_of_mem ho
  obtain ⟨r, hr⟩ := tidy_outcome h hp hf (hlength ▸ hi)
  rw [List.getElem?_eq_getElem hi, Option.some.injEq] at hr
  simp [hr]

/-- What advances lead to that all leave the branches running, each of them done as one of `C` does
it, with the steps of the children written down. -/
inductive Advances (C : Child α σ → Prop) (b₀ : Branches α) (s₀ : σ) :
    Branches α → σ → List (ChildStep α) → Prop where
  | start : Advances C b₀ s₀ b₀ s₀ []
  | next {b b' : Branches α} {s s' : σ} {log log' : List (ChildStep α)} {c : Child α σ} {p : Bool} :
    Advances C b₀ s₀ b s log → C c →
    b.advance c.logged (s, log) = (.running p, b', s', log') → Advances C b₀ s₀ b' s' log'

/-- The branches at some point of an advance: when the first children are started, when `rest` has
yet to be stepped, and when freed slots are filled again. -/
inductive Stage (c : Child α σ) (b : Branches α) (s : σ) : Branches α → Prop where
  | admitted : Stage c b s (b.startNext c)
  | facing {done rest : List (Nat × α)} {p : Bool} {b' : Branches α} {s' : σ} :
    (b.startNext c).inFlight = done ++ rest →
    round c done (!b.nextUp.isEmpty) { b.startNext c with inFlight := [] } s = (.ok p, b', s') →
    Stage c b s (b'.facing rest)
  | refilled {p : Bool} {b' : Branches α} {s' : σ} :
    round c (b.startNext c).inFlight (!b.nextUp.isEmpty) { b.startNext c with inFlight := [] } s =
      (.ok p, b', s') →
    Stage c b s (b'.startNext c)

theorem stage_inLimit {s : σ} (h : b.InLimit) {b₁ : Branches α} (hs : Stage c b s b₁) :
    b₁.limit = b.limit ∧ b₁.InLimit := by
  have hstart := (busy_startNext (c := c) h).inLimit
  cases hs with
  | admitted => exact ⟨rfl, hstart⟩
  | @facing done rest p b' s' hsplit hround =>
    obtain ⟨hlimit, -, hle⟩ := round_length hround
    have hlimit : b'.limit = b.limit := hlimit
    refine ⟨hlimit, fun hne => ?_⟩
    have hbound := hstart (hlimit ▸ hne)
    rw [hsplit] at hbound
    simp only [facing, List.length_append, List.length_nil] at hbound hle ⊢
    change _ ≤ b.limit at hbound
    omega
  | @refilled p b' s' hround =>
    obtain ⟨hlimit, -, hle⟩ := round_length hround
    have hlimit : b'.limit = b.limit := hlimit
    refine ⟨hlimit, (busy_startNext fun hne => ?_).inLimit⟩
    have hbound := hstart (hlimit ▸ hne)
    simp only [List.length_nil] at hle
    change _ ≤ b.limit at hbound
    omega

/-- An advance that goes on leaves every slot in use, or no child to wait for one. -/
theorem busy_advance {p : Bool} {s s' : σ} (h : b.InLimit)
    (hadv : b.advance c s = (.running p, b', s')) :
    b'.limit = b.limit ∧ b'.tolerance = b.tolerance ∧ b'.Busy := by
  obtain ⟨q, b₁, hround, -, -, rfl⟩ := advance_running hadv
  obtain ⟨hlimit, htolerance, hle⟩ := round_length hround
  have hlimit : b₁.limit = b.limit := hlimit
  refine ⟨hlimit, htolerance, busy_startNext fun hne => ?_⟩
  have hbound := (busy_startNext (c := c) h).inLimit (hlimit ▸ hne)
  simp only [List.length_nil] at hle
  change _ ≤ b.limit at hbound
  omega

theorem advance_tidy {p : Bool} {s s' : σ} {log' : List (ChildStep α)} (hends : c.result? = ends)
    (hc : C c) (h : Tidy C ends children log outcomes b)
    (hadv : b.advance c.logged (s, log) = (.running p, b', s', log')) :
    ∃ outcomes, Tidy C ends children log' outcomes b' := by
  obtain ⟨q, b₁, hround, -, -, rfl⟩ := advance_running hadv
  obtain ⟨outcomes, h⟩ := round_tidy hends (tidy_startNext hc h) hround
  exact ⟨outcomes, tidy_startNext hc h⟩

/-- Whatever advances have done so far, the branches are tidy and within their limit. -/
theorem advances_tidy (hC : ∀ c, C c → c.result? = ends) {limit : Nat} {tolerance : Tolerance}
    {s₀ s : σ} (h : Advances C (.ofList children limit tolerance) s₀ b s log) :
    (∃ outcomes, Tidy C ends children log outcomes b) ∧ b.limit = limit ∧
      b.tolerance = tolerance ∧ b.InLimit := by
  induction h with
  | start => exact ⟨⟨_, tidy_ofList children limit tolerance⟩, rfl, rfl, fun _ => Nat.zero_le _⟩
  | next _ hc hadv ih =>
    obtain ⟨⟨outcomes, htidy⟩, hlimit, htolerance, hin⟩ := ih
    obtain ⟨hlimit', htolerance', hbusy⟩ := busy_advance hin hadv
    exact ⟨advance_tidy (hC _ hc) hc htidy hadv, hlimit'.trans hlimit,
      htolerance'.trans htolerance, hbusy.inLimit⟩

theorem startNext_logged (b : Branches α) : b.startNext c.logged = b.startNext c := rfl

theorem logged_result : c.logged.result? = c.result? := rfl

theorem abortAll_logged (cause : String) (xs : List (Nat × α)) (s : σ) :
    abortAll c.logged cause xs (s, log) = (abortAll c cause xs s, log) := by
  induction xs generalizing s with
  | nil => rfl
  | cons x rest ih => exact ih _

theorem round_logged (log : List (ChildStep α)) (todo : List (Nat × α)) (p : Bool)
    (b : Branches α) (s : σ) :
    ∃ log', round c.logged todo p b (s, log) =
      ((round c todo p b s).1, (round c todo p b s).2.1, (round c todo p b s).2.2, log') := by
  induction todo generalizing p b s log with
  | nil => exact ⟨log, rfl⟩
  | cons x rest ih =>
    obtain ⟨i, a⟩ := x
    rcases hstep : c.step i a s with ⟨o, a', s'⟩
    have hlogged : c.logged.step i a (s, log) = (o, a', s', log ++ [⟨i, a, a'⟩]) := by
      simp [Child.logged, hstep]
    simp only [round, hlogged, hstep, logged_result]
    cases hr : c.result? a' with
    | none => simpa only [hr] using ih _ _ _ _
    | some r =>
      rcases hrec : b.record i r with ⟨b', e⟩
      cases e with
      | none => simpa only [hr, hrec] using ih _ _ _ _
      | some e =>
        refine ⟨log ++ [⟨i, a, a'⟩], ?_⟩
        simp only [hrec, abandon, abortAll_logged]

/-- Writing down the steps changes nothing else. -/
theorem advance_logged (b : Branches α) (s : σ) :
    ∃ log', b.advance c.logged (s, log) =
      ((b.advance c s).1, (b.advance c s).2.1, (b.advance c s).2.2, log') := by
  obtain ⟨log', hround⟩ := round_logged (c := c) log (b.startNext c).inFlight
    (!b.nextUp.isEmpty) { b.startNext c with inFlight := [] } s
  refine ⟨log', ?_⟩
  unfold advance
  simp only [startNext_logged, hround]
  rcases round c (b.startNext c).inFlight (!b.nextUp.isEmpty)
    { b.startNext c with inFlight := [] } s with ⟨e | p, b', s'⟩
  · rfl
  · simp only
    split_ifs <;> rfl

/-- No child is lost, doubled or confused, however the children and the runner behave: the limit
holds throughout every advance; after one that goes on the branches are tidy and every slot is in
use as long as children wait; and the results of the last one are those of the children, each at
the place of its child. -/
theorem children_in_place (hC : ∀ c, C c → c.result? = ends) {limit : Nat} {tolerance : Tolerance}
    {s₀ s : σ} (h : Advances C (.ofList children limit tolerance) s₀ b s log) (hc : C c) :
    (∃ log', b.advance c.logged (s, log) =
      ((b.advance c s).1, (b.advance c s).2.1, (b.advance c s).2.2, log')) ∧
    (∀ b₁, Stage c.logged b (s, log) b₁ → b₁.limit = limit ∧ b₁.InLimit) ∧
    (∀ p b' s' log', b.advance c.logged (s, log) = (.running p, b', s', log') →
      b'.limit = limit ∧ b'.tolerance = tolerance ∧ b'.Busy ∧
        ∃ outcomes, Tidy C ends children log' outcomes b') ∧
    (∀ rs b' s' log', b.advance c.logged (s, log) = (.completed rs, b', s', log') →
      rs.length = children.length ∧ b'.recorded = children.length ∧
        ∀ i (hi : i < children.length), ∃ a r, Course C i children[i] (stepsOf i log') a ∧
          ends a = some r ∧ rs[i]? = some (slotOf r)) := by
  obtain ⟨⟨outcomes, htidy⟩, hlimit, htolerance, hin⟩ := advances_tidy hC h
  refine ⟨advance_logged b s, fun b₁ hs => ?_, fun p b' s' log' hadv => ?_,
    fun rs b' s' log' hadv => ?_⟩
  · obtain ⟨hlimit', hin'⟩ := stage_inLimit hin hs
    exact ⟨hlimit'.trans hlimit, hin'⟩
  · obtain ⟨hlimit', htolerance', hbusy⟩ := busy_advance hin hadv
    exact ⟨hlimit'.trans hlimit, htolerance'.trans htolerance, hbusy,
      advance_tidy (hC c hc) hc htidy hadv⟩
  · obtain ⟨q, b₁, hround, hp, hf, rfl, rfl⟩ := advance_completed hadv
    obtain ⟨outcomes, htidy⟩ := round_tidy (hC c hc) (tidy_startNext hc htidy) hround
    have hrecorded : b₁.recorded = children.length := tidy_recorded htidy hp hf
    refine ⟨?_, hrecorded, fun i hi => tidy_complete htidy hp hf hi⟩
    rw [List.length_map]
    exact htidy.layout.total

section

/-- A runner that takes no jobs. -/
def idleRunner : JobRunner Unit := ⟨fun r _ _ s => (.error (.unsupported r), s),
  fun _ s => (.running, s), fun _ s => s⟩

/-- A workflow that answers its input. -/
def echoWorkflow (n : Int) : Workflow where
  machine := ⟨"Done", [("Done", .succeed ⟨{}⟩)]⟩
  run := .ofInput default (.int n)

/-- The advances of children that are stepped at the moment zero. -/
def echoChild : Child Workflow Unit := Workflow.child idleRunner .zero

/-- Of two children that share one slot the second is started when the first is done. -/
theorem two_children_in_place : ∃ b log b' log',
    Advances (· = echoChild) (.ofList [echoWorkflow 1, echoWorkflow 2] 1 {}) () b () log ∧
    b.inFlight.map Prod.fst = [1] ∧
    b.advance echoChild.logged ((), log) = (.completed [.int 1, .int 2], b', (), log') ∧
    b'.recorded = 2 ∧
    ∃ a r, Course (· = echoChild) 1 (echoWorkflow 2) (stepsOf 1 log') a ∧
      a.run.result? = some r ∧ [Value.int 1, .int 2][1]? = some (slotOf r) := by
  have hfirst : Advances (· = echoChild) (.ofList [echoWorkflow 1, echoWorkflow 2] 1 {}) () _ () _ :=
    .next (p := true) .start rfl rfl
  have hends : ∀ c, c = echoChild → c.result? = fun w : Workflow => w.run.result? := by
    rintro _ rfl
    rfl
  have hlast := (children_in_place hends hfirst rfl).2.2.2 [.int 1, .int 2] _ _ _ rfl
  exact ⟨_, _, _, _, hfirst, rfl, rfl, hlast.2.1, hlast.2.2 1 (by decide)⟩

end

end Branches

end StatesLanguage
