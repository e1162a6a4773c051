import Mathlib.Algebra.Order.Monoid.Canonical.Defs
import StatesLanguage.Proofs.Stepping

/-! Branches side by side with branches like them. As long as their children go in step, so do the
branches, although each side has its own runner, and the states that advance them. -/
namespace StatesLanguage

section

variable {α σ R : Type} [AddCommMonoid R]

/-- Children of the same numbers that are paired in `K`, with what the pairs hold together. -/
inductive Paired (K : α → α → R → Prop) : List (Nat × α) → List (Nat × α) → R → Prop where
  | nil : Paired K [] [] 0
  | cons {i : Nat} {a a' : α} {rest rest' : List (Nat × α)} {T U : R} : K a a' T →
    Paired K rest rest' U → Paired K ((i, a) :: rest) ((i, a') :: rest') (T + U)

/-- Branches that are the same but for their children. Children that wait hold nothing. -/
inductive Branches.Alike (K : α → α → R → Prop) : Branches α → Branches α → R → Prop where
  | intro {pending pending' inFlight inFlight' : List (Nat × α)} {results : List (Option Value)}
    {limit recorded failed : Nat} {tolerance : Tolerance} {T : R} : Paired K pending pending' 0 →
    Paired K inFlight inFlight' T →
    Alike K ⟨pending, inFlight, results, limit, tolerance, recorded, failed⟩
      ⟨pending', inFlight', results, limit, tolerance, recorded, failed⟩ T

/-- What came of the same work on two sides: the same outcome, and again a pair in `K`. `A` is known
of both runners with all that is held. -/
def InStep {β γ : Type} (K : γ → γ → R → Prop) (A : σ → σ → R → Prop) (F : R)
    (x x' : β × γ × σ) : Prop :=
  x.1 = x'.1 ∧ ∃ T, K x.2.1 x'.2.1 T ∧ A x.2.2 x'.2.2 (T + F)

theorem InStep.split {β γ : Type} {K : γ → γ → R → Prop} {A : σ → σ → R → Prop} {F : R}
    {x x' : β × γ × σ} (h : InStep K A F x x') :
    ∃ o a a' s s' T, x = (o, a, s) ∧ x' = (o, a', s') ∧ K a a' T ∧ A s s' (T + F) := by
  obtain ⟨o, a, s⟩ := x
  obtain ⟨o', a', s'⟩ := x'
  obtain ⟨heq, T, hk, hs⟩ := h
  have heq : o = o' := heq
  subst heq
  exact ⟨o, a, a', s, s', T, rfl, rfl, hk, hs⟩

/-- Children that go in step: a pair in `K` becomes a pair in `K`, and its halves come to the same
end. -/
structure Child.Pairs (c c' : Child α σ) (K : α → α → R → Prop) (A : σ → σ → R → Prop) : Prop where
  start : ∀ {i a a' T}, K a a' T → K (c.start i a) (c'.start i a') T
  step : ∀ {i a a' s s' T F}, K a a' T → A s s' (T + F) →
    InStep K A F (c.step i a s) (c'.step i a' s')
  result : ∀ {a a' T}, K a a' T → c.result? a = c'.result? a'
  abort : ∀ {a a' s s' cause T F}, K a a' T → A s s' (T + F) →
    A (c.abort cause a s).2 (c'.abort cause a' s').2 F
  forget : ∀ {s s' T F}, A s s' (T + F) → A s s' F

variable {K : α → α → R → Prop} {A : σ → σ → R → Prop} {c c' : Child α σ}

namespace Paired

variable {xs xs' ys ys' : List (Nat × α)} {T U : R}

theorem append (hx : Paired K xs xs' T) (hy : Paired K ys ys' U) :
    Paired K (xs ++ ys) (xs' ++ ys') (T + U) := by
  induction hx with
  | nil => simpa using hy
  | cons hk _ ih =>
    rw [add_assoc]
    exact cons hk ih

theorem singleton {i : Nat} {a a' : α} (h : K a a' T) : Paired K [(i, a)] [(i, a')] T := by
  simpa using cons h nil

theorem length_eq (h : Paired K xs xs' T) : xs.length = xs'.length := by
  induction h with
  | nil => rfl
  | cons _ _ ih => simp [ih]

theorem isEmpty_eq (h : Paired K xs xs' T) : xs.isEmpty = xs'.isEmpty := by
  cases h <;> rfl

theorem started (hc : c.Pairs c' K A) (h : Paired K xs xs' T) :
    Paired K (xs.map fun (i, a) => (i, c.start i a)) (xs'.map fun (i, a) => (i, c'.start i a)) T := by
  induction h with
  | nil => exact nil
  | cons hk _ ih => exact cons (hc.start hk) ih

theorem split (h : Paired K xs xs' T) (n : Nat) :
    ∃ U V, Paired K (xs.take n) (xs'.take n) U ∧ Paired K (xs.drop n) (xs'.drop n) V ∧
      T = U + V := by
  induction h generalizing n with
  | nil => exact ⟨0, 0, by simpa using nil, by simpa using nil, (add_zero 0).symm⟩
  | @cons i a a' rest rest' T₁ T₂ hk hrest ih =>
    cases n with
    | zero => exact ⟨0, T₁ + T₂, nil, cons hk hrest, (zero_add _).symm⟩
    | succ n =>
      obtain ⟨U, V, htake, hdrop, rfl⟩ := ih n
      exact ⟨T₁ + U, V, cons hk htake, hdrop, (add_assoc T₁ U V).symm⟩

theorem split_zero [PartialOrder R] [CanonicallyOrderedAdd R] (h : Paired K xs xs' (0 : R))
    (n : Nat) :
    Paired K (xs.take n) (xs'.take n) (0 : R) ∧ Paired K (xs.drop n) (xs'.drop n) (0 : R) := by
  obtain ⟨U, V, htake, hdrop, hsum⟩ := h.split n
  obtain ⟨rfl, rfl⟩ := add_eq_zero.mp hsum.symm
  exact ⟨htake, hdrop⟩

end Paired

namespace Branches

variable {b b' : Branches α} {s s' : σ} {T F : R}

/-- Children that are made alike from the same values. -/
theorem paired_mapIdx {β : Type} {f f' : β → α} (h : ∀ x, K (f x) (f' x) (0 : R)) (n : Nat)
    (xs : List β) :
    Paired K ((xs.map f).mapIdx fun i a => (i + n, a)) ((xs.map f').mapIdx fun i a => (i + n, a))
      (0 : R) := by
  induction xs generalizing n with
  | nil => exact .nil
  | cons x rest ih =>
    have hrest := Paired.cons (i := 0 + n) (h x) (ih (n + 1))
    rw [zero_add] at hrest
    simpa [List.mapIdx_cons, Nat.add_assoc, Nat.add_comm 1 n] using hrest

theorem alike_ofList {β : Type} {f f' : β → α} (h : ∀ x, K (f x) (f' x) (0 : R)) (xs : List β)
    (limit : Nat) (tolerance : Tolerance) :
    Alike K (.ofList (xs.map f) limit tolerance) (.ofList (xs.map f') limit tolerance) (0 : R) := by
  have hpending := paired_mapIdx h 0 xs
  simp only [Nat.add_zero] at hpending
  simpa only [ofList, List.map_map, Function.comp_def] using Alike.intro hpending .nil

theorem Alike.freeSlots (h : Alike K b b' T) : b.freeSlots = b'.freeSlots := by
  cases h with
  | intro hwaiting hflying => simp [Branches.freeSlots, hwaiting.length_eq, hflying.length_eq]

theorem alike_record (h : Alike K b b' T) (i : Nat) (r : Except ExecutionError Value) :
    (b.record i r).2 = (b'.record i r).2 ∧ Alike K (b.record i r).1 (b'.record i r).1 T := by
  cases h with
  | @intro _ _ _ _ results _ _ failed tolerance _ hwaiting hflying =>
    cases r with
    | ok v => exact ⟨rfl, .intro hwaiting hflying⟩
    | error err =>
      cases hallowed : tolerance.allows (failed + 1) results.length with
      | true =>
        simp only [record, total, hallowed, if_true]
        exact ⟨trivial, .intro hwaiting hflying⟩
      | false =>
        cases hconfigured : tolerance.isConfigured with
        | true =>
          simp only [record, total, hallowed, hconfigured, Bool.false_eq_true, if_true, if_false]
          exact ⟨trivial, .intro hwaiting hflying⟩
        | false =>
          simp only [record, total, hallowed, hconfigured, Bool.false_eq_true, if_false]
          exact ⟨trivial, .intro hwaiting hflying⟩

theorem alike_flying {xs xs' : List (Nat × α)} {U : R} (h : Alike K b b' T)
    (hx : Paired K xs xs' U) :
    Alike K { b with inFlight := b.inFlight ++ xs } { b' with inFlight := b'.inFlight ++ xs' }
      (T + U) := by
  cases h with
  | intro hwaiting hflying => exact .intro hwaiting (hflying.append hx)

theorem abortAll_pairs (hc : c.Pairs c' K A) {cause : String} {xs xs' : List (Nat × α)}
    (hx : Paired K xs xs' T) (hs : A s s' (T + F)) :
    A (abortAll c cause xs s) (abortAll c' cause xs' s') F := by
  induction hx generalizing s s' with
  | nil => simpa [abortAll] using hs
  | cons hk _ ih =>
    rw [add_assoc] at hs
    exact ih (hc.abort hk hs)

theorem alike_abandon (hc : c.Pairs c' K A) (cause : String) (h : Alike K b b' T)
    (hs : A s s' (T + F)) :
    Alike K (b.abandon c cause s).1 (b'.abandon c' cause s').1 0 ∧
      A (b.abandon c cause s).2 (b'.abandon c' cause s').2 F := by
  cases h with
  | intro hwaiting hflying => exact ⟨.intro .nil .nil, abortAll_pairs hc hflying hs⟩

/-- Rounds over children in step have the same outcome. -/
theorem round_pairs (hc : c.Pairs c' K A) {todo todo' : List (Nat × α)} {p : Bool} {U : R}
    (htodo : Paired K todo todo' U) (h : Alike K b b' T) (hs : A s s' (T + U + F)) :
    InStep (Alike K) A F (round c todo p b s) (round c' todo' p b' s') := by
  induction htodo generalizing p b b' s s' T with
  | nil => exact ⟨rfl, T, h, by simpa [round] using hs⟩
  | @cons i a a' rest rest' T₁ V hk hrest ih =>
    have hs : A s s' (T₁ + (T + V + F)) := by
      convert hs using 1
      abel
    obtain ⟨o, a₁, a₁', s₁, s₁', T', hstep, hstep', hk', hs'⟩ := (hc.step (i := i) hk hs).split
    simp only [round, hstep, hstep', ← hc.result hk']
    cases hr : c.result? a₁ with
    | none =>
      refine ih (alike_flying h (.singleton hk')) ?_
      convert hs' using 1
      abel
    | some r =>
      have hs' : A s₁ s₁' (T + V + F) := hc.forget hs'
      obtain ⟨herr, hrecord⟩ := alike_record h i r
      rcases hrec : b.record i r with ⟨b₁, err⟩
      rcases hrec' : b'.record i r with ⟨b₁', err'⟩
      simp only [hrec, hrec'] at herr hrecord
      subst err'
      simp only [hrec, hrec']
      cases err with
      | none => exact ih hrecord hs'
      | some err =>
        obtain ⟨hb, hs'⟩ :=
          alike_abandon hc siblingFailed (alike_flying hrecord hrest) hs'
        refine ⟨rfl, 0, hb, ?_⟩
        rw [zero_add]
        exact hs'

section

variable [PartialOrder R] [CanonicallyOrderedAdd R]

theorem Alike.nextUp (h : Alike K b b' T) : Paired K b.nextUp b'.nextUp 0 := by
  rw [Branches.nextUp, Branches.nextUp, h.freeSlots]
  cases h with
  | intro hwaiting _ => exact (hwaiting.split_zero _).1

theorem alike_startNext (hc : c.Pairs c' K A) (h : Alike K b b' T) :
    Alike K (b.startNext c) (b'.startNext c') T := by
  have hup := h.nextUp.started hc
  have hslots := h.freeSlots
  cases h with
  | intro hwaiting hflying =>
    have hflying := hflying.append hup
    rw [add_zero] at hflying
    refine .intro ?_ hflying
    rw [hslots]
    exact (hwaiting.split_zero _).2

/-- Advances of branches whose children go in step have the same outcome. -/
theorem advance_pairs (hc : c.Pairs c' K A) (h : Alike K b b' T) (hs : A s s' (T + F)) :
    InStep (Alike K) A F (b.advance c s) (b'.advance c' s') := by
  have hround : InStep (Alike K) A F
      (round c (b.startNext c).inFlight (!b.nextUp.isEmpty)
        { b.startNext c with inFlight := [] } s)
      (round c' (b'.startNext c').inFlight (!b'.nextUp.isEmpty)
        { b'.startNext c' with inFlight := [] } s') := by
    rw [← h.nextUp.isEmpty_eq]
    have hbegun := alike_startNext hc h
    generalize b.startNext c = b₁, b'.startNext c' = b₁' at hbegun
    cases hbegun with
    | intro hwaiting hflying =>
      exact round_pairs hc hflying (.intro hwaiting .nil) (by simpa using hs)
  obtain ⟨res, b₁, b₁', s₁, s₁', T', hleft, hright, hb, hs'⟩ := hround.split
  unfold advance
  simp only [hleft, hright]
  cases res with
  | error err => exact ⟨rfl, T', hb, hs'⟩
  | ok p =>
    have hup := hb.nextUp.isEmpty_eq
    have hstart := alike_startNext hc hb
    cases hb with
    | intro hwaiting hflying =>
      simp only [← hwaiting.isEmpty_eq, ← hflying.isEmpty_eq]
      split_ifs
      · exact ⟨rfl, T', .intro hwaiting hflying, hs'⟩
      · refine ⟨?_, T', hstart, hs'⟩
        simp only [hup]

end

end Branches

end

section

variable {σ R : Type} [AddCommMonoid R] {K : Run → Run → R → Prop} {V : Visit → Visit → R → Prop}
  {A : σ → σ → R → Prop} {c c' : Child Run σ} {v v' : Visit} {s s' : σ} {T F : R}
  {start start' : Except ExecutionError (Branches Run)}
  {complete : Value → Except ExecutionError Advance}

/-- Nested workflows of a state go in step when runs of the machines for them do. A workflow without a
machine stays as it is. -/
theorem Machine.State.child_in_step {st : State} {e e' : Engine σ} {m m' : Moment}
    (start : ∀ {sub r r' T}, K r r' T → K (r.start sub m.now) (r'.start sub m'.now) T)
    (step : ∀ sub ∈ st.machines, ∀ {i r r' s s' T F}, K r r' T → A s s' (T + F) →
      InStep K A F (sub.step e (m.child i) r s) (sub.step e' (m'.child i) r' s'))
    (result : ∀ {r r' T}, K r r' T → r.result? = r'.result?)
    (abort : ∀ {r r' s s' cause T F}, K r r' T → A s s' (T + F) →
      A (r.abort e.runner cause s).2 (r'.abort e'.runner cause s').2 F)
    (forget : ∀ {s s' T F}, A s s' (T + F) → A s s' F) :
    (st.child e m).Pairs (st.child e' m') K A where
  start := by
    intro i r r' T hr
    simp only [State.child, Run.child]
    cases st.machineAt? i with
    | none => exact hr
    | some sub => exact start hr
  step := by
    intro i r r' s s' T F hr hs
    simp only [State.child, Run.child]
    cases hsub : st.machineAt? i with
    | none => exact ⟨rfl, T, hr, hs⟩
    | some sub => exact step sub (mem_machines hsub) hr hs
  result := result
  abort := abort
  forget := forget

/-- Stays that go together with nested workflows in `K`: both have such, or none has any, and they
still go together when both get others or stop. -/
structure Visit.Pairs (V : Visit → Visit → R → Prop) (K : Run → Run → R → Prop) : Prop where
  nested : ∀ {v v' T}, V v v' T →
    (∃ b b', v.progress = .branches b ∧ v'.progress = .branches b' ∧ Branches.Alike K b b' T) ∨
      (∀ b, v.progress ≠ .branches b) ∧ ∀ b, v'.progress ≠ .branches b
  branches : ∀ {v v' b b' T U}, V v v' T → Branches.Alike K b b' U →
    V { v with progress := .branches b } { v' with progress := .branches b' } U
  idle : ∀ {v v' T}, V v v' T → V { v with progress := .idle } { v' with progress := .idle } 0

/-- States that advance nested workflows in step have the same outcome. -/
theorem Branches.work_pairs [PartialOrder R] [CanonicallyOrderedAdd R] (hV : Visit.Pairs V K)
    (hc : c.Pairs c' K A)
    (hstart : (∃ err, start = .error err ∧ start' = .error err) ∨
      ∃ b b', start = .ok b ∧ start' = .ok b' ∧ Alike K b b' 0)
    (hv : V v v' T) (hs : A s s' (T + F)) :
    InStep V A F (work start c complete v s) (work start' c' complete v' s') := by
  have hidle : ∀ {s s' T}, A s s' (T + F) → A s s' (0 + F) := by
    intro s s' T hs
    rw [zero_add]
    exact hc.forget hs
  have htaken {b b' : Branches Run} {U : R}
      (hb : v.progress = .branches b ∨ (∀ b, v.progress ≠ .branches b) ∧ start = .ok b)
      (hb' : v'.progress = .branches b' ∨ (∀ b, v'.progress ≠ .branches b) ∧ start' = .ok b')
      (halike : Alike K b b' U) (hs : A s s' (U + F)) :
      InStep V A F (work start c complete v s) (work start' c' complete v' s') := by
    obtain ⟨o, b₁, b₁', s₁, s₁', U', hleft, hright, hb₁, hs₁⟩ := (advance_pairs hc halike hs).split
    rw [work_branches hb, work_branches hb', hleft, hright]
    cases o with
    | running progressed => exact ⟨rfl, U', hV.branches hv hb₁, hs₁⟩
    | completed results => exact ⟨rfl, 0, hV.idle hv, hidle hs₁⟩
    | failed err => exact ⟨rfl, 0, hV.idle hv, hidle hs₁⟩
  obtain ⟨b, b', hp, hp', hb⟩ | ⟨hp, hp'⟩ := hV.nested hv
  · exact htaken (.inl hp) (.inl hp') hb hs
  · obtain ⟨err, rfl, rfl⟩ | ⟨b, b', hb, hb', halike⟩ := hstart
    · rw [work_unopened hp, work_unopened hp']
      exact ⟨rfl, 0, hV.idle hv, hidle hs⟩
    · exact htaken (.inr ⟨hp, hb⟩) (.inr ⟨hp', hb'⟩) halike (hidle hs)

end

end StatesLanguage
