import Mathlib.Algebra.Group.PUnit
import Mathlib.Tactic.Abel
import StatesLanguage.Branch.Basic

/-! Rules for the rounds of branches. What the children hold is counted in a commutative monoid, so
that a child can be stepped while the holdings of its siblings are only carried along. -/
namespace StatesLanguage

namespace Branches

variable {α σ : Type} {c : Child α σ} {b : Branches α} {s : σ}

@[simp] theorem record_pending (b : Branches α) (i : Nat) (r : Except ExecutionError Value) :
    (b.record i r).1.pending = b.pending := by
  cases r with
  | ok v => rfl
  | error e => simp only [record]; split_ifs <;> rfl

@[simp] theorem record_inFlight (b : Branches α) (i : Nat) (r : Except ExecutionError Value) :
    (b.record i r).1.inFlight = b.inFlight := by
  cases r with
  | ok v => rfl
  | error e => simp only [record]; split_ifs <;> rfl

@[simp] theorem record_limit (b : Branches α) (i : Nat) (r : Except ExecutionError Value) :
    (b.record i r).1.limit = b.limit := by
  cases r with
  | ok v => rfl
  | error e => simp only [record]; split_ifs <;> rfl

@[simp] theorem record_tolerance (b : Branches α) (i : Nat) (r : Except ExecutionError Value) :
    (b.record i r).1.tolerance = b.tolerance := by
  cases r with
  | ok v => rfl
  | error e => simp only [record]; split_ifs <;> rfl

/-- A round keeps an invariant when each child keeps it that stays in flight or ends well. A child
that fails for good ends the round at once. -/
theorem round_rule {I : List (Nat × α) → Bool → Branches α → σ → Prop}
    {Q : Except ExecutionError Bool × Branches α × σ → Prop}
    (stay : ∀ {i a rest p b s o a' s'}, I ((i, a) :: rest) p b s → c.step i a s = (o, a', s') →
      c.result? a' = none →
      I rest (p || o != .blocked) { b with inFlight := b.inFlight ++ [(i, a')] } s')
    (done : ∀ {i a rest p b s o a' s' r b'}, I ((i, a) :: rest) p b s →
      c.step i a s = (o, a', s') → c.result? a' = some r → b.record i r = (b', none) →
      I rest (p || o != .blocked) b' s')
    (fail : ∀ {i a rest p b s o a' s' r b' e}, I ((i, a) :: rest) p b s →
      c.step i a s = (o, a', s') → c.result? a' = some r → b.record i r = (b', some e) →
      Q (.error e, { b' with inFlight := b'.inFlight ++ rest }.abandon c siblingFailed s'))
    (finish : ∀ {p b s}, I [] p b s → Q (.ok p, b, s))
    {todo : List (Nat × α)} {p : Bool} (h : I todo p b s) : Q (round c todo p b s) := by
  induction todo generalizing p b s with
  | nil => exact finish h
  | cons x rest ih =>
    obtain ⟨i, a⟩ := x
    rcases hstep : c.step i a s with ⟨o, a', s'⟩
    rw [round, hstep]
    cases hr : c.result? a' with
    | none => simpa only [hr] using ih (stay h hstep hr)
    | some r =>
      rcases hrec : b.record i r with ⟨b', e⟩
      cases e with
      | none => simpa only [hr, hrec] using ih (done h hstep hr hrec)
      | some e => simpa only [hr, hrec] using fail h hstep hr hrec

/-- What neither a record nor the children in flight change is as it was after a round that goes
on. -/
theorem round_frame {β : Type} {f : Branches α → β} (hrecord : ∀ b i r, f (b.record i r).1 = f b)
    (hflight : ∀ b xs, f { b with inFlight := xs } = f b) {todo : List (Nat × α)} {p q : Bool}
    {b' : Branches α} {s' : σ} (h : round c todo p b s = (.ok q, b', s')) : f b' = f b := by
  revert h
  refine round_rule (I := fun _ _ b₁ _ => f b₁ = f b)
    (Q := fun x => x = (.ok q, b', s') → f b' = f b) ?_ ?_ ?_ ?_ rfl
  · intro i a rest p b₁ s o a' s' h _ _
    exact (hflight _ _).trans h
  · intro i a rest p b₁ s o a' s' r b₂ h _ _ hrec
    have hkept := hrecord b₁ i r
    rw [hrec] at hkept
    exact hkept.trans h
  · rintro i a rest p b₁ s o a' s' r b₂ err _ _ _ _ ⟨⟩
  · rintro p b₁ s h ⟨⟩
    exact h

/-- An advance is a round between two admissions, unless the round fails or leaves nothing. -/
theorem advance_rule {Q : BranchOutcome × Branches α × σ → Prop}
    (failed : ∀ {e b' s'}, round c (b.startNext c).inFlight (!b.nextUp.isEmpty)
      { b.startNext c with inFlight := [] } s = (.error e, b', s') → Q (.failed e, b', s'))
    (completed : ∀ {p b' s'}, round c (b.startNext c).inFlight (!b.nextUp.isEmpty)
      { b.startNext c with inFlight := [] } s = (.ok p, b', s') → b'.pending = [] →
      b'.inFlight = [] →
      Q (.completed (b'.results.map Value.ofOption), { b' with results := [] }, s'))
    (running : ∀ {p b' s'}, round c (b.startNext c).inFlight (!b.nextUp.isEmpty)
      { b.startNext c with inFlight := [] } s = (.ok p, b', s') →
      ¬ (b'.pending = [] ∧ b'.inFlight = []) →
      Q (.running (p || !b'.nextUp.isEmpty), b'.startNext c, s')) :
    Q (b.advance c s) := by
  unfold advance
  rcases hround : round c (b.startNext c).inFlight (!b.nextUp.isEmpty)
    { b.startNext c with inFlight := [] } s with ⟨res, b', s'⟩
  cases res with
  | error e => simpa only [hround] using failed hround
  | ok p =>
    simp only [hround]
    split_ifs with hend
    · have hend : b'.pending = [] ∧ b'.inFlight = [] := by simpa using hend
      exact completed hround hend.1 hend.2
    · exact running hround (by simpa using hend)

theorem advance_running {p : Bool} {b' : Branches α} {s' : σ}
    (h : b.advance c s = (.running p, b', s')) :
    ∃ q b₁, round c (b.startNext c).inFlight (!b.nextUp.isEmpty)
      { b.startNext c with inFlight := [] } s = (.ok q, b₁, s') ∧
      ¬ (b₁.pending = [] ∧ b₁.inFlight = []) ∧ p = (q || !b₁.nextUp.isEmpty) ∧
      b' = b₁.startNext c := by
  revert h
  refine advance_rule (Q := fun x => x = (.running p, b', s') → _) ?_ ?_ ?_
  · intro e b₁ s₁ _ h
    simp at h
  · intro q b₁ s₁ _ _ _ h
    simp at h
  · intro q b₁ s₁ hround hend h
    simp only [Prod.mk.injEq, BranchOutcome.running.injEq] at h
    obtain ⟨hp, hb, rfl⟩ := h
    exact ⟨q, b₁, hround, hend, hp.symm, hb.symm⟩

theorem advance_completed {rs : List Value} {b' : Branches α} {s' : σ}
    (h : b.advance c s = (.completed rs, b', s')) :
    ∃ q b₁, round c (b.startNext c).inFlight (!b.nextUp.isEmpty)
      { b.startNext c with inFlight := [] } s = (.ok q, b₁, s') ∧
      b₁.pending = [] ∧ b₁.inFlight = [] ∧ rs = b₁.results.map Value.ofOption ∧
      b' = { b₁ with results := [] } := by
  revert h
  refine advance_rule (Q := fun x => x = (.completed rs, b', s') → _) ?_ ?_ ?_
  · intro e b₁ s₁ _ h
    simp at h
  · intro q b₁ s₁ hround hp hf h
    simp only [Prod.mk.injEq, BranchOutcome.completed.injEq] at h
    obtain ⟨hrs, hb, rfl⟩ := h
    exact ⟨q, b₁, hround, hp, hf, hrs.symm, hb.symm⟩
  · intro q b₁ s₁ _ _ h
    simp at h

/-- The last branches of an advance that does not go on hold no children. -/
theorem advance_ended {o : BranchOutcome} {b' : Branches α} {s' : σ}
    (h : b.advance c s = (o, b', s')) (ho : ∀ p, o ≠ .running p) :
    b'.pending = [] ∧ b'.inFlight = [] := by
  revert h
  refine advance_rule (Q := fun q => q = (o, b', s') → _) ?_ ?_ ?_
  · intro e b₁ s₁ hround h
    revert hround
    refine round_rule (I := fun _ _ _ _ => True)
      (Q := fun q => q = (.error e, b₁, s₁) → b'.pending = [] ∧ b'.inFlight = [])
      (fun _ _ _ => trivial) (fun _ _ _ _ => trivial) ?_ ?_ trivial
    · intro i a rest p b s o a' s' r b'' e' _ _ _ _ heq
      simp only [abandon, Prod.mk.injEq] at heq h
      simp [← h.2.1, ← heq.2.1]
    · intro p b s _ heq
      simp at heq
  · intro p b₁ s₁ _ hp hf h
    simp only [Prod.mk.injEq] at h
    simp [← h.2.1, hp, hf]
  · intro p b₁ s₁ _ _ h
    simp only [Prod.mk.injEq] at h
    exact (ho _ h.1.symm).elim

end Branches

section

variable {α σ R : Type} [AddCommMonoid R]

/-- What the children of a list hold together. -/
inductive Holdings (K : Nat → α → R → Prop) : List (Nat × α) → R → Prop where
  | nil : Holdings K [] 0
  | cons {i : Nat} {a : α} {rest : List (Nat × α)} {T U : R} :
    K i a T → Holdings K rest U → Holdings K ((i, a) :: rest) (T + U)

/-- Children that keep `K` while they are in flight and account for all that they hold: `A` is known
of the runner with everything that is held, whoever holds it. A child that waits is in `W` and holds
nothing, and neither does one that has ended or was aborted. -/
structure Child.Keeps (c : Child α σ) (W : Nat → α → Prop) (K : Nat → α → R → Prop)
    (A : σ → R → Prop) : Prop where
  start : ∀ {i a}, W i a → K i (c.start i a) 0
  stay : ∀ {i a s o a' s' T F}, K i a T → A s (T + F) → c.step i a s = (o, a', s') →
    c.result? a' = none → ∃ T', K i a' T' ∧ A s' (T' + F)
  ended : ∀ {i a s o a' s' r T F}, K i a T → A s (T + F) → c.step i a s = (o, a', s') →
    c.result? a' = some r → A s' F
  abort : ∀ {i a s cause T F}, K i a T → A s (T + F) → A (c.abort cause a s).2 F

variable {W : Nat → α → Prop} {K : Nat → α → R → Prop} {A : σ → R → Prop} {c : Child α σ}

namespace Holdings

theorem append {xs ys : List (Nat × α)} {T U : R} (hx : Holdings K xs T) (hy : Holdings K ys U) :
    Holdings K (xs ++ ys) (T + U) := by
  induction hx with
  | nil => simpa using hy
  | cons hk _ ih =>
    rw [add_assoc]
    exact cons hk ih

theorem of_append {xs ys : List (Nat × α)} {T : R} (h : Holdings K (xs ++ ys) T) :
    ∃ U V, Holdings K xs U ∧ Holdings K ys V ∧ T = U + V := by
  induction xs generalizing T with
  | nil => exact ⟨0, T, nil, h, (zero_add T).symm⟩
  | cons x rest ih =>
    cases h with
    | cons hk h =>
      obtain ⟨U, V, hx, hy, rfl⟩ := ih h
      exact ⟨_, V, cons hk hx, hy, (add_assoc _ U V).symm⟩

theorem singleton {i : Nat} {a : α} {T : R} (h : K i a T) : Holdings K [(i, a)] T := by
  simpa using cons h nil

theorem of_waiting {xs : List (Nat × α)} (hc : c.Keeps W K A) (h : ∀ x ∈ xs, W x.1 x.2) :
    Holdings K (xs.map fun (i, a) => (i, c.start i a)) 0 := by
  induction xs with
  | nil => exact nil
  | cons x rest ih =>
    have hx := hc.start (h x List.mem_cons_self)
    have hrest := ih fun y hy => h y (List.mem_cons_of_mem _ hy)
    simpa using cons hx hrest

end Holdings

namespace Branches

variable {b : Branches α} {s : σ} {T F : R}

/-- Branches whose children wait in `W` or are in flight in `K`, holding `T` together. -/
structure Kept (W : Nat → α → Prop) (K : Nat → α → R → Prop) (b : Branches α) (T : R) : Prop where
  waiting : ∀ x ∈ b.pending, W x.1 x.2
  flying : Holdings K b.inFlight T

theorem kept_startNext (hc : c.Keeps W K A) (hb : Kept W K b T) : Kept W K (b.startNext c) T := by
  refine ⟨fun x hx => hb.waiting x (List.mem_of_mem_drop hx), ?_⟩
  have hup : ∀ x ∈ b.nextUp, W x.1 x.2 := fun x hx => hb.waiting x (List.mem_of_mem_take hx)
  simpa [startNext] using hb.flying.append (.of_waiting hc hup)

theorem abortAll_keeps (hc : c.Keeps W K A) {cause : String} {xs : List (Nat × α)}
    (hx : Holdings K xs T) (hs : A s (T + F)) : A (abortAll c cause xs s) F := by
  induction hx generalizing s with
  | nil => simpa [abortAll] using hs
  | cons hk _ ih =>
    rw [add_assoc] at hs
    exact ih (hc.abort hk hs)

theorem holdings_first {i : Nat} {a : α} {rest : List (Nat × α)} {U : R}
    (hx : Holdings K ((i, a) :: rest) U) (hs : A s (T + U + F)) :
    ∃ T₁ V, K i a T₁ ∧ Holdings K rest V ∧ A s (T₁ + (T + V + F)) := by
  obtain _ | @⟨_, _, _, T₁, V, hk, hrest⟩ := hx
  refine ⟨T₁, V, hk, hrest, ?_⟩
  convert hs using 1
  abel

theorem round_keeps (hc : c.Keeps W K A) {todo : List (Nat × α)} {p : Bool} {U : R}
    (hb : Kept W K b T) (htodo : Holdings K todo U) (hs : A s (T + U + F)) :
    ∃ T', Kept W K (round c todo p b s).2.1 T' ∧ A (round c todo p b s).2.2 (T' + F) := by
  refine round_rule
    (I := fun todo _ b s => ∃ T U, Kept W K b T ∧ Holdings K todo U ∧ A s (T + U + F))
    (Q := fun q => ∃ T', Kept W K q.2.1 T' ∧ A q.2.2 (T' + F)) ?_ ?_ ?_ ?_
    ⟨T, U, hb, htodo, hs⟩
  · rintro i a rest p b s o a' s' ⟨T, U, hb, hx, hs⟩ hstep hr
    obtain ⟨T₁, V, hk, hrest, hs⟩ := holdings_first hx hs
    obtain ⟨T', hk', hs'⟩ := hc.stay hk hs hstep hr
    refine ⟨T + T', V, ⟨hb.waiting, hb.flying.append (.singleton hk')⟩, hrest, ?_⟩
    convert hs' using 1
    abel
  · rintro i a rest p b s o a' s' r b' ⟨T, U, hb, hx, hs⟩ hstep hr hrec
    obtain ⟨T₁, V, hk, hrest, hs⟩ := holdings_first hx hs
    have hb' : b' = (b.record i r).1 := by rw [hrec]
    refine ⟨T, V, ⟨?_, ?_⟩, hrest, hc.ended hk hs hstep hr⟩
    · simpa [hb'] using hb.waiting
    · simpa [hb'] using hb.flying
  · rintro i a rest p b s o a' s' r b' e ⟨T, U, hb, hx, hs⟩ hstep hr hrec
    obtain ⟨T₁, V, hk, hrest, hs⟩ := holdings_first hx hs
    have hb' : b'.inFlight = b.inFlight := by
      rw [← record_inFlight b i r, hrec]
    have hflying : Holdings K (b'.inFlight ++ rest) (T + V) := by
      rw [hb']
      exact hb.flying.append hrest
    refine ⟨0, ⟨by simp [abandon], .nil⟩, ?_⟩
    rw [zero_add]
    exact abortAll_keeps hc hflying (hc.ended hk hs hstep hr)
  · rintro p b s ⟨T, U, hb, hx, hs⟩
    cases hx with
    | nil => exact ⟨T, hb, by simpa using hs⟩

/-- An advance keeps what each child keeps, and accounts for all that the children hold. -/
theorem advance_keeps (hc : c.Keeps W K A) (hb : Kept W K b T) (hs : A s (T + F)) :
    ∃ T', Kept W K (b.advance c s).2.1 T' ∧ A (b.advance c s).2.2 (T' + F) := by
  have hstart := kept_startNext hc hb
  have hround := round_keeps hc (F := F) (p := !b.nextUp.isEmpty)
    (b := { b.startNext c with inFlight := [] }) ⟨hstart.waiting, .nil⟩ hstart.flying
    (by simpa using hs)
  refine advance_rule (Q := fun q => ∃ T', Kept W K q.2.1 T' ∧ A q.2.2 (T' + F)) ?_ ?_ ?_
  · intro e b' s' h
    rwa [h] at hround
  · intro p b' s' h _ _
    obtain ⟨T', hb', hs'⟩ := h ▸ hround
    exact ⟨T', ⟨hb'.waiting, hb'.flying⟩, hs'⟩
  · intro p b' s' h _
    obtain ⟨T', hb', hs'⟩ := h ▸ hround
    exact ⟨T', kept_startNext hc hb', hs'⟩

end Branches

end

section

variable {α σ : Type} {W K : Nat → α → Prop} {c : Child α σ} {b : Branches α} {s : σ}

theorem holdings_forall {R : Type} [AddCommMonoid R] {xs : List (Nat × α)} :
    (∃ T, Holdings (fun i a (_ : R) => K i a) xs T) ↔ ∀ x ∈ xs, K x.1 x.2 := by
  constructor
  · rintro ⟨T, h⟩
    induction h with
    | nil => simp
    | cons hk _ ih => exact List.forall_mem_cons.mpr ⟨hk, ih⟩
  · intro h
    induction xs with
    | nil => exact ⟨0, .nil⟩
    | cons x rest ih =>
      obtain ⟨T, hrest⟩ := ih fun y hy => h y (List.mem_cons_of_mem _ hy)
      exact ⟨0 + T, .cons (h x List.mem_cons_self) hrest⟩

/-- What each step of a child keeps while it is in flight holds of the children of an advance. -/
theorem Branches.advance_invariant (start : ∀ {i a}, W i a → K i (c.start i a))
    (stay : ∀ {i a s o a' s'}, K i a → c.step i a s = (o, a', s') → c.result? a' = none → K i a')
    (hw : ∀ x ∈ b.pending, W x.1 x.2) (hk : ∀ x ∈ b.inFlight, K x.1 x.2) :
    (∀ x ∈ (b.advance c s).2.1.pending, W x.1 x.2) ∧
      ∀ x ∈ (b.advance c s).2.1.inFlight, K x.1 x.2 := by
  have hc : c.Keeps W (fun i a (_ : Unit) => K i a) (fun _ _ => True) :=
    ⟨start, fun h _ hstep hr => ⟨(), stay h hstep hr, trivial⟩, fun _ _ _ _ => trivial,
      fun _ _ => trivial⟩
  obtain ⟨T, hflying⟩ := (holdings_forall (R := Unit)).mpr hk
  have hb : Kept W (fun i a (_ : Unit) => K i a) b T := ⟨hw, hflying⟩
  obtain ⟨T', hb, -⟩ := advance_keeps hc (F := ()) (s := s) hb trivial
  exact ⟨hb.waiting, holdings_forall.mp ⟨T', hb.flying⟩⟩

end

end StatesLanguage
