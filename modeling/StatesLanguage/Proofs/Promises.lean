import Mathlib.Algebra.Group.Nat.Defs
import Mathlib.Algebra.Group.Prod
import StatesLanguage.Proofs.Slots

/-! Branches whose children are all so many steps away from a known output. Whatever the limit, each
advance takes them nearer to the list of these outputs. -/
namespace StatesLanguage

section

variable {α σ R : Type} [AddCommMonoid R] {outputs : List Value} {W : Nat → α → Nat → Prop}
  {K : Nat → α → R × Nat → Prop} {A : σ → R → Prop} {c : Child α σ}

/-- Children that come to their outputs. A child in flight is in `K` with what it holds and with the
steps that it has yet to take, and each step takes one off. One that waits is in `W` with the steps
that lie before it. -/
structure Child.Promises (c : Child α σ) (outputs : List Value) (W : Nat → α → Nat → Prop)
    (K : Nat → α → R × Nat → Prop) (A : σ → R → Prop) : Prop where
  start : ∀ {i a n}, W i a n → K i (c.start i a) (0, n)
  step : ∀ {i a s o a' s' T F n}, K i a (T, n) → A s (T + F) → c.step i a s = (o, a', s') →
    ∃ k, n = k + 1 ∧ ((c.result? a' = none ∧ ∃ T', K i a' (T', k) ∧ A s' (T' + F)) ∨
      ∃ v, c.result? a' = some (.ok v) ∧ outputs[i]? = some v ∧ A s' F)

namespace Branches

variable {b b' : Branches α} {s : σ} {T : R} {P N : Nat}

/-- Every output is at its place, or its child is still there. -/
structure Awaits (outputs : List Value) (b : Branches α) : Prop where
  total : b.total = outputs.length
  awaited : ∀ {j v}, outputs[j]? = some v → b.results[j]? = some (some v) ∨ j ∈ b.line

/-- Branches that await their outputs, with what the children hold, the steps that lie before those
that wait, and the steps that those in flight have yet to take. -/
structure Promised (outputs : List Value) (W : Nat → α → Nat → Prop)
    (K : Nat → α → R × Nat → Prop) (b : Branches α) (T : R) (P N : Nat) : Prop where
  awaits : b.Awaits outputs
  waiting : Holdings W b.pending P
  flying : Holdings K b.inFlight (T, N)

theorem awaits_congr (h : b.Awaits outputs) (hline : b'.line = b.line)
    (hresults : b'.results = b.results) : b'.Awaits outputs :=
  ⟨by rw [total, hresults]; exact h.total, by rw [hline, hresults]; exact h.awaited⟩

theorem awaits_fill {i : Nat} {v : Value} {xs ys : List Nat} (h : b.Awaits outputs)
    (hi : outputs[i]? = some v) (hline : b.line = xs ++ i :: ys) (hline' : b'.line = xs ++ ys)
    (hresults : b'.results = b.results.set i (some v)) : b'.Awaits outputs := by
  have htotal : b.results.length = outputs.length := h.total
  refine ⟨by rw [total, hresults, List.length_set, htotal], ?_⟩
  intro j w hj
  rw [hresults, List.getElem?_set, hline']
  by_cases hij : i = j
  · subst j
    have hlt : i < b.results.length := by
      rw [htotal]
      exact (List.getElem?_eq_some_iff.mp hi).1
    left
    rw [if_pos rfl, if_pos hlt]
    exact congrArg some (hi ▸ hj)
  · rw [if_neg hij]
    refine (h.awaited hj).imp_right fun hmem => ?_
    rw [hline] at hmem
    simp only [List.mem_append, List.mem_cons] at hmem ⊢
    have hji : j ≠ i := fun h => hij h.symm
    tauto

theorem holdings_waiting {xs : List (Nat × α)} (h : ∀ x ∈ xs, ∃ n, W x.1 x.2 n) :
    ∃ P, Holdings W xs P := by
  induction xs with
  | nil => exact ⟨0, .nil⟩
  | cons x rest ih =>
    obtain ⟨n, hn⟩ := h x List.mem_cons_self
    obtain ⟨P, hrest⟩ := ih fun y hy => h y (List.mem_cons_of_mem _ hy)
    exact ⟨n + P, .cons hn hrest⟩

theorem promised_ofList {children : List α} (hlength : children.length = outputs.length)
    (h : ∀ i a, children[i]? = some a → ∃ n, W i a n) (limit : Nat) (tolerance : Tolerance) :
    ∃ P, Promised outputs W K (.ofList children limit tolerance) (0 : R) P 0 := by
  have hpending : ∀ x ∈ (ofList children limit tolerance).pending, ∃ n, W x.1 x.2 n := by
    intro x hx
    obtain ⟨i, hi, rfl⟩ := List.mem_mapIdx.mp hx
    exact h i _ (List.getElem?_eq_getElem hi)
  obtain ⟨P, hP⟩ := holdings_waiting hpending
  refine ⟨P, ⟨by simpa [total, ofList] using hlength, ?_⟩, hP, .nil⟩
  intro j v hj
  right
  have hlt : j < children.length := hlength ▸ (List.getElem?_eq_some_iff.mp hj).1
  rw [line_ofList]
  exact List.mem_range.mpr hlt

theorem holdings_started (hc : c.Promises outputs W K A) {xs : List (Nat × α)}
    (h : Holdings W xs P) :
    Holdings K (xs.map fun (i, a) => (i, c.start i a)) (0, P) := by
  induction h with
  | nil => exact .nil
  | cons hw _ ih =>
    have hcons := Holdings.cons (hc.start hw) ih
    simpa using hcons

theorem promised_startNext (hc : c.Promises outputs W K A) (h : Promised outputs W K b T P N) :
    ∃ P' N', Promised outputs W K (b.startNext c) T P' N' ∧ P' + N' = P + N := by
  have hpending := h.waiting
  rw [← List.take_append_drop b.freeSlots b.pending] at hpending
  obtain ⟨U, V, htake, hdrop, rfl⟩ := hpending.of_append
  have hflying := h.flying.append (holdings_started hc htake)
  refine ⟨V, N + U, ⟨?_, hdrop, ?_⟩, by omega⟩
  · exact awaits_congr h.awaits line_startNext rfl
  · simpa [startNext, nextUp] using hflying

/-- Branches in the middle of a round: `X` is for the children that were stepped, `Y` for those that
have yet to be. -/
structure Stepped (outputs : List Value) (W : Nat → α → Nat → Prop) (K : Nat → α → R × Nat → Prop)
    (todo : List (Nat × α)) (b : Branches α) (P : Nat) (X Y : R × Nat) : Prop where
  awaits : (b.facing todo).Awaits outputs
  waiting : Holdings W b.pending P
  stepped : Holdings K b.inFlight X
  unstepped : Holdings K todo Y

theorem stepped_first {i : Nat} {a : α} {rest : List (Nat × α)} {X Y : R × Nat}
    (h : Stepped outputs W K ((i, a) :: rest) b P X Y) (hs : A s (X.1 + Y.1)) :
    ∃ T n V, K i a (T, n) ∧ Holdings K rest V ∧ Y = (T, n) + V ∧ A s (T + (X.1 + V.1)) := by
  obtain _ | @⟨_, _, _, ⟨T, n⟩, V, hk, hrest⟩ := h.unstepped
  refine ⟨T, n, V, hk, hrest, rfl, ?_⟩
  convert hs using 1
  simp only [Prod.fst_add]
  abel

/-- A round takes a step off every child, and none of them fails. -/
theorem round_promised (hc : c.Promises outputs W K A) {todo : List (Nat × α)} {p : Bool}
    {X Y : R × Nat} (h : Stepped outputs W K todo b P X Y) (hs : A s (X.1 + Y.1)) :
    ∃ q b' s' T' N', round c todo p b s = (.ok q, b', s') ∧ Promised outputs W K b' T' P N' ∧
      A s' T' ∧ N' + todo.length ≤ X.2 + Y.2 := by
  -- Every child that was stepped has paid one step for its place in `todo`.
  refine round_rule
    (I := fun rest _ b s => ∃ X' Y', Stepped outputs W K rest b P X' Y' ∧ A s (X'.1 + Y'.1) ∧
      X'.2 + Y'.2 + todo.length ≤ X.2 + Y.2 + rest.length)
    (Q := fun x => ∃ q b' s' T' N', x = (.ok q, b', s') ∧ Promised outputs W K b' T' P N' ∧
      A s' T' ∧ N' + todo.length ≤ X.2 + Y.2) ?_ ?_ ?_ ?_ ⟨X, Y, h, hs, le_rfl⟩
  · rintro i a rest p b s o a' s' ⟨X', Y', h, hs, hle⟩ hstep hr
    obtain ⟨T, n, V, hk, hrest, rfl, hs₁⟩ := stepped_first h hs
    obtain ⟨k, rfl, ⟨-, T', hk', hs'⟩ | ⟨v, hv, -⟩⟩ := hc.step hk hs₁ hstep
    · refine ⟨X' + (T', k), V, ⟨?_, h.waiting, h.stepped.append (.singleton hk'), hrest⟩, ?_, ?_⟩
      · exact awaits_congr h.awaits (by simp [line, facing]) rfl
      · convert hs' using 1
        simp only [Prod.fst_add]
        abel
      · simp only [Prod.snd_add, List.length_cons] at hle ⊢
        omega
    · rw [hr] at hv
      cases hv
  · rintro i a rest p b s o a' s' r b' ⟨X', Y', h, hs, hle⟩ hstep hr hrec
    obtain ⟨T, n, V, hk, hrest, rfl, hs₁⟩ := stepped_first h hs
    obtain ⟨k, rfl, ⟨hnone, -⟩ | ⟨v, hv, hi, hs'⟩⟩ := hc.step hk hs₁ hstep
    · rw [hr] at hnone
      cases hnone
    · rw [hr, Option.some.injEq] at hv
      subst r
      simp only [record, fill, Prod.mk.injEq, and_true] at hrec
      subst b'
      refine ⟨X', V, ⟨?_, h.waiting, h.stepped, hrest⟩, hs', ?_⟩
      · have hline : (b.facing ((i, a) :: rest)).line = b.inFlight.map Prod.fst ++
            i :: (rest.map Prod.fst ++ b.pending.map Prod.fst) := by
          simp [line, facing]
        exact awaits_fill h.awaits hi hline (by simp [line, facing]) rfl
      · simp only [Prod.snd_add, List.length_cons] at hle ⊢
        omega
  · rintro i a rest p b s o a' s' r b' err ⟨X', Y', h, hs, hle⟩ hstep hr hrec
    obtain ⟨T, n, V, hk, hrest, rfl, hs₁⟩ := stepped_first h hs
    obtain ⟨k, rfl, ⟨hnone, -⟩ | ⟨v, hv, -⟩⟩ := hc.step hk hs₁ hstep
    · rw [hr] at hnone
      cases hnone
    · rw [hr, Option.some.injEq] at hv
      subst r
      simp [record] at hrec
  · rintro p b s ⟨⟨T', N'⟩, Y', h, hs, hle⟩
    have hempty : Y' = 0 := by
      obtain _ | _ := h.unstepped
      rfl
    subst hempty
    refine ⟨p, b, s, T', N', rfl, ⟨?_, h.waiting, h.stepped⟩, by simpa using hs, by simpa using hle⟩
    exact awaits_congr h.awaits (by simp [line, facing]) rfl

/-- Branches without children in flight or in line have all outputs. -/
theorem awaits_done (h : b.Awaits outputs) (hp : b.pending = []) (hf : b.inFlight = []) :
    b.results.map Value.ofOption = outputs := by
  have htotal : b.results.length = outputs.length := h.total
  refine List.ext_getElem? fun j => ?_
  rw [List.getElem?_map]
  cases hj : outputs[j]? with
  | none =>
    have hlen : b.results.length ≤ j := by
      rw [htotal]
      exact List.getElem?_eq_none_iff.mp hj
    simp [List.getElem?_eq_none hlen]
  | some v =>
    obtain hv | hmem := h.awaited hj
    · simp [hv, Value.ofOption]
    · simp [line, hp, hf] at hmem

/-- Where nothing is in flight although slots are filled, nothing waits. -/
theorem pending_of_idle (h : (b.startNext c).inFlight = []) : (b.startNext c).pending = [] := by
  simp only [startNext, List.append_eq_nil_iff, List.map_eq_nil_iff] at h
  obtain ⟨hflying, hup⟩ := h
  rw [nextUp, List.take_eq_nil_iff] at hup
  obtain hslots | hpending := hup
  · simp only [freeSlots, hflying, List.length_nil, Nat.sub_zero] at hslots
    split_ifs at hslots with hlimit
    · simp [startNext, List.length_eq_zero_iff.mp hslots]
    · exact (hlimit hslots).elim
  · simp [startNext, hpending]

/-- An advance takes the branches nearer to their outputs, or is the last one. -/
theorem advance_promised (hc : c.Promises outputs W K A) (h : Promised outputs W K b T P N)
    (hs : A s T) :
    (∃ b' s', b.advance c s = (.completed outputs, b', s')) ∨
    ∃ p b' s' T' P' N', b.advance c s = (.running p, b', s') ∧
      Promised outputs W K b' T' P' N' ∧ A s' T' ∧ P' + N' < P + N := by
  obtain ⟨P₁, N₁, hstart, hwork⟩ := promised_startNext hc h
  have hstepped : Stepped outputs W K (b.startNext c).inFlight
      { b.startNext c with inFlight := [] } P₁ 0 (T, N₁) :=
    ⟨awaits_congr hstart.awaits (by simp [line, facing]) rfl, hstart.waiting, .nil, hstart.flying⟩
  obtain ⟨q, b₁, s₁, T₁, N₂, hround, hpromised, hs₁, hle⟩ :=
    round_promised hc (p := !b.nextUp.isEmpty) hstepped (by simpa using hs)
  have hle : N₂ + (b.startNext c).inFlight.length ≤ N₁ := by simpa using hle
  refine advance_rule (Q := fun x => (∃ b' s', x = (.completed outputs, b', s')) ∨
    ∃ p b' s' T' P' N', x = (.running p, b', s') ∧
      Promised outputs W K b' T' P' N' ∧ A s' T' ∧ P' + N' < P + N) ?_ ?_ ?_
  · intro err b' s' hfailed
    rw [hround] at hfailed
    cases hfailed
  · intro p b' s' hended hp hf
    rw [hround] at hended
    cases hended
    rw [awaits_done hpromised.awaits hp hf]
    exact .inl ⟨_, _, rfl⟩
  · intro p b' s' hended hrest
    rw [hround] at hended
    cases hended
    obtain ⟨P', N', hnext, hsum⟩ := promised_startNext hc hpromised
    refine .inr ⟨_, _, _, T₁, P', N', rfl, hnext, hs₁, ?_⟩
    have hbusy : 0 < (b.startNext c).inFlight.length := by
      rw [List.length_pos_iff]
      intro hidle
      have hpending := pending_of_idle hidle
      simp only [hidle, round, Prod.mk.injEq] at hround
      obtain ⟨-, rfl, -⟩ := hround
      exact hrest ⟨hpending, rfl⟩
    omega

/-- Advances branches as long as they are running, but at most so often, the children being those of
the next number each time. -/
def advanceUntil (c : Nat → Child α σ) : Nat → Nat → Branches α → σ → BranchOutcome × Branches α × σ
  | 0, _, b, s => (.running false, b, s)
  | n + 1, k, b, s =>
    match b.advance (c k) s with
    | (.running _, b, s) => advanceUntil c n (k + 1) b s
    | ended => ended

/-- Whatever is known of the children at each advance, branches that promise their outputs come to
them. -/
theorem advanceUntil_promised {c : Nat → Child α σ} (hc : ∀ k, (c k).Promises outputs W K A)
    (h : Promised outputs W K b T P N) (hs : A s T) (k : Nat) :
    ∃ n b' s', b.advanceUntil c n k s = (.completed outputs, b', s') := by
  induction hn : P + N using Nat.strong_induction_on generalizing b s T P N k with
  | _ work ih =>
    obtain ⟨b', s', hadv⟩ | ⟨p, b', s', T', P', N', hadv, hb, hs', hlt⟩ :=
      advance_promised (hc k) h hs
    · exact ⟨1, b', s', by simp [advanceUntil, hadv]⟩
    · obtain ⟨n, b'', s'', hrest⟩ := ih (P' + N') (hn ▸ hlt) hb hs' (k + 1) rfl
      exact ⟨n + 1, b'', s'', by simpa [advanceUntil, hadv] using hrest⟩

end Branches

end

end StatesLanguage
