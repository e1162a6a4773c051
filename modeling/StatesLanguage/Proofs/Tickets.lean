import Mathlib.Algebra.Order.Group.Multiset
import Mathlib.Algebra.Order.Monoid.Prod
import Mathlib.Data.Multiset.OrderedMonoid
import StatesLanguage.Job.Runner

/-! Runners that answer by the job alone. Whoever holds a job has a ticket for it, which tells what
the job was launched with and how often it has been polled. -/
namespace StatesLanguage

variable {σ : Type}

/-- What a job is launched with. -/
structure JobRequest where
  resource : String
  input : Value
  credentials : Value

/-- A job that is held, and how often it has been polled. -/
structure JobTicket where
  handle : JobHandle
  request : JobRequest
  polls : Nat

/-- The ticket after one more poll. -/
def JobTicket.again (t : JobTicket) : JobTicket := { t with polls := t.polls + 1 }

namespace JobRunner

variable {runner : JobRunner σ} {s₀ : σ}

def request (runner : JobRunner σ) (q : JobRequest) (s : σ) : Except JobError JobHandle × σ :=
  runner.launch q.resource q.input q.credentials s

/-- A runner after some calls by the holders of jobs, and the tickets that are held. Only a job that
is held is polled or released. A ticket can get lost. -/
inductive Serves (runner : JobRunner σ) (s₀ : σ) : σ → Multiset JobTicket → Prop where
  | new : Serves runner s₀ s₀ 0
  | launched {s s' : σ} {T : Multiset JobTicket} {q : JobRequest} {handle : JobHandle} :
    Serves runner s₀ s T → runner.request q s = (.ok handle, s') →
    Serves runner s₀ s' ({⟨handle, q, 0⟩} + T)
  | refused {s s' : σ} {T : Multiset JobTicket} {q : JobRequest} {err : JobError} :
    Serves runner s₀ s T → runner.request q s = (.error err, s') → Serves runner s₀ s' T
  | polled {s : σ} {T : Multiset JobTicket} {t : JobTicket} : Serves runner s₀ s ({t} + T) →
    Serves runner s₀ (runner.poll t.handle s).2 ({t.again} + T)
  | released {s : σ} {T : Multiset JobTicket} {t : JobTicket} : Serves runner s₀ s ({t} + T) →
    Serves runner s₀ (runner.cleanup t.handle s) T
  | lost {s : σ} {T U : Multiset JobTicket} : Serves runner s₀ s (U + T) → Serves runner s₀ s T

/-- The answers for a job depend only on what it is launched with and on how often it has been
polled. -/
structure Oblivious (runner : JobRunner σ) (s₀ : σ) (refusal : JobRequest → Option JobError)
    (answer : JobRequest → Nat → JobStatus) : Prop where
  accepts : ∀ {s T q}, Serves runner s₀ s T → refusal q = none →
    ∃ handle, (runner.request q s).1 = .ok handle
  refuses : ∀ {s T q err}, Serves runner s₀ s T → refusal q = some err →
    (runner.request q s).1 = .error err
  answers : ∀ {s T t}, Serves runner s₀ s ({t} + T) →
    (runner.poll t.handle s).1 = answer t.request t.polls

/-- A holder that releases its jobs is left without tickets. -/
theorem Serves.releases {s : σ} {T F : Multiset JobTicket} {handles : List JobHandle}
    (h : Serves runner s₀ s (T + F)) (hT : T.map JobTicket.handle = handles) :
    Serves runner s₀ (handles.foldl (fun s handle => runner.cleanup handle s) s) F := by
  classical
  induction handles generalizing s T with
  | nil =>
    have hT : T = 0 := by simpa using hT
    simpa [hT] using h
  | cons handle rest ih =>
    rw [← Multiset.cons_coe] at hT
    obtain ⟨t, ht, rfl, hrest⟩ := (Multiset.map_eq_cons JobTicket.handle T rest handle).mpr hT
    refine ih (T := T.erase t) ?_ hrest
    refine .released (t := t) ?_
    rwa [← add_assoc, Multiset.singleton_add, Multiset.cons_erase ht]

end JobRunner

/-- The tickets of two holders. -/
abbrev Tickets := Multiset JobTicket × Multiset JobTicket

/-- Two copies of a runner, each with the tickets of its own holder. -/
def JobRunner.ServesBoth (runner : JobRunner σ) (s₀ s s' : σ) (T : Tickets) : Prop :=
  runner.Serves s₀ s T.1 ∧ runner.Serves s₀ s' T.2

/-- Tickets for the same request that have been polled as often. -/
def JobRequest.tickets (q : JobRequest) (handle handle' : JobHandle) (polls : Nat) : Tickets :=
  ({⟨handle, q, polls⟩}, {⟨handle', q, polls⟩})

namespace JobRunner.ServesBoth

variable {runner : JobRunner σ} {s₀ s s' : σ} {T F : Tickets} {q : JobRequest}
  {refusal : JobRequest → Option JobError} {answer : JobRequest → Nat → JobStatus}
  {handle handle' : JobHandle} {n : Nat}

theorem lost (h : runner.ServesBoth s₀ s s' (T + F)) : runner.ServesBoth s₀ s s' F :=
  ⟨.lost h.1, .lost h.2⟩

/-- Both runners refuse a request for the same reason, or launch a job for it. -/
theorem request (hrunner : runner.Oblivious s₀ refusal answer) (q : JobRequest)
    (h : runner.ServesBoth s₀ s s' F) :
    (∃ err s₁ s₁', runner.request q s = (.error err, s₁) ∧
      runner.request q s' = (.error err, s₁') ∧ runner.ServesBoth s₀ s₁ s₁' F) ∨
    ∃ handle handle' s₁ s₁', runner.request q s = (.ok handle, s₁) ∧
      runner.request q s' = (.ok handle', s₁') ∧
      runner.ServesBoth s₀ s₁ s₁' (q.tickets handle handle' 0 + F) := by
  rcases hleft : runner.request q s with ⟨res, s₁⟩
  rcases hright : runner.request q s' with ⟨res', s₁'⟩
  cases hq : refusal q with
  | some err =>
    have herr : res = .error err := by simpa [hleft] using hrunner.refuses h.1 hq
    have herr' : res' = .error err := by simpa [hright] using hrunner.refuses h.2 hq
    subst herr herr'
    exact .inl ⟨err, s₁, s₁', rfl, rfl, .refused h.1 hleft, .refused h.2 hright⟩
  | none =>
    obtain ⟨handle, hok⟩ : ∃ handle, res = .ok handle := by
      simpa [hleft] using hrunner.accepts h.1 hq
    obtain ⟨handle', hok'⟩ : ∃ handle, res' = .ok handle := by
      simpa [hright] using hrunner.accepts h.2 hq
    subst hok hok'
    exact .inr ⟨handle, handle', s₁, s₁', rfl, rfl, .launched h.1 hleft, .launched h.2 hright⟩

/-- Both runners tell the same of a job. -/
theorem poll (hrunner : runner.Oblivious s₀ refusal answer)
    (h : runner.ServesBoth s₀ s s' (q.tickets handle handle' n + F)) :
    (runner.poll handle s).1 = (runner.poll handle' s').1 ∧
      runner.ServesBoth s₀ (runner.poll handle s).2 (runner.poll handle' s').2
        (q.tickets handle handle' (n + 1) + F) := by
  have hleft := hrunner.answers (t := ⟨handle, q, n⟩) h.1
  have hright := hrunner.answers (t := ⟨handle', q, n⟩) h.2
  exact ⟨hleft.trans hright.symm, .polled (t := ⟨handle, q, n⟩) h.1,
    .polled (t := ⟨handle', q, n⟩) h.2⟩

theorem cleanup (h : runner.ServesBoth s₀ s s' (q.tickets handle handle' n + F)) :
    runner.ServesBoth s₀ (runner.cleanup handle s) (runner.cleanup handle' s') F :=
  ⟨.released (t := ⟨handle, q, n⟩) h.1, .released (t := ⟨handle', q, n⟩) h.2⟩

end JobRunner.ServesBoth

/-- A runner whose jobs are still running when they are polled first, and then answer the name of
their resource. It counts the launches and the polls of each job. -/
def secondPollRunner : JobRunner (Nat × (JobHandle → Nat)) where
  launch resource _ _ s := (.ok ⟨String.ofList (List.replicate s.1 '+'), resource⟩, s.1 + 1, s.2)
  poll handle s := (if s.2 handle = 0 then .running else .succeeded (.str handle.resource),
    s.1, fun h => if h = handle then s.2 h + 1 else s.2 h)
  cleanup _ s := s

/-- What the runner knows of the jobs that are held, and of those that are yet to be launched. -/
structure SecondPoll (s : Nat × (JobHandle → Nat)) (T : Multiset JobTicket) : Prop where
  fresh : ∀ h : JobHandle, s.1 ≤ h.id.length → s.2 h = 0
  distinct : (T.map JobTicket.handle).Nodup
  held : ∀ t ∈ T, t.handle.id.length < s.1 ∧ t.handle.resource = t.request.resource ∧
    s.2 t.handle = t.polls

theorem secondPoll_serves {s : Nat × (JobHandle → Nat)} {T : Multiset JobTicket}
    (h : secondPollRunner.Serves (0, fun _ => 0) s T) : SecondPoll s T := by
  induction h with
  | new => exact ⟨fun _ _ => rfl, by simp, by simp⟩
  | @launched s s' T q handle _ hlaunch ih =>
    simp only [JobRunner.request, secondPollRunner, Prod.mk.injEq, Except.ok.injEq] at hlaunch
    obtain ⟨rfl, rfl⟩ := hlaunch
    refine ⟨fun h hle => ih.fresh h (Nat.le_of_succ_le hle), ?_, ?_⟩
    · simp only [Multiset.singleton_add, Multiset.map_cons, Multiset.nodup_cons]
      refine ⟨?_, ih.distinct⟩
      intro hmem
      obtain ⟨t, ht, heq⟩ := Multiset.mem_map.mp hmem
      have hlt := (ih.held t ht).1
      rw [heq] at hlt
      simp at hlt
    · simp only [Multiset.singleton_add, Multiset.mem_cons, forall_eq_or_imp]
      refine ⟨⟨by simp, trivial, ih.fresh _ (by simp)⟩, ?_⟩
      intro t ht
      obtain ⟨hlt, hrest⟩ := ih.held t ht
      exact ⟨Nat.lt_succ_of_lt hlt, hrest⟩
  | refused _ hlaunch => simp [JobRunner.request, secondPollRunner] at hlaunch
  | @polled s T t _ ih =>
    have hdistinct := ih.distinct
    simp only [Multiset.singleton_add, Multiset.map_cons, Multiset.nodup_cons] at hdistinct
    obtain ⟨hlt, hresource, hpolls⟩ := ih.held t (by simp)
    refine ⟨?_, by simpa [JobTicket.again] using hdistinct, ?_⟩
    · intro h hle
      have hne : h ≠ t.handle := by
        rintro rfl
        exact absurd hle (Nat.not_le_of_lt hlt)
      simpa [secondPollRunner, hne] using ih.fresh h hle
    · simp only [Multiset.singleton_add, Multiset.mem_cons, forall_eq_or_imp]
      refine ⟨⟨hlt, hresource, by simp [secondPollRunner, JobTicket.again, hpolls]⟩, ?_⟩
      intro u hu
      have hne : u.handle ≠ t.handle := by
        intro heq
        exact hdistinct.1 (heq ▸ Multiset.mem_map_of_mem _ hu)
      simpa [secondPollRunner, hne] using ih.held u (by simp [hu])
  | @released s T t _ ih =>
    have hdistinct := ih.distinct
    simp only [Multiset.singleton_add, Multiset.map_cons, Multiset.nodup_cons] at hdistinct
    exact ⟨ih.fresh, hdistinct.2, fun u hu => ih.held u (by simp [hu])⟩
  | @lost s T U _ ih =>
    have hdistinct := ih.distinct
    rw [Multiset.map_add] at hdistinct
    exact ⟨ih.fresh, (Multiset.nodup_add.mp hdistinct).2.1, fun u hu => ih.held u (by simp [hu])⟩

theorem secondPoll_oblivious : secondPollRunner.Oblivious (0, fun _ => 0) (fun _ => none)
    (fun q n => if n = 0 then .running else .succeeded (.str q.resource)) where
  accepts := fun _ _ => ⟨_, rfl⟩
  refuses := by simp
  answers := by
    intro s T t h
    obtain ⟨-, hresource, hpolls⟩ := (secondPoll_serves h).held t (by simp)
    simp [secondPollRunner, hresource, hpolls]

end StatesLanguage
