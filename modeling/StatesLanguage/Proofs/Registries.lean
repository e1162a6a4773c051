import StatesLanguage.Job.Registry
import StatesLanguage.Proofs.Likeness

/-! A registry as the runner of a workflow whose tasks are all for one runner in it. The workflow
goes on as if that runner had been its own, and the runner is told the same. -/
namespace StatesLanguage

variable {σ : Type}

mutual

/-- Runs that are alike with equal histories are equal. -/
theorem Run.Like.eq {r r' : Run} {T : Multiset JobHandle} : Run.Like Eq r r' T → r = r'
  | .unvisited hh => by rw [hh]
  | .visited _ hv hh => by rw [hv.eq, hh]

theorem Visit.Like.eq {v v' : Visit} {T : Multiset JobHandle} : Visit.Like Eq v v' T → v = v'
  | .intro hp => by rw [hp.eq]

theorem Progress.Like.eq {p p' : Progress} {T : Multiset JobHandle} :
    Progress.Like Eq p p' T → p = p'
  | .idle | .job | .waiting => rfl
  | .branches hb => by rw [alike_branches_eq hb]

theorem alike_branches_eq {b b' : Branches Run} {T : Multiset JobHandle} :
    Branches.Alike (Run.Like Eq) b b' T → b = b'
  | .intro hwaiting hflying => by rw [← alike_children_eq hwaiting, ← alike_children_eq hflying]

theorem alike_children_eq {xs xs' : List (Nat × Run)} {T : Multiset JobHandle} :
    Paired (Run.Like Eq) xs xs' T → xs = xs'
  | .nil => rfl
  | .cons hr hrest => by rw [hr.eq, alike_children_eq hrest]

end

/-- The handle of every job is for the resource that the job was launched for. -/
def JobRunner.Carries (runner : JobRunner σ) : Prop :=
  ∀ resource input credentials s handle s',
    runner.launch resource input credentials s = (.ok handle, s') → handle.resource = resource

theorem JobRunner.Carries.traced {runner : JobRunner σ} (h : runner.Carries) :
    runner.traced.Carries := by
  intro resource input credentials s handle s' hlaunch
  simp only [JobRunner.traced, Prod.mk.injEq] at hlaunch
  exact h resource input credentials s.1 handle _ (Prod.ext hlaunch.1 rfl)

namespace Registry

variable {g : Registry σ} {runner : JobRunner σ}

/-- A registry cannot be told from the runner that it has for a resource. -/
theorem agree (hcarries : runner.Carries) (config : Config) :
    Engine.Agree ⟨g.runner, config⟩ ⟨runner, config⟩ Eq
      fun resource => g.runnerFor? resource = some runner where
  limit := rfl
  unrecorded := rfl
  recorded x hh := by rw [hh]
  launch hr input credentials s := by simp only [Registry.runner, hr]
  poll hr s := by simp only [Registry.runner, hr]
  cleanup hr s := by simp only [Registry.runner, hr]
  carried {resource input credentials s handle s'} hr hlaunch := by
    simp only [Registry.runner, hr] at hlaunch
    rwa [hcarries resource input credentials s handle s' hlaunch]

end Registry

namespace Workflow

variable {machine : Machine}

theorem Likewise.eq {config : Config} {Q : String → Prop} {w w' : Workflow} {s s' : σ}
    (h : Likewise machine config config Eq Q w s w' s') : (w, s) = (w', s') := by
  obtain ⟨T, hr, hs, -⟩ := h.runs
  have hw : w = ⟨w'.machine, w'.config, w'.run⟩ := by
    rw [h.machines.2, h.configs.2, ← hr.eq, ← h.machines.1, ← h.configs.1]
  rw [hw, hs]

/-- A registry is transparent. When the resource of every task, at every depth, has a scheme that
stands for one runner whose handles carry their resources, a workflow goes the same way with the
registry as with that runner, whatever is done with it, and the runner is told the same. -/
theorem registry_transparent (runner : JobRunner σ) (g : Registry (σ × List RunnerCall))
    (hcarries : runner.Carries)
    (hcovers : ∀ t, machine.HasTask t → ∃ scheme, scheme? t.resource = some scheme ∧
      g.runners.lookup scheme = some runner.traced)
    (config : Config) (execution : Execution) (input : Value) (ops : List Operation) (s : σ) :
    session g.runner ops ⟨machine, config, .ofInput execution input⟩ (s, []) =
      session runner.traced ops ⟨machine, config, .ofInput execution input⟩ (s, []) := by
  have htasks : ∀ t, machine.HasTask t → g.runnerFor? t.resource = some runner.traced := by
    intro t ht
    obtain ⟨scheme, hscheme, hlookup⟩ := hcovers t ht
    rw [Registry.runnerFor?, hscheme, Option.bind_some, hlookup]
  have hsame := session_like (Registry.agree hcarries.traced config) htasks execution input ops
    (s, [])
  rw [← List.forall₂_eq_eq_eq]
  exact hsame.imp fun _ _ h => h.eq

section

/-- Two tasks side by side in the branches of a Parallel state, each for a scheme of its own. -/
def forkedMachine : Machine := ⟨"Fork", [
  ("Fork", .parallel ⟨none, {}, {}⟩ [
    ⟨"Inner", [("Inner", .task ⟨none, "local://inner", none, none, {}, {}⟩)]⟩,
    ⟨"Other", [("Other", .task ⟨none, "remote://other", none, none, {}, {}⟩)]⟩])]⟩

/-- Two schemes for one runner, and a third that nothing is for. -/
def forkedRegistry : Registry (Unit × List RunnerCall) :=
  ⟨[("local", hangingRunner.traced), ("idle", ⟨fun resource _ _ s =>
    (.error (.unsupported resource), s), fun _ s => (.running, s), fun _ s => s⟩),
    ("remote", hangingRunner.traced)]⟩

/-- Both jobs of a workflow that is aborted between two steps pass through the registry, each when it
is launched, polled and released. -/
theorem forked_registry_transparent :
    session forkedRegistry.runner [.start default, .step .zero, .abort "stop"]
        ⟨forkedMachine, {}, .ofInput default .null⟩ ((), []) =
      session hangingRunner.traced [.start default, .step .zero, .abort "stop"]
        ⟨forkedMachine, {}, .ofInput default .null⟩ ((), []) ∧
    (session forkedRegistry.runner [.start default, .step .zero, .abort "stop"]
        ⟨forkedMachine, {}, .ofInput default .null⟩ ((), [])).getLast?.map (fun x => x.2.2) =
      some [.launch "local://inner" .null .null, .poll ⟨"job", "local://inner"⟩,
        .launch "remote://other" .null .null, .poll ⟨"job", "remote://other"⟩,
        .cleanup ⟨"job", "local://inner"⟩, .cleanup ⟨"job", "remote://other"⟩] := by
  have hsame := @registry_transparent _ forkedMachine hangingRunner forkedRegistry
    (by
      intro resource input credentials s handle s' hlaunch
      cases hlaunch
      rfl)
    (by
      intro t ht
      cases ht with
      | own h => simp [forkedMachine] at h
      | @nested _ sub x _ hx hsub ht =>
        obtain rfl := List.mem_singleton.mp hx
        have hbranch : sub = _ ∨ sub ∈ [_] := List.mem_cons.mp hsub
        rw [List.mem_singleton] at hbranch
        rcases hbranch with rfl | rfl
        all_goals
          cases ht with
          | own h =>
            obtain ⟨-, h⟩ := Prod.mk.inj (List.mem_singleton.mp h)
            cases h
            exact ⟨_, rfl, rfl⟩
          | nested hx hsub _ =>
            obtain rfl := List.mem_singleton.mp hx
            cases hsub)
    {} default .null [.start default, .step .zero, .abort "stop"] ()
  exact ⟨hsame, by rw [hsame]; rfl⟩

end

end Workflow

end StatesLanguage
