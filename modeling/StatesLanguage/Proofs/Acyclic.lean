import Mathlib.Data.Set.Card
import StatesLanguage.Proofs.Closed

/-! Graphs without cycles. In one of these there is a height that falls with each transition, and the
machine of an acyclic document has no more transitions than the document. -/
namespace StatesLanguage

namespace Document

/-- A transition that some field of a state names. -/
def Graph.Edge (g : Graph) (name next : String) : Prop :=
  ∃ s field, g.state? name = some s ∧ (field, next) ∈ Validation.targets s

/-- A graph in which no state leads back to itself. What is nested in its states does not count. -/
def Graph.Acyclic (g : Graph) : Prop := ∀ name, ¬ Relation.TransGen g.Edge name name

theorem Graph.mem_stateList {g : Graph} {name : String} {s : State} (h : g.state? name = some s) :
    (name, s) ∈ g.stateList := by
  obtain ⟨before, after, hsplit, -⟩ := List.lookup_eq_some_iff.mp h
  rw [hsplit]
  exact List.mem_append_right _ List.mem_cons_self

/-- A graph is acyclic when its states can be numbered so that each leads to lower ones only. -/
theorem Graph.acyclic_of_number {g : Graph} (number : String → Nat)
    (h : ∀ s ∈ g.stateList, ∀ t ∈ Validation.targets s.2, number t.2 < number s.1) : g.Acyclic := by
  have hedge : ∀ {name next}, g.Edge name next → number next < number name := by
    rintro name next ⟨s, field, hs, hfield⟩
    exact h (name, s) (mem_stateList hs) (field, next) hfield
  have hahead : ∀ {name next}, Relation.TransGen g.Edge name next → number next < number name := by
    intro name next hnext
    induction hnext with
    | single hfirst => exact hedge hfirst
    | tail _ hlast ih => exact (hedge hlast).trans ih
  exact fun name hcycle => Nat.lt_irrefl _ (hahead hcycle)

end Document

namespace Machine

variable {machine sub : Machine} {st : State} {name next : String}

/-- A transition of a machine. -/
def Edge (machine : Machine) (name next : String) : Prop :=
  ∃ st, machine.state? name = some st ∧ next ∈ st.targets

/-- A machine in which no state leads back to itself, with the machines inside it. -/
inductive Acyclic : Machine → Prop where
  | intro {machine : Machine} : (∀ name, ¬ Relation.TransGen machine.Edge name name) →
    (∀ s ∈ machine.states, ∀ sub ∈ s.2.machines, Acyclic sub) → Acyclic machine

theorem Acyclic.irrefl (h : machine.Acyclic) (name : String) :
    ¬ Relation.TransGen machine.Edge name name := by
  cases h with
  | intro hirrefl _ => exact hirrefl name

theorem Acyclic.nested (h : machine.Acyclic) (hst : machine.state? name = some st)
    (hsub : sub ∈ st.machines) : sub.Acyclic := by
  cases h with
  | intro _ hnested => exact hnested _ (mem_states hst) sub hsub

/-- The states that can be reached from one. -/
def ahead (machine : Machine) (name : String) : Set String :=
  {next | Relation.TransGen machine.Edge name next}

/-- How many states can still be reached. -/
noncomputable def height (machine : Machine) (name : String) : Nat := (machine.ahead name).ncard

theorem ahead_finite (machine : Machine) (name : String) : (machine.ahead name).Finite := by
  refine (List.finite_toSet (machine.states.flatMap fun s => s.2.targets)).subset ?_
  rintro next hnext
  obtain ⟨before, -, st, hst, htarget⟩ := Relation.TransGen.tail'_iff.mp hnext
  exact List.mem_flatMap.mpr ⟨_, mem_states hst, htarget⟩

/-- A transition of an acyclic machine leads to a state from which fewer states can be reached. -/
theorem Acyclic.height_lt (h : machine.Acyclic) (hst : machine.state? name = some st)
    (hnext : next ∈ st.targets) : machine.height next < machine.height name := by
  have hedge : machine.Edge name next := ⟨st, hst, hnext⟩
  refine Set.ncard_lt_ncard ?_ (ahead_finite machine name)
  exact ⟨fun last hlast => Relation.TransGen.head hedge hlast,
    fun hsub => h.irrefl next (hsub (Relation.TransGen.single hedge))⟩

/-- A machine is larger than those inside it. -/
theorem sizeOf_nested (hst : machine.state? name = some st) (hsub : sub ∈ st.machines) :
    sizeOf sub < sizeOf machine := by
  have hstate : sizeOf (name, st) < sizeOf machine.states := List.sizeOf_lt_of_mem (mem_states hst)
  have hmachine : sizeOf machine.states < sizeOf machine := by
    cases machine
    simp
  have hwithin : sizeOf sub < sizeOf st := by
    cases st with
    | parallel p branches =>
      have hlt : sizeOf sub < sizeOf branches := List.sizeOf_lt_of_mem hsub
      simp
      omega
    | map p processor =>
      rw [List.mem_singleton.mp hsub]
      simp
    | pass | task | wait | choice | succeed | fail => cases hsub
  simp at hstate
  omega

open Document

theorem compileStates_state {ss : List (String × Document.State)} {states : List (String × State)}
    (h : compileStates ss = .ok states) (hst : states.lookup name = some st) :
    ∃ s, ss.lookup name = some s ∧ State.compile s = .ok st := by
  induction ss generalizing states with
  | nil =>
    rw [compileStates] at h
    cases h
    cases hst
  | cons d rest ih =>
    obtain ⟨key, d⟩ := d
    rw [compileStates] at h
    obtain ⟨st', hcompile, h⟩ := bind_ok h
    obtain ⟨states', hrest, h⟩ := bind_ok h
    cases h
    rw [List.lookup_cons] at hst ⊢
    cases hkey : name == key with
    | true =>
      rw [hkey] at hst
      cases hst
      exact ⟨d, rfl, mapError_ok hcompile⟩
    | false =>
      rw [hkey] at hst
      exact ih hrest hst

/-- Each transition of a machine is one of its graph. -/
theorem compile_edge {g : Graph} (h : Machine.compile g = .ok machine) (hg : g.Sealed)
    (hedge : machine.Edge name next) : g.Edge name next := by
  obtain ⟨st, hst, hnext⟩ := hedge
  obtain ⟨-, ss, hss, hstates⟩ := compile_graph h
  have hlist : g.stateList = ss := by rw [Graph.stateList, hss]; rfl
  obtain ⟨s, hs, hcompile⟩ := compileStates_state hstates hst
  have hs : g.state? name = some s := by rwa [Graph.state?, hlist]
  have hcaught := hg.caught _ (Graph.mem_stateList hs)
  obtain ⟨field, hfield⟩ := compile_targets hcompile hcaught hnext
  exact ⟨s, field, hs, hfield⟩

/-- A machine is acyclic when all graphs of its document are. -/
theorem compile_acyclic (g : Graph) : ∀ (label : String) {machine : Machine},
    Machine.compile g = .ok machine → (∀ x ∈ g.labelled label, x.2.Sealed ∧ x.2.Acyclic) →
    machine.Acyclic := by
  induction g using Graph.induction with
  | h g ih =>
    intro label machine h hgraphs
    obtain ⟨hsealed, hacyclic⟩ := hgraphs _ (mem_labelled label g)
    refine .intro (fun name hcycle => ?_) fun s hs sub hsub => ?_
    · have hsub : ∀ a b, machine.Edge a b → g.Edge a b := fun _ _ => compile_edge h hsealed
      exact hacyclic name (Relation.TransGen.mono hsub _ _ hcycle)
    · obtain ⟨_, ss, hss, hstates⟩ := compile_graph h
      obtain ⟨d, hd, hcompile⟩ := compileStates_mem hstates hs
      obtain ⟨x, hx, hnested⟩ := compile_nested hcompile hsub
      have hd : (s.1, d) ∈ g.stateList := by rwa [Graph.stateList, hss]
      obtain ⟨label', hlabel⟩ := graph_labelled label hd hx
      exact ih _ hd x hx label' hnested fun y hy => hgraphs y (hlabel hy)

end Machine

end StatesLanguage
