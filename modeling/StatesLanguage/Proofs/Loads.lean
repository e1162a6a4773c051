import Mathlib.Algebra.Order.BigOperators.Group.List
import Mathlib.Data.Finsupp.Lex
import Mathlib.Data.Finsupp.WellFounded
import Mathlib.Data.Prod.Lex
import Mathlib.Order.WellFounded
import StatesLanguage.Proofs.Rounds

/-! How much is left to be done, as a finite multiset of weights. Any number of light weights is less
than a single heavier one, so that a state may nest as many workflows as it likes. -/
namespace StatesLanguage

namespace Branches

variable {α σ R : Type} [AddCommMonoid R] {c : Child α σ} {b : Branches α} {s : σ}
  {W K : Nat → α → Prop} {weight : Nat → α → R}

/-- What children weigh together. -/
def weigh (weight : Nat → α → R) (xs : List (Nat × α)) : R := (xs.map fun x => weight x.1 x.2).sum

@[simp] theorem weigh_nil : weigh weight [] = 0 := rfl

@[simp] theorem weigh_cons (i : Nat) (a : α) (xs : List (Nat × α)) :
    weigh weight ((i, a) :: xs) = weight i a + weigh weight xs := by
  simp [weigh]

@[simp] theorem weigh_append (xs ys : List (Nat × α)) :
    weigh weight (xs ++ ys) = weigh weight xs + weigh weight ys := by
  simp [weigh]

/-- What all children weigh, those that wait and those in flight. -/
def load (weight : Nat → α → R) (b : Branches α) : R :=
  weigh weight b.pending + weigh weight b.inFlight

variable [PartialOrder R] [IsOrderedCancelAddMonoid R]

/-- Children that become lighter when they start, and with each step that they make. -/
structure Lightens (c : Child α σ) (W K : Nat → α → Prop) (weight : Nat → α → R) : Prop where
  start : ∀ {i a}, W i a → K i (c.start i a) ∧ weight i (c.start i a) < weight i a
  stay : ∀ {i a s o a' s'}, K i a → c.step i a s = (o, a', s') → c.result? a' = none →
    weight i a' ≤ weight i a ∧ (o ≠ .blocked → weight i a' < weight i a)
  pos : ∀ {i a}, K i a → 0 < weight i a

theorem weigh_started (hc : Lightens c W K weight) {xs : List (Nat × α)}
    (hw : ∀ x ∈ xs, W x.1 x.2) :
    weigh weight (xs.map fun (i, a) => (i, c.start i a)) ≤ weigh weight xs ∧
      (xs ≠ [] → weigh weight (xs.map fun (i, a) => (i, c.start i a)) < weigh weight xs) := by
  have hlt : ∀ x ∈ xs, weight x.1 (c.start x.1 x.2) < weight x.1 x.2 :=
    fun x hx => (hc.start (hw x hx)).2
  simp only [weigh, List.map_map]
  exact ⟨List.sum_le_sum fun x hx => (hlt x hx).le, fun hne => List.sum_lt_sum_of_ne_nil hne _ _ hlt⟩

/-- To admit children is to lighten the load, if there are any to be admitted. -/
theorem load_startNext (hc : Lightens c W K weight) (hw : ∀ x ∈ b.pending, W x.1 x.2) :
    (b.startNext c).load weight ≤ b.load weight ∧
      (b.nextUp ≠ [] → (b.startNext c).load weight < b.load weight) := by
  have hup : ∀ x ∈ b.nextUp, W x.1 x.2 := fun x hx => hw x (List.mem_of_mem_take hx)
  obtain ⟨hle, hlt⟩ := weigh_started hc hup
  have hbefore : b.load weight = weigh weight (b.pending.drop b.freeSlots) +
      weigh weight b.inFlight + weigh weight b.nextUp := by
    have hsplit : b.nextUp ++ b.pending.drop b.freeSlots = b.pending := List.take_append_drop ..
    have hpending := congrArg (weigh weight) hsplit
    rw [weigh_append] at hpending
    rw [load, ← hpending]
    abel
  have hafter : (b.startNext c).load weight = weigh weight (b.pending.drop b.freeSlots) +
      weigh weight b.inFlight + weigh weight (b.nextUp.map fun (i, a) => (i, c.start i a)) := by
    simp only [load, startNext, weigh_append]
    abel
  rw [hbefore, hafter]
  exact ⟨add_le_add_right hle _, fun hne => add_lt_add_right (hlt hne) _⟩

/-- After an advance that leaves children the load is no heavier, and it is lighter if one of them has
moved. -/
theorem advance_lightens (hc : Lightens c W K weight) (hw : ∀ x ∈ b.pending, W x.1 x.2)
    (hk : ∀ x ∈ b.inFlight, K x.1 x.2) {p : Bool} {b' : Branches α} {s' : σ}
    (hadv : b.advance c s = (.running p, b', s')) :
    b'.load weight ≤ b.load weight ∧ (p = true → b'.load weight < b.load weight) := by
  obtain ⟨q, b₁, hround, -, rfl, rfl⟩ := advance_running hadv
  have hstarted := load_startNext hc hw
  have hflying : ∀ x ∈ (b.startNext c).inFlight, K x.1 x.2 := by
    intro x hx
    rcases List.mem_append.mp hx with hx | hx
    · exact hk x hx
    · obtain ⟨⟨i, a⟩, hup, rfl⟩ := List.mem_map.mp hx
      exact (hc.start (hw _ (List.mem_of_mem_take hup))).1
  -- in a round the children that it has yet to step are weighed as well
  have hrounded : (∀ x ∈ b₁.pending, W x.1 x.2) ∧ b₁.load weight ≤ b.load weight ∧
      (q = true → b₁.load weight < b.load weight) := by
    revert hround
    refine round_rule
      (I := fun todo p b₁ _ => (∀ x ∈ todo, K x.1 x.2) ∧ (∀ x ∈ b₁.pending, W x.1 x.2) ∧
        b₁.load weight + weigh weight todo ≤ b.load weight ∧
        (p = true → b₁.load weight + weigh weight todo < b.load weight))
      (Q := fun x => x = (.ok q, b₁, s') → _) ?_ ?_ ?_ ?_ ⟨hflying, ?_, ?_⟩
    · rintro i a rest p b₁ s o a' s' ⟨htodo, hw, hle, hlt⟩ hstep hr
      obtain ⟨hstay, hmoved⟩ := hc.stay (htodo (i, a) List.mem_cons_self) hstep hr
      have hbefore : b₁.load weight + weigh weight ((i, a) :: rest) =
          b₁.load weight + weigh weight rest + weight i a := by
        rw [weigh_cons]
        abel
      have hafter : load weight { b₁ with inFlight := b₁.inFlight ++ [(i, a')] } +
          weigh weight rest = b₁.load weight + weigh weight rest + weight i a' := by
        simp only [load, weigh_append, weigh_cons, weigh_nil]
        abel
      rw [hbefore] at hle hlt
      rw [hafter]
      refine ⟨fun x hx => htodo x (List.mem_cons_of_mem _ hx), hw,
        (add_le_add_right hstay _).trans hle, fun hp => ?_⟩
      rcases Bool.or_eq_true_iff.mp hp with hp | ho
      · exact (add_le_add_right hstay _).trans_lt (hlt hp)
      · exact (add_lt_add_right (hmoved (by simpa using ho)) _).trans_le hle
    · rintro i a rest p b₁ s o a' s' r b₂ ⟨htodo, hw, hle, -⟩ _ _ hrec
      have hpos := hc.pos (htodo (i, a) List.mem_cons_self)
      have hb₂ : b₂ = (b₁.record i r).1 := by rw [hrec]
      have hload : b₂.load weight = b₁.load weight := by simp [hb₂, load]
      have hlt : b₂.load weight + weigh weight rest < b.load weight := by
        refine lt_of_lt_of_le ?_ hle
        rw [hload, weigh_cons]
        exact add_lt_add_right (lt_add_of_pos_left _ hpos) _
      refine ⟨fun x hx => htodo x (List.mem_cons_of_mem _ hx), ?_, hlt.le, fun _ => hlt⟩
      simpa [hb₂] using hw
    · rintro i a rest p b s o a' s' r b' err _ _ _ _ ⟨⟩
    · rintro p b₂ s₂ ⟨-, hw, hle, hlt⟩ heq
      cases heq
      rw [weigh_nil, add_zero] at hle hlt
      exact ⟨hw, hle, hlt⟩
    · exact fun x hx => hw x (List.mem_of_mem_drop hx)
    · have hload : load weight { b.startNext c with inFlight := [] } +
          weigh weight (b.startNext c).inFlight = (b.startNext c).load weight := by simp [load]
      rw [hload]
      exact ⟨hstarted.1, fun hup => hstarted.2 (by simpa using hup)⟩
  have hadmitted := load_startNext hc hrounded.1
  refine ⟨hadmitted.1.trans hrounded.2.1, fun hp => ?_⟩
  rcases Bool.or_eq_true_iff.mp hp with hq | hup
  · exact hadmitted.1.trans_lt (hrounded.2.2 hq)
  · exact (hadmitted.2 (by simpa using hup)).trans_le hrounded.2.1

end Branches

/-- What one workflow by itself weighs. What counts first is the size of its machine, then how much
of its graph is left, then how often it can be retried, and last what it is doing. -/
abbrev Weight : Type := ℕ ×ₗ ℕ ×ₗ ℕ ×ₗ ℕ

/-- A multiset of weights, ordered by the heaviest of those that two do not share. -/
abbrev Load : Type := Colex (Weight →₀ ℕ)

namespace Load

variable {t u : Weight} {x y : Load}

/-- A single weight. -/
noncomputable def single (t : Weight) : Load := toColex (Finsupp.single t 1)

theorem single_lt_single : single t < single u ↔ t < u := Finsupp.Colex.single_lt_iff

theorem single_pos : 0 < single t := by
  refine lt_of_le_of_ne (isBot_zero _) fun h => ?_
  have hcount := DFunLike.congr_fun (congrArg ofColex h) t
  simp [single] at hcount

/-- What is less than a single weight has only lighter ones. -/
theorem lt_single : x < single t ↔ ∀ u, t ≤ u → ofColex x u = 0 := by
  rw [Finsupp.Colex.lt_iff]
  constructor
  · rintro ⟨v, hbeyond, hlt⟩ u hu
    have hv : v = t := by
      by_contra hne
      simp [single, Ne.symm hne] at hlt
    subst hv
    rcases hu.lt_or_eq with hu | rfl
    · rw [hbeyond u hu]
      simp [single, hu.ne]
    · simpa [single] using hlt
  · intro h
    refine ⟨t, fun u hu => ?_, ?_⟩
    · rw [h u hu.le]
      simp [single, hu.ne]
    · rw [h t le_rfl]
      simp [single]

theorem add_lt_single (hx : x < single t) (hy : y < single t) : x + y < single t := by
  rw [lt_single] at hx hy ⊢
  intro u hu
  simp [hx u hu, hy u hu]

/-- Any number of children that weigh less than a single weight weigh less together. -/
theorem weigh_lt_single {α : Type} {weight : Nat → α → Load} {xs : List (Nat × α)}
    (h : ∀ x ∈ xs, weight x.1 x.2 < single t) : Branches.weigh weight xs < single t := by
  induction xs with
  | nil => exact single_pos
  | cons x rest ih =>
    rw [Branches.weigh_cons]
    exact add_lt_single (h x List.mem_cons_self) (ih fun y hy => h y (List.mem_cons_of_mem _ hy))

end Load

end StatesLanguage
