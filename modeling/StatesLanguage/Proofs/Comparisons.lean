import Mathlib
import StatesLanguage.Choice.Rule
import StatesLanguage.Proofs.Outcomes

/-! What the comparisons of choice rules say of two values: the relations of one family are those of
one order, and a path stands for the value that it leads to. -/
namespace StatesLanguage

/-- A rule that makes a single comparison. -/
def Document.Rule.comparing (subject key : String) (value : Value) : Document.Rule where
  subject := some subject
  comparisons := [(key, value)]

/-- Whether a rule can be asked and holds. -/
def Document.Rule.Matches (r : Document.Rule) (input context : Value) : Prop :=
  ∃ rule, ChoiceRule.compile r = .ok rule ∧ rule.holds input context = true

namespace Operator

theorem ofKey?_name (op : Operator) : ofKey? op.name = some (op, false) := by
  cases op with
  | string r => cases r <;> decide +kernel
  | numeric r => cases r <;> decide +kernel
  | timestamp r => cases r <;> decide +kernel
  | test q => cases q <;> decide +kernel
  | _ => decide +kernel

theorem ofKey?_path {op : Operator} (h : op.hasPathForm = true) :
    ofKey? (op.name ++ "Path") = some (op, true) := by
  cases op with
  | string r => cases r <;> decide +kernel
  | numeric r => cases r <;> decide +kernel
  | timestamp r => cases r <;> decide +kernel
  | booleanEquals => decide +kernel
  | stringMatches => cases h
  | test q => cases h

end Operator

section

variable {p q : String} {P Q : Path} {op : Operator} {input context v : Value}

/-- What a rule with a single comparison becomes. -/
theorem ChoiceRule.compile_comparing {key : String} {byPath : Bool} (hp : Path.parse p = .ok P)
    (hkey : Operator.ofKey? key = some (op, byPath)) :
    compile (.comparing p key v) = (operand key byPath op v).map (.compare P op) := by
  simp only [Document.Rule.comparing, compile, compileComparison, Document.Rule.comparison?, hp,
    hkey, Except.mapError, bind, Except.bind]
  cases operand key byPath op v <;> rfl

theorem ChoiceRule.operand_literal {key : String} :
    operand key false op v = if op.accepts v then .ok (.literal v) else .error (.wrongType key v) :=
  rfl

theorem ChoiceRule.compile_literal (hp : Path.parse p = .ok P) (hv : op.accepts v = true) :
    compile (.comparing p op.name v) = .ok (.compare P op (.literal v)) := by
  rw [compile_comparing hp op.ofKey?_name, operand_literal, if_pos hv]
  rfl

theorem ChoiceRule.compile_path (hp : Path.parse p = .ok P) (hq : Path.parse q = .ok Q)
    (hop : op.hasPathForm = true) :
    compile (.comparing p (op.name ++ "Path") (.str q)) = .ok (.compare P op (.path Q)) := by
  rw [compile_comparing hp (Operator.ofKey?_path hop), operand, if_pos rfl, hq]
  rfl

/-- A literal that an operator cannot compare with is refused. -/
theorem ChoiceRule.accepts_of_compile {rule : ChoiceRule} (hp : Path.parse p = .ok P)
    (h : compile (.comparing p op.name v) = .ok rule) : op.accepts v = true := by
  rw [compile_comparing hp op.ofKey?_name, operand_literal] at h
  by_contra hv
  rw [if_neg hv] at h
  cases h

theorem matches_path (hp : Path.parse p = .ok P) (hq : Path.parse q = .ok Q)
    (hop : op.hasPathForm = true) :
    (Document.Rule.comparing p (op.name ++ "Path") (.str q)).Matches input context ↔
      op.answers (P.evaluate input context).toOption (Q.evaluate input context).toOption =
        true := by
  simp only [Document.Rule.Matches, ChoiceRule.compile_path hp hq hop, Except.ok.injEq,
    exists_eq_left', ChoiceRule.holds]

end

/-- The relation of two values the other way round. -/
def Relation.converse : Relation → Relation
  | .equals => .equals
  | .lessThan => .greaterThan
  | .greaterThan => .lessThan
  | .lessThanEquals => .greaterThanEquals
  | .greaterThanEquals => .lessThanEquals

theorem Relation.admits_converse (r : Relation) (o : Ordering) :
    r.converse.admits o.swap = r.admits o := by
  cases r <;> cases o <;> rfl

/-- The one relation that holds of an order and of no other. -/
def Relation.ofOrdering : Ordering → Relation
  | .lt => .lessThan
  | .eq => .equals
  | .gt => .greaterThan

theorem Relation.admits_iff_ofOrdering {r : Relation}
    (hr : r ∈ [.lessThan, .equals, .greaterThan]) (o : Ordering) :
    r.admits o = true ↔ r = ofOrdering o := by
  revert r
  cases o <;> decide

theorem Relation.ofOrdering_mem (o : Ordering) :
    ofOrdering o ∈ [.lessThan, .equals, .greaterThan] := by
  cases o <;> decide

theorem Instant.order_eq (a b : Instant) :
    a.order b = (compare a.seconds b.seconds).then (compare a.nanos b.nanos) := by
  rw [order]
  rcases lt_trichotomy a.seconds b.seconds with hs | hs | hs
  · rw [if_pos hs, compare_lt_iff_lt.mpr hs]
    rfl
  · rw [if_neg hs.not_lt, if_neg hs.not_gt, compare_eq_iff_eq.mpr hs]
    rcases lt_trichotomy a.nanos b.nanos with hn | hn | hn
    · rw [if_pos hn, compare_lt_iff_lt.mpr hn]
      rfl
    · rw [if_neg hn.not_lt, if_neg hn.not_gt, compare_eq_iff_eq.mpr hn]
      rfl
    · rw [if_neg hn.not_gt, if_pos hn, compare_gt_iff_gt.mpr hn]
      rfl
  · rw [if_neg hs.not_gt, if_pos hs, compare_gt_iff_gt.mpr hs]
    rfl

/-- The values that are compared in one way. -/
inductive Family where
  | string
  | numeric
  | timestamp

namespace Family

def operator : Family → Relation → Operator
  | string => .string
  | numeric => .numeric
  | timestamp => .timestamp

/-- What is compared of the values. -/
def Key : Family → Type
  | string => String
  | numeric => Int
  | timestamp => Instant

/-- What is compared of a value: a string itself, an integer of the signed range, or the instant of
a timestamp. -/
def key? : (F : Family) → Value → Option F.Key
  | string, v => v.str?
  | numeric, v => v.signed?
  | timestamp, v => v.str?.bind Timestamp.parse?

def compare : (F : Family) → F.Key → F.Key → Ordering
  | string => fun s t : String => Ord.compare s t
  | numeric => fun m n : Int => Ord.compare m n
  | timestamp => Instant.order

instance (F : Family) : Std.TransCmp F.compare :=
  match F with
  | string => inferInstanceAs (Std.TransOrd String)
  | numeric => inferInstanceAs (Std.TransOrd Int)
  | timestamp => by
    have horder : Instant.order =
        compareLex (compareOn Instant.seconds) (compareOn Instant.nanos) :=
      funext fun a => funext fun b => a.order_eq b
    have htrans : Std.TransCmp Instant.order := horder ▸ inferInstance
    exact htrans

/-- The values of the family. -/
def Covers (F : Family) (v : Value) : Prop := ∃ k, F.key? v = some k

/-- The values that cannot be compared as values of the family. -/
def Excludes : Family → Value → Prop
  | string, v => ∀ s, v ≠ .str s
  | numeric, v => (∀ n, v ≠ .int n) ∧ ∀ x, v ≠ .float x
  | timestamp, v => ∀ s, v = .str s → Timestamp.parse? s = none

/-- The order of two values, which the operators of the family look at. -/
def order? : Family → Value → Value → Option Ordering
  | string => stringOrder?
  | numeric => numericOrder?
  | timestamp => timestampOrder?

/-- The rule that compares the values of two paths. -/
def rule (F : Family) (r : Relation) (p q : String) : Document.Rule :=
  .comparing p ((F.operator r).name ++ "Path") (.str q)

section

variable {F : Family} {p q : String} {P Q : Path} {r : Relation} {a b c input context : Value}
  {x y : F.Key}

theorem order?_of_key (ha : F.key? a = some x) (hb : F.key? b = some y) :
    F.order? a b = some (F.compare x y) := by
  cases F with
  | string =>
    cases a <;> cases ha
    cases b <;> cases hb
    rfl
  | numeric =>
    replace ha : a.signed? = some x := ha
    replace hb : b.signed? = some y := hb
    rw [order?, numericOrder?, ha, hb]
    rfl
  | timestamp =>
    obtain ⟨s, hs, hx⟩ := Option.bind_eq_some_iff.mp ha
    obtain ⟨t, ht, hy⟩ := Option.bind_eq_some_iff.mp hb
    cases a <;> cases hs
    cases b <;> cases ht
    rw [order?, timestampOrder?, hx, hy]
    rfl

/-- Without two values of the family there is no order. -/
theorem order?_of_excludes (h : F.Excludes a ∨ F.Excludes b) : F.order? a b = none := by
  cases F with
  | string =>
    cases a <;> cases b <;> try rfl
    rcases h with h | h <;> exact (h _ rfl).elim
  | numeric =>
    rcases h with ⟨hint, hfloat⟩ | ⟨hint, hfloat⟩
    · cases a <;> first | exact (hint _ rfl).elim | exact (hfloat _ rfl).elim | rfl
    · cases b <;> first | exact (hint _ rfl).elim | exact (hfloat _ rfl).elim | skip
      all_goals cases a <;> simp [order?, numericOrder?, Value.signed?, Value.float?]
  | timestamp =>
    cases a <;> cases b <;> try rfl
    rcases h with h | h <;> rw [order?, timestampOrder?, h _ rfl]
    · rfl
    · cases Timestamp.parse? _ <;> rfl

theorem answers_operator {v w : Option Value} : (F.operator r).answers v w = true ↔
    ∃ a b o, v = some a ∧ w = some b ∧ F.order? a b = some o ∧ r.admits o = true := by
  match v, w with
  | some a, some b =>
    have hcompares : (F.operator r).answers (some a) (some b) = (F.order? a b).any r.admits := by
      cases F <;> rfl
    simp [hcompares, Option.any_eq_true]
  | some a, none => simp [Operator.answers]
  | none, w =>
    have hanswer : (F.operator r).answers none w = false := by
      unfold Operator.answers
      cases F <;> split <;> first | rfl | cases ‹none = some _›
    simp [hanswer]

/-- Whether the rule that compares the values of two paths can be asked and holds. -/
def Matches (F : Family) (r : Relation) (p q : String) (input context : Value) : Prop :=
  (F.rule r p q).Matches input context

theorem hasPathForm_operator (F : Family) (r : Relation) : (F.operator r).hasPathForm = true := by
  cases F <;> rfl

theorem matches_iff (hp : Path.parse p = .ok P) (hq : Path.parse q = .ok Q) :
    F.Matches r p q input context ↔ ∃ a b o, P.evaluate input context = .ok a ∧
      Q.evaluate input context = .ok b ∧ F.order? a b = some o ∧ r.admits o = true := by
  have htoOption {x : Except Path.PathError Value} {a : Value} :
      x.toOption = some a ↔ x = .ok a := by
    cases x <;> simp [Except.toOption]
  rw [Matches, rule, matches_path hp hq (F.hasPathForm_operator r), answers_operator]
  simp only [htoOption]

/-- Two values of the family are in one order, and all rules answer by it. -/
theorem matches_iff_admits (hp : Path.parse p = .ok P) (hq : Path.parse q = .ok Q)
    (ha : P.evaluate input context = .ok a) (hb : Q.evaluate input context = .ok b)
    (hx : F.key? a = some x) (hy : F.key? b = some y) :
    F.Matches r p q input context ↔ r.admits (F.compare x y) = true := by
  have horder := order?_of_key hx hy
  rw [matches_iff hp hq]
  constructor
  · rintro ⟨a', b', o, ha', hb', ho, hr⟩
    cases ha.symm.trans ha'
    cases hb.symm.trans hb'
    cases horder.symm.trans ho
    exact hr
  · exact fun hr => ⟨a, b, _, ha, hb, horder, hr⟩

end

/-- A path that leads to a value of the family. -/
def Leads (F : Family) (p : String) (input context : Value) : Prop :=
  ∃ P a, Path.parse p = .ok P ∧ P.evaluate input context = .ok a ∧ F.Covers a

/-- A path that leads nowhere, or to a value that the family excludes. -/
def Misses (F : Family) (p : String) (input context : Value) : Prop :=
  ∃ P, Path.parse p = .ok P ∧ ∀ a, P.evaluate input context = .ok a → F.Excludes a

/-- The laws of an order, for the answers of the rules of a family. -/
structure Laws (F : Family) (p q : String) (input context : Value) : Prop where
  one : ∃! r, r ∈ [.lessThan, .equals, .greaterThan] ∧ F.Matches r p q input context
  atMost : F.Matches .lessThanEquals p q input context ↔
    F.Matches .lessThan p q input context ∨ F.Matches .equals p q input context
  atLeast : F.Matches .greaterThanEquals p q input context ↔
    F.Matches .equals p q input context ∨ F.Matches .greaterThan p q input context
  exchanged : ∀ r : Relation, F.Matches r.converse q p input context ↔ F.Matches r p q input context
  transitive : ∀ t, F.Leads t input context → F.Matches .lessThan p q input context →
    F.Matches .lessThan q t input context → F.Matches .lessThan p t input context

section

variable {F : Family} {p q : String} {input context : Value}

/-- Where two paths lead to values of the family, the answers are those of the order of these. -/
theorem laws_of_leads (hp : F.Leads p input context) (hq : F.Leads q input context) :
    F.Laws p q input context := by
  obtain ⟨P, a, hp, ha, x, hx⟩ := hp
  obtain ⟨Q, b, hq, hb, y, hy⟩ := hq
  have hpq (r : Relation) := matches_iff_admits (r := r) hp hq ha hb hx hy
  have hqp (r : Relation) := matches_iff_admits (r := r) hq hp hb ha hy hx
  have hswap : F.compare y x = (F.compare x y).swap := Std.OrientedCmp.eq_swap
  refine ⟨⟨.ofOrdering (F.compare x y), ?_, ?_⟩, ?_, ?_, fun r => ?_, ?_⟩
  · have hmem := Relation.ofOrdering_mem (F.compare x y)
    exact ⟨hmem, (hpq _).mpr ((Relation.admits_iff_ofOrdering hmem _).mpr rfl)⟩
  · rintro r ⟨hmem, hr⟩
    exact (Relation.admits_iff_ofOrdering hmem _).mp ((hpq r).mp hr)
  · rw [hpq, hpq, hpq]
    cases F.compare x y <;> decide
  · rw [hpq, hpq, hpq]
    cases F.compare x y <;> decide
  · rw [hpq, hqp, hswap, Relation.admits_converse]
  · rintro t ⟨T, c, ht, hc, z, hz⟩ hless hless'
    have hxy : F.compare x y = .lt := beq_iff_eq.mp ((hpq .lessThan).mp hless)
    have hyz : F.compare y z = .lt :=
      beq_iff_eq.mp ((matches_iff_admits hq ht hb hc hy hz).mp hless')
    rw [matches_iff_admits hp ht ha hc hx hz, Std.TransCmp.lt_trans hxy hyz]
    rfl

/-- Where one of two paths misses the family, no rule holds. -/
theorem not_matches_of_misses {P Q : Path} (hp : Path.parse p = .ok P) (hq : Path.parse q = .ok Q)
    (h : F.Misses p input context ∨ F.Misses q input context) (r : Relation) :
    ¬ F.Matches r p q input context := by
  rw [matches_iff hp hq]
  rintro ⟨a, b, o, ha, hb, ho, -⟩
  have hexcluded : F.Excludes a ∨ F.Excludes b := by
    rcases h with ⟨P', hp', hall⟩ | ⟨Q', hq', hall⟩
    · cases hp.symm.trans hp'
      exact .inl (hall a ha)
    · cases hq.symm.trans hq'
      exact .inr (hall b hb)
  cases ho.symm.trans (order?_of_excludes hexcluded)

end

end Family

section

variable {p q : String} {P Q : Path} {op : Operator} {b input context : Value}

/-- A rule that takes its operand from a path answers like the rule with what the path leads to. -/
theorem matches_path_iff_literal {rule : ChoiceRule} (hp : Path.parse p = .ok P)
    (hq : Path.parse q = .ok Q) (hop : op.hasPathForm = true)
    (hb : Q.evaluate input context = .ok b)
    (hrule : ChoiceRule.compile (.comparing p op.name b) = .ok rule) :
    (Document.Rule.comparing p (op.name ++ "Path") (.str q)).Matches input context ↔
      rule.holds input context = true := by
  rw [ChoiceRule.compile_literal hp (ChoiceRule.accepts_of_compile hp hrule)] at hrule
  cases hrule
  rw [matches_path hp hq hop, hb]
  rfl

/-- The rules of a family that compare the values of two paths can be asked. Where the paths lead to
values of the family the answers are those of one order, and elsewhere none holds. A path stands for
the value that it leads to. -/
theorem paths_compared (F : Family) (hp : Path.parse p = .ok P) (hq : Path.parse q = .ok Q) :
    (∀ r, Succeeds (ChoiceRule.compile (F.rule r p q))) ∧
    ∀ input context,
      (F.Leads p input context → F.Leads q input context → F.Laws p q input context) ∧
      (F.Misses p input context ∨ F.Misses q input context →
        ∀ r, ¬ F.Matches r p q input context) ∧
      ∀ op : Operator, op.hasPathForm = true → ∀ b, Q.evaluate input context = .ok b →
        ∀ rule, ChoiceRule.compile (.comparing p op.name b) = .ok rule →
          ((Document.Rule.comparing p (op.name ++ "Path") (.str q)).Matches input context ↔
            rule.holds input context = true) := by
  refine ⟨fun r => ?_, fun input context => ⟨Family.laws_of_leads, ?_, ?_⟩⟩
  · exact ⟨_, ChoiceRule.compile_path hp hq (F.hasPathForm_operator r)⟩
  · exact Family.not_matches_of_misses hp hq
  · exact fun op hop b hb rule => matches_path_iff_literal hp hq hop hb

/-- The path to a field of a document. -/
def Path.dotted (name : String) : Path where
  text := "$." ++ name
  inContext := false
  segments := [.select (.key (.field name))]
  route := .reference [.field name]

/-- One instant told in two zones, and a date. -/
def zones : Value :=
  .obj [("start", .str "2016-03-14T03:59:00+02:00"), ("end", .str "2016-03-14T01:59:00Z"),
    ("day", .str "2016-03-14")]

/-- The instants are equal, so neither is before the other, and with the date nothing compares. -/
theorem zones_compared : ∃ P Q R, Path.parse "$.start" = .ok P ∧ Path.parse "$.end" = .ok Q ∧
    Path.parse "$.day" = .ok R ∧ Family.timestamp.Leads "$.start" zones .null ∧
    Family.timestamp.Leads "$.end" zones .null ∧ Family.timestamp.Misses "$.day" zones .null ∧
    Family.timestamp.Matches .lessThanEquals "$.start" "$.end" zones .null ∧
    ¬ Family.timestamp.Matches .lessThan "$.start" "$.end" zones .null ∧
    ∀ r, ¬ Family.timestamp.Matches r "$.start" "$.day" zones .null := by
  have hp : Path.parse "$.start" = .ok (.dotted "start") := by cbv
  have hq : Path.parse "$.end" = .ok (.dotted "end") := by cbv
  have hr : Path.parse "$.day" = .ok (.dotted "day") := by cbv
  have hstart : Family.timestamp.Leads "$.start" zones .null := ⟨_, _, hp, rfl, _, by cbv⟩
  have hend : Family.timestamp.Leads "$.end" zones .null := ⟨_, _, hq, rfl, _, by cbv⟩
  have hday : Family.timestamp.Misses "$.day" zones .null := by
    refine ⟨_, hr, ?_⟩
    rintro a ha s rfl
    cases ha
    cbv
  have hequal : Family.timestamp.Matches .equals "$.start" "$.end" zones .null :=
    ⟨_, ChoiceRule.compile_path hp hq rfl, by cbv⟩
  have hlaws := ((paths_compared .timestamp hp hq).2 zones .null).1 hstart hend
  refine ⟨_, _, _, hp, hq, hr, hstart, hend, hday, hlaws.atMost.mpr (.inr hequal), fun hless => ?_,
    ((paths_compared .timestamp hp hr).2 zones .null).2.1 (.inr hday)⟩
  cases hlaws.one.unique ⟨by decide, hless⟩ ⟨by decide, hequal⟩

end

end StatesLanguage
