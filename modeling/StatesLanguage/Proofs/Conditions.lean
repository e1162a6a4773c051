import StatesLanguage.Proofs.Literals
import StatesLanguage.Proofs.Suffixes

/-! What filters select. A condition that compares fields with literals is translated comparison by
comparison, read back as it is written, and holds of the items of which it says something true. -/
namespace StatesLanguage.Path

open Jmespath

/-- A comparison of a field with a literal, and the blanks in its text. -/
structure Comparison where
  name : String
  comparator : Comparator
  literal : Literal
  before : List Char := []
  beforeMark : List Char := []
  afterMark : List Char := []
  after : List Char := []
  named : name.toList ≠ [] := by decide
  word : name.toList.all isWordChar = true := by decide
  fits : literal.Fits := by decide +kernel
  blank : (before ++ beforeMark ++ afterMark ++ after).all isBlank = true := by decide

namespace Comparison

def field (c : Comparison) : List Char := '@' :: '.' :: c.name.toList

/-- The text without the blanks around it. -/
def inner (c : Comparison) : List Char :=
  (c.field ++ c.beforeMark) ++ (c.comparator.text ++ (c.afterMark ++ c.literal.text))

def text (c : Comparison) : List Char := c.before ++ c.inner ++ c.after

/-- The comparison in the query language. -/
def query (c : Comparison) : List Char :=
  (quoted c.name).toList ++ (' ' :: c.comparator.text ++ [' ']) ++ literalText c.literal.value

def tokens (c : Comparison) : List Token :=
  [.name c.name] ++ [.comparator c.comparator] ++ [.literal c.literal.value]

def clause (c : Comparison) : Clause :=
  .compare c.comparator (.path [.field c.name]) (.literal c.literal.value)

/-- Whether the comparison is true of an item. A missing field counts as null. -/
def holds (c : Comparison) (item : Value) : Bool :=
  c.literal.compares ((item.field? c.name).getD .null) c.comparator

end Comparison

section

variable {d : Dialect} {m : Char} {name : List Char} {c : Comparison} {item : Value}

/-- A word behind a point is a field. -/
theorem translateOperand_field (hne : name ≠ []) (h : ∀ c ∈ name, isWordChar c = true) :
    translateOperand ('@' :: '.' :: name) = .ok (quoted (String.ofList name)).toList := by
  have hname : ∀ c ∈ name, endsName c = false := by
    intro c hc
    have hfree := word_unreserved (h c hc)
    simp [reserved] at hfree
    simp [endsName, hfree]
  have hstar : name.head? ≠ some '*' := by
    intro heq
    exact absurd (h '*' (List.mem_of_mem_head? heq)) (by decide)
  have hsegment := readSegment_dotted hne hstar hname
  have htext := toList_quoted (String.ofList name)
  simp only [translateOperand, readSegments_single (List.cons_ne_nil _ _) hsegment]
  simp only [translate, pieces, Selector.translate, htext, bind, Except.bind]
  simp [Except.map]

namespace Comparison

theorem words (c : Comparison) : ∀ b ∈ c.name.toList, isWordChar b = true :=
  List.all_eq_true.mp c.word

theorem blanks (c : Comparison) : (∀ b ∈ c.before, isBlank b = true) ∧
    (∀ b ∈ c.beforeMark, isBlank b = true) ∧ (∀ b ∈ c.afterMark, isBlank b = true) ∧
    ∀ b ∈ c.after, isBlank b = true := by
  obtain ⟨hrest, hafter⟩ := List.forall_mem_append.mp (List.all_eq_true.mp c.blank)
  obtain ⟨hrest, hafterMark⟩ := List.forall_mem_append.mp hrest
  obtain ⟨hbefore, hbeforeMark⟩ := List.forall_mem_append.mp hrest
  exact ⟨hbefore, hbeforeMark, hafterMark, hafter⟩

theorem skips_blank {bs : List Char} (hm : m ∈ marks) (h : ∀ b ∈ bs, isBlank b = true) :
    Skips m none bs none :=
  .of_unreserved hm fun b hb => blank_unreserved (h b hb)

theorem clear_blank {bs : List Char} (h : ∀ b ∈ bs, isBlank b = true) : Clear bs :=
  .of_not_mem fun hb => absurd (h _ hb) (by decide)

theorem skips_field (c : Comparison) (hm : m ∈ marks) : Skips m none c.field none := by
  have hstart : ∀ m ∈ marks, ∀ b ∈ ['@', '.'], b ≠ m ∧ quoteAfter none b = none := by
    simp [marks, comparatorMarks, quoteAfter]
  have hname : Skips m none c.name.toList none :=
    .of_unreserved hm fun b hb => word_unreserved (c.words b hb)
  exact (Skips.of_forall (hstart m hm)).append hname

theorem clear_field (c : Comparison) : Clear c.field := by
  have hstart : Clear ['@', '.'] := .of_not_mem (by decide)
  have hname : Clear c.name.toList :=
    .of_not_mem fun hb => word_unreserved (c.words _ hb) (by decide)
  exact hstart.append hname

/-- No connective is in a comparison but in quotes. -/
theorem skips_text (c : Comparison) (hm : m ∈ ['|', '&']) : Skips m none c.text none := by
  have hmarks : m ∈ marks := List.mem_append_right _ hm
  obtain ⟨hbefore, hbeforeMark, hafterMark, hafter⟩ := c.blanks
  have hcomparator : Skips m none c.comparator.text none := by
    have htexts : ∀ m ∈ ['|', '&'], ∀ b ∈ c.comparator.text, b ≠ m ∧ quoteAfter none b = none := by
      cases c.comparator <;> simp [Comparator.text, quoteAfter]
    exact .of_forall (htexts m hm)
  have hleft := (c.skips_field hmarks).append (skips_blank hmarks hbeforeMark)
  have hright := (skips_blank hmarks hafterMark).append (Literal.skips c.fits hmarks)
  exact ((skips_blank hmarks hbefore).append (hleft.append (hcomparator.append hright))).append
    (skips_blank hmarks hafter)

/-- No comparison ends a filter. -/
theorem clear_text (c : Comparison) : Clear c.text := by
  obtain ⟨hbefore, hbeforeMark, hafterMark, hafter⟩ := c.blanks
  have hcomparator : Clear c.comparator.text := by
    refine .of_not_mem ?_
    cases c.comparator <;> decide
  have hleft := c.clear_field.append (clear_blank hbeforeMark)
  have hright := (clear_blank hafterMark).append (Literal.clear c.fits)
  exact ((clear_blank hbefore).append (hleft.append (hcomparator.append hright))).append
    (clear_blank hafter)

theorem trim_text (c : Comparison) : trim c.text = c.inner := by
  obtain ⟨hbefore, -, -, hafter⟩ := c.blanks
  have hright : c.afterMark ++ c.literal.text ≠ [] :=
    List.append_ne_nil_of_right_ne_nil _ c.literal.text_ne_nil
  have hmark : c.comparator.text ++ (c.afterMark ++ c.literal.text) ≠ [] :=
    List.append_ne_nil_of_right_ne_nil _ hright
  rw [text, trim_padded _ _ hbefore hafter]
  refine trim_of_ends ?_ fun b hb => ?_
  · rintro b ⟨⟩
    decide
  · rw [inner, List.getLast?_append_of_ne_nil _ hmark, List.getLast?_append_of_ne_nil _ hright,
      List.getLast?_append_of_ne_nil _ c.literal.text_ne_nil] at hb
    exact c.literal.ends.2 b hb

theorem trim_left (c : Comparison) : trim (c.field ++ c.beforeMark) = c.field := by
  obtain ⟨-, hbeforeMark, -, -⟩ := c.blanks
  have hfield : ∀ b ∈ c.field, isBlank b = false := by
    have hname : ∀ b ∈ c.name.toList, isBlank b = false := fun b hb => word_not_blank (c.words b hb)
    exact List.forall_mem_cons.mpr ⟨by decide, List.forall_mem_cons.mpr ⟨by decide, hname⟩⟩
  calc trim (c.field ++ c.beforeMark)
      = trim c.field := trim_padded [] _ (by simp) hbeforeMark _
    _ = c.field := trim_of_forall hfield

theorem trim_right (c : Comparison) : trim (c.afterMark ++ c.literal.text) = c.literal.text := by
  obtain ⟨-, -, hafterMark, -⟩ := c.blanks
  have hpadded := trim_padded c.afterMark [] hafterMark (by simp) c.literal.text
  rw [List.append_nil] at hpadded
  rw [hpadded, trim_of_ends Literal.ends.1 Literal.ends.2]

/-- A comparison is translated operand by operand. -/
theorem translateClause_text (c : Comparison) : translateClause (trim c.text) = .ok c.query := by
  obtain ⟨-, hbeforeMark, hafterMark, -⟩ := c.blanks
  have hmarks : ∀ m ∈ comparatorMarks, m ∈ marks := fun m hm => List.mem_append_left _ hm
  have hquery : c.query = (quoted c.name).toList ++ ' ' :: c.comparator.text ++
      ' ' :: literalText c.literal.value := by simp [query]
  rw [c.trim_text, hquery]
  refine translateClause_compare c.comparator (fun m hm => ?_) (fun m hm => ?_) ?_ ?_
  · exact (c.skips_field (hmarks m hm)).append (skips_blank (hmarks m hm) hbeforeMark)
  · exact (skips_blank (hmarks m hm) hafterMark).append (Literal.skips c.fits (hmarks m hm))
  · rw [c.trim_left, field, translateOperand_field c.named c.words, String.ofList_toList]
  · rw [c.trim_right, Literal.translateOperand_text c.fits]

/-- The translation of a comparison is read as its three parts. -/
theorem reads_query (d : Dialect) (c : Comparison) : Reads d c.query c.tokens :=
  ((reads_name d c.name).append (reads_comparator d c.comparator)).append
    (Literal.reads_value d c.fits)

theorem readClause_tokens (c : Comparison) : readClause c.tokens = .ok c.clause := rfl

theorem holds_clause (hd : d.Exact) (hitem : ∀ v, item.field? c.name = some v → v.Exact) :
    c.clause.holds? d item = some (c.holds item) := by
  have hexact : ((item.field? c.name).getD .null).Exact := by
    cases hv : item.field? c.name with
    | none => trivial
    | some v => exact hitem v hv
  have hfield : followAll [.field c.name] item = some ((item.field? c.name).getD .null) := by
    cases item <;> rfl
  rw [clause, Clause.holds?, Operand.value?, hfield, Operand.value?, holds,
    ← holds_literal hd c.fits hexact]
  rfl

end Comparison

end

theorem project_of_forall {each : Value → Option Value} {g : Value → Value} {items : List Value}
    (h : ∀ item ∈ items, each item = some (g item)) :
    project each items = some (.arr ((items.map g).filter (!·.isNull))) := by
  suffices items.mapM each = some (items.map g) by rw [project, this]; rfl
  induction items with
  | nil => rfl
  | cons item items ih =>
    obtain ⟨hitem, hrest⟩ := List.forall_mem_cons.mp h
    rw [List.mapM_cons, hitem, ih hrest]
    rfl

/-- What is made null is left out with what was null before. -/
theorem filter_nulled (keep : Value → Bool) (items : List Value) :
    (items.map fun item => if keep item then item else .null).filter (!·.isNull) =
      items.filter fun item => keep item && !item.isNull := by
  induction items with
  | nil => rfl
  | cons item items ih =>
    rw [List.map_cons, List.filter_cons, List.filter_cons, ih]
    cases keep item <;> rfl

/-- Comparisons joined by "and", and what comes of that joined by "or". -/
structure Condition where
  alternatives : List (List Comparison)
  some_alternative : alternatives.isEmpty = false := by rfl
  some_comparison : alternatives.all (fun cs => !cs.isEmpty) = true := by rfl

namespace Condition

variable {B : Condition} {d : Dialect} {m : Char} {item : Value} {items : List Value}

def text (B : Condition) : List Char :=
  ['|', '|'].intercalate (B.alternatives.map fun cs => ['&', '&'].intercalate (cs.map (·.text)))

/-- The condition in the query language. -/
def query (B : Condition) : List Char :=
  [' ', '|', '|', ' '].intercalate
    (B.alternatives.map fun cs => [' ', '&', '&', ' '].intercalate (cs.map (·.query)))

def tokens (B : Condition) : List Token :=
  [.or].intercalate (B.alternatives.map fun cs => [.and].intercalate (cs.map (·.tokens)))

def filter (B : Condition) : Jmespath.Condition :=
  B.alternatives.map fun cs => cs.map (·.clause)

/-- Whether all comparisons of an alternative are true of an item. -/
def holds (B : Condition) (item : Value) : Bool :=
  B.alternatives.any fun cs => cs.all fun c => c.holds item

theorem translateFilter_comparison (c : Comparison) : translateFilter c.text = .ok c.query := by
  rw [translateFilter_of_skips (c.skips_text (by decide)) (c.skips_text (by decide)),
    c.translateClause_text]

/-- A comparison with a connective behind it is translated before the rest. -/
theorem translateFilter_before {rest rest' : List Char} (hm : m ∈ ['&', '|']) (c : Comparison)
    (h : translateFilter rest = .ok rest') :
    translateFilter (c.text ++ ([m, m] ++ rest)) = .ok (c.query ++ ([' ', m, m, ' '] ++ rest')) := by
  have hmark := translateFilter_mark hm (c.skips_text (by decide)) (c.skips_text (by decide)) rest
  rw [c.translateClause_text, h] at hmark
  simpa using! hmark

/-- An alternative is translated comparison by comparison, if what stands behind it is so behind each
of them. -/
theorem translateFilter_alternative {cs : List Comparison} {rest rest' : List Char} (hne : cs ≠ [])
    (h : ∀ c : Comparison, translateFilter (c.text ++ rest) = .ok (c.query ++ rest')) :
    translateFilter (['&', '&'].intercalate (cs.map (·.text)) ++ rest) =
      .ok ([' ', '&', '&', ' '].intercalate (cs.map (·.query)) ++ rest') := by
  induction cs with
  | nil => exact (hne rfl).elim
  | cons c cs ih =>
    cases cs with
    | nil => simpa using h c
    | cons next cs =>
      have hbefore := translateFilter_before (m := '&') (by decide) c (ih (List.cons_ne_nil _ _))
      simpa only [List.map_cons, List.intercalate_cons_cons, List.append_assoc] using hbefore

theorem translateFilter_alternatives {alternatives : List (List Comparison)}
    (hne : alternatives ≠ []) (h : ∀ cs ∈ alternatives, cs ≠ []) :
    translateFilter (['|', '|'].intercalate
        (alternatives.map fun cs => ['&', '&'].intercalate (cs.map (·.text)))) =
      .ok ([' ', '|', '|', ' '].intercalate
        (alternatives.map fun cs => [' ', '&', '&', ' '].intercalate (cs.map (·.query)))) := by
  induction alternatives with
  | nil => exact (hne rfl).elim
  | cons cs rest ih =>
    obtain ⟨hcs, hrest⟩ := List.forall_mem_cons.mp h
    cases rest with
    | nil =>
      have hend (c : Comparison) : translateFilter (c.text ++ []) = .ok (c.query ++ []) := by
        simpa using translateFilter_comparison c
      simpa using translateFilter_alternative hcs hend
    | cons next rest =>
      have hnext := ih (List.cons_ne_nil _ _) hrest
      have hbefore := translateFilter_alternative hcs fun c =>
        translateFilter_before (m := '|') (by decide) c hnext
      simpa only [List.map_cons, List.intercalate_cons_cons, List.append_assoc] using hbefore

/-- A condition is translated comparison by comparison. -/
theorem translateFilter_text (B : Condition) : translateFilter B.text = .ok B.query := by
  refine translateFilter_alternatives (by simpa using B.some_alternative) fun cs hcs => ?_
  simpa using List.all_eq_true.mp B.some_comparison cs hcs

/-- The translation of a condition is read as its comparisons with the connectives between them. -/
theorem reads_query (d : Dialect) (B : Condition) : Reads d B.query B.tokens := by
  have hand : Reads d [' ', '&', '&', ' '] [.and] := reads_spaced '&' ['&'] (fun _ => rfl) rfl
  have hor : Reads d [' ', '|', '|', ' '] [.or] := reads_spaced '|' ['|'] (fun _ => rfl) rfl
  exact hor.intercalate fun cs _ => hand.intercalate fun c _ => c.reads_query d

theorem forall_alternative {P : Token → Prop} (hand : P .and)
    (h : ∀ c : Comparison, ∀ t ∈ c.tokens, P t) (cs : List Comparison) :
    ∀ t ∈ [Token.and].intercalate (cs.map (·.tokens)), P t := by
  refine forall_mem_intercalate (by simpa) fun part hpart => ?_
  obtain ⟨c, -, rfl⟩ := List.mem_map.mp hpart
  exact h c

theorem forall_tokens {P : Token → Prop} (hand : P .and) (hor : P .or)
    (h : ∀ c : Comparison, ∀ t ∈ c.tokens, P t) (B : Condition) : ∀ t ∈ B.tokens, P t := by
  refine forall_mem_intercalate (by simpa) fun part hpart => ?_
  obtain ⟨cs, -, rfl⟩ := List.mem_map.mp hpart
  exact forall_alternative hand h cs

/-- The comparisons of a condition are told apart by the connectives. -/
theorem readCondition_tokens (B : Condition) : readCondition B.tokens = .ok B.filter := by
  have hor : ∀ c : Comparison, ∀ t ∈ c.tokens, t.isOr = false := by
    simp [Comparison.tokens, Token.isOr]
  have hand : ∀ c : Comparison, ∀ t ∈ c.tokens, t.isAnd = false := by
    simp [Comparison.tokens, Token.isAnd]
  have hparts : B.tokens.splitOnP Token.isOr =
      B.alternatives.map fun cs => [.and].intercalate (cs.map (·.tokens)) := by
    have hne : B.alternatives ≠ [] := by simpa using B.some_alternative
    refine splitOnP_intercalate rfl (by simpa using hne) fun part hpart => ?_
    obtain ⟨cs, -, rfl⟩ := List.mem_map.mp hpart
    exact forall_alternative (P := fun t => t.isOr = false) rfl hor cs
  have hclauses (cs : List Comparison) (hcs : cs ∈ B.alternatives) :
      ([Token.and].intercalate (cs.map (·.tokens))).splitOnP Token.isAnd = cs.map (·.tokens) := by
    have hne : cs ≠ [] := by simpa using List.all_eq_true.mp B.some_comparison cs hcs
    refine splitOnP_intercalate rfl (by simpa using hne) fun part hpart => ?_
    obtain ⟨c, -, rfl⟩ := List.mem_map.mp hpart
    exact hand c
  rw [readCondition, hparts, List.mapM_map]
  refine mapM_eq_ok fun cs hcs => ?_
  simp only [Function.comp_apply, hclauses cs hcs, List.mapM_map]
  exact mapM_eq_ok fun c _ => c.readClause_tokens

/-- No condition ends its filter. -/
theorem clear_text (B : Condition) : Clear B.text := by
  refine forall_intercalate trivial .append (.of_not_mem (by decide)) fun part hpart => ?_
  obtain ⟨cs, -, rfl⟩ := List.mem_map.mp hpart
  refine forall_intercalate trivial .append (.of_not_mem (by decide)) fun text htext => ?_
  obtain ⟨c, -, rfl⟩ := List.mem_map.mp htext
  exact c.clear_text

theorem allHold_clauses (hd : d.Exact) (h : ∀ name v, item.field? name = some v → v.Exact)
    (cs : List Comparison) :
    allHold? d item (cs.map (·.clause)) = some (cs.all fun c => c.holds item) := by
  induction cs with
  | nil => rfl
  | cons c cs ih =>
    rw [List.map_cons, allHold?, c.holds_clause hd (h c.name), ih, List.all_cons]
    cases c.holds item <;> rfl

/-- What is read from a condition holds of the items that it is true of. -/
theorem holds_filter (hd : d.Exact) (h : ∀ name v, item.field? name = some v → v.Exact) :
    B.filter.holds? d item = some (B.holds item) := by
  rw [filter, holds]
  induction B.alternatives with
  | nil => rfl
  | cons cs rest ih =>
    rw [List.map_cons, Condition.holds?, allHold_clauses hd h, ih, List.any_cons]
    cases cs.all fun c => c.holds item <;> rfl

/-- A filter leaves out the items that its condition is not true of, and those that are null. -/
theorem eval_filter (hd : d.Exact) (h : ∀ item ∈ items, ∀ name v, item.field? name = some v → v.Exact) :
    (Query.ofSteps [.filter B.filter]).eval d (.arr items) =
      some (.arr (items.filter fun item => B.holds item && !item.isNull)) := by
  have heach : ∀ item ∈ items, (do if ← B.filter.holds? d item then some item else some .null)
      = some (if B.holds item then item else .null) := by
    intro item hitem
    rw [holds_filter hd (h item hitem)]
    cases B.holds item <;> rfl
  have hproject := project_of_forall heach
  rw [filter_nulled] at hproject
  simp only [Query.ofSteps, grouping, Query.eval, hproject]
  rfl

/-- The translation of a filter is read as its condition. -/
theorem compile_query (d : Dialect) (B : Condition) :
    compile d ('[' :: '?' :: B.query ++ [']']) = .ok (.ofSteps [.filter B.filter]) := by
  have hclose : ∀ t ∈ B.tokens, t ≠ .close :=
    forall_tokens nofun nofun (by simp [Comparison.tokens]) B
  have hend : Jmespath.tokens d [']'] = .ok [.close] := by
    rw [tokens_of_read rfl rfl, Jmespath.tokens]
    rfl
  have htokens : Jmespath.tokens d ('[' :: '?' :: B.query ++ [']']) =
      .ok (.filter :: (B.tokens ++ [.close])) := by
    rw [List.cons_append, List.cons_append, tokens_of_read rfl rfl, B.reads_query d, hend]
    rfl
  rw [List.cons_append, compile_bracket, ← List.cons_append, readOn, htokens]
  change (readInside [] (B.tokens ++ [.close])).map _ = _
  rw [readInside_append hclose, List.reverse_nil, List.nil_append, B.readCondition_tokens]
  rfl

/-- The path of a filter with that condition. -/
def path (B : Condition) (d : Dialect) : Path where
  text := "$[?(" ++ String.ofList B.text ++ ")]"
  inContext := false
  segments := [.filter (String.ofList (trim B.text))]
  route := .query d (.ofSteps [.filter B.filter])

theorem parse_path (B : Condition) (d : Dialect) : parse (B.path d).text d = .ok (B.path d) := by
  have hread : readSegments ('[' :: '?' :: '(' :: (B.text ++ [')', ']'])) =
      .ok [.filter (String.ofList (trim B.text))] := by
    refine readSegments_single (List.cons_ne_nil _ _) ?_
    rw [readSegment, B.clear_text.splitAt? []]
  have hroute (text : String) : route? text [.filter (String.ofList (trim B.text))] d =
      .ok (.query d (.ofSteps [.filter B.filter])) := by
    have hkeys : keys? [.filter (String.ofList (trim B.text))] = none := rfl
    have hfilter : translateFilter (String.ofList (trim B.text)).toList = .ok B.query := by
      rw [String.toList_ofList, translateFilter_trim, B.translateFilter_text]
    have htranslate : translate (fun filter => translateFilter filter.toList)
        [.filter (String.ofList (trim B.text))] = .ok ('[' :: '?' :: B.query ++ [']']) := by
      simp only [translate, pieces, hfilter]
      rfl
    simp only [route?, hkeys, htranslate, Except.mapError, bind, Except.bind, B.compile_query d]
    rfl
  have htext : (B.path d).text.toList =
      dollars false ++ '[' :: '?' :: '(' :: (B.text ++ [')', ']']) := by
    simp [path, dollars]
  rw [parse_of_body htext (by rintro - after ⟨⟩), parseBody, hread]
  simp only [Except.mapError, hroute, bind, Except.bind]
  rfl

end Condition

/-- A filter selects the items of which its condition says something true, without those that are
null. -/
theorem filter_selects {d : Dialect} (hd : d.Exact) (B : Condition) : ∃ p,
    parse ("$[?(" ++ String.ofList B.text ++ ")]") d = .ok p ∧
      ∀ items context, (∀ item ∈ items, ∀ name v, item.field? name = some v → v.Exact) →
        p.evaluate (.arr items) context =
          .ok (sorted (.arr (items.filter fun item => B.holds item && !item.isNull))) := by
  refine ⟨B.path d, B.parse_path d, fun items context h => ?_⟩
  have hselected := B.eval_filter hd h
  exact evaluate_of_query rfl hselected

/-- A condition in which a string holds a connective. -/
def mixed : Condition where
  alternatives :=
    [[{ name := "n", comparator := .atMost, literal := .int 2, after := [' '] },
      { name := "s", comparator := .unequal, literal := .str "x && y",
        before := [' '], beforeMark := [' '], afterMark := [' '], after := [' '] }],
     [{ name := "b", comparator := .equal, literal := .null,
        before := [' '], beforeMark := [' '], afterMark := [' '] }]]

/-- Of four items two are selected, one for each alternative. -/
theorem mixed_selects : Dialect.ideal.Exact ∧ ∃ p,
    parse "$[?(@.n<=2 && @.s != 'x && y' || @.b == null)]" .ideal = .ok p ∧
      p.evaluate (.arr [.obj [("n", .int 1), ("b", .int 0)], .null, .obj [("n", .int 3)],
        .obj [("n", .int 1), ("s", .str "x && y"), ("b", .bool false)]]) .null =
        .ok (.arr [.obj [("b", .int 0), ("n", .int 1)], .obj [("n", .int 3)]]) := by
  have hd : Dialect.ideal.Exact := fun _ _ => rfl
  have htext : "$[?(" ++ String.ofList mixed.text ++ ")]" =
      "$[?(@.n<=2 && @.s != 'x && y' || @.b == null)]" := by decide +kernel
  obtain ⟨p, hp, hselects⟩ := filter_selects hd mixed
  rw [htext] at hp
  refine ⟨hd, p, hp, (hselects _ .null fun item hitem name v hv => ?_).trans rfl⟩
  simp only [List.mem_cons, List.not_mem_nil, or_false] at hitem
  rcases hitem with rfl | rfl | rfl | rfl
  · exact Value.exact_field (by simp [Value.Exact]) hv
  · cases hv
  · exact Value.exact_field (by simp [Value.Exact]) hv
  · exact Value.exact_field (by simp [Value.Exact]) hv

end StatesLanguage.Path
