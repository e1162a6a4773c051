import StatesLanguage.Proofs.Brackets
import StatesLanguage.Proofs.Suffixes

/-! How the segments of a path are written. Whatever their order, segments that are written one behind
the other are read back. -/
namespace StatesLanguage

/-- An integer of the signed 64-bit range. -/
def Signed (i : Int) : Prop := Value.minInt ≤ i ∧ i ≤ Value.maxSigned

instance : DecidablePred Signed := fun i =>
  inferInstanceAs (Decidable (Value.minInt ≤ i ∧ i ≤ Value.maxSigned))

namespace Path

/-- A segment as it is written: a field behind a point or in brackets and quotes, a position in
brackets, a star in brackets or behind a point, two or three bounds, or a condition. -/
inductive Spelling where
  | dotted (name : String)
  | quoted (name : String)
  | position (i : Int)
  | items
  | values
  | bounds (start stop : Option Int) (step : Option (Option Int))
  | condition (text : String)
  deriving DecidableEq

namespace Spelling

/-- The texts of two or three bounds. -/
def boundTexts (start stop : Option Int) (step : Option (Option Int)) : List (List Char) :=
  boundText start :: boundText stop :: step.toList.map boundText

def text : Spelling → List Char
  | .dotted name => '.' :: name.toList
  | .quoted name => '[' :: '\'' :: (name.toList ++ ['\'', ']'])
  | .position i => '[' :: ((toString i).toList ++ [']'])
  | .items => ['[', '*', ']']
  | .values => ['.', '*']
  | .bounds start stop step => '[' :: ([':'].intercalate (boundTexts start stop step) ++ [']'])
  | .condition text => '[' :: '?' :: '(' :: (text.toList ++ [')', ']'])

/-- The segment that is meant. -/
def segment : Spelling → Segment
  | .dotted name | .quoted name => .select (.key (.field name))
  | .position i => .select (.key (.index i))
  | .items => .select .items
  | .values => .select .values
  | .bounds start stop step => .select (.slice start stop step.join)
  | .condition text => .filter text

/-- Whether nothing in a spelling ends it too early or makes it another one. -/
def Fits : Spelling → Prop
  | .dotted name => name.toList ≠ [] ∧ name.toList.head? ≠ some '*' ∧
      '.' ∉ name.toList ∧ '[' ∉ name.toList
  | .quoted name => ¬ ['\'', ']'] <:+: name.toList
  | .position i => Signed i
  | .items | .values => True
  | .bounds start stop step => (∀ i ∈ start, Signed i) ∧ (∀ i ∈ stop, Signed i) ∧
      ∀ i ∈ step.join, Signed i
  | .condition text => trim text.toList = text.toList ∧ ¬ [')', ']'] <:+: text.toList

instance : DecidablePred Fits
  | .dotted name => inferInstanceAs (Decidable (name.toList ≠ [] ∧
      name.toList.head? ≠ some '*' ∧ '.' ∉ name.toList ∧ '[' ∉ name.toList))
  | .quoted name => inferInstanceAs (Decidable (¬ ['\'', ']'] <:+: name.toList))
  | .position i => inferInstanceAs (Decidable (Signed i))
  | .items | .values => .isTrue trivial
  | .bounds start stop step => inferInstanceAs (Decidable ((∀ i ∈ start, Signed i) ∧
      (∀ i ∈ stop, Signed i) ∧ ∀ i ∈ step.join, Signed i))
  | .condition text => inferInstanceAs (Decidable (trim text.toList = text.toList ∧
      ¬ [')', ']'] <:+: text.toList))

end Spelling

/-- The text of a path whose segments are written in that way. -/
def spelled (inContext : Bool) (ws : List Spelling) : String :=
  String.ofList (dollars inContext ++ ws.flatMap Spelling.text)

section

variable {i : Int} {o start stop : Option Int} {step : Option (Option Int)} {w : Spelling}
  {ws : List Spelling}

/-- A signed integer is read back from its numeral. -/
theorem integer?_toString (h : Signed i) : integer? (toString i).toList = some i := by
  cases i with
  | ofNat n =>
    have hsign (c : Char) (hc : c.isDigit = false) (rest : List Char) :
        Nat.toDigits 10 n ≠ c :: rest := by
      intro heq
      have hc' : c.isDigit = true := isDigit_of_mem_digits (heq ▸ List.mem_cons_self)
      cases hc.symm.trans hc'
    rw [toList_toString_ofNat, integer?, digits_pass]
    · simp only [Bool.false_eq_true, if_false, digits_value]
      exact if_pos h
    · exact hsign '-' (by decide)
    · exact hsign '+' (by decide)
  | negSucc n =>
    rw [toList_toString_negSucc, integer?, digits_pass]
    simp only [Bool.false_eq_true, if_false, if_true, digits_value]
    rw [if_pos]
    · rfl
    · exact h

theorem bound?_text (h : ∀ i ∈ o, Signed i) : bound? (boundText o) = some o := by
  cases o with
  | none => rfl
  | some i =>
    have hempty : (toString i).toList.isEmpty = false := by
      simpa using toList_toString_ne_nil i
    rw [boundText, bound?_numeral fun _ hc => numeralChar_of_mem hc, hempty,
      integer?_toString (h i rfl)]
    rfl

theorem Spelling.boundTexts_numerals : ∀ part ∈ boundTexts start stop step,
    ∀ c ∈ part, isNumeralChar c = true := by
  have hbound (o : Option Int) : ∀ c ∈ boundText o, isNumeralChar c = true := by
    cases o with
    | none => simp [boundText]
    | some i => exact fun _ hc => numeralChar_of_mem hc
  intro part hpart
  rcases List.mem_cons.mp hpart with rfl | hpart
  · exact hbound start
  · rcases List.mem_cons.mp hpart with rfl | hpart
    · exact hbound stop
    · obtain ⟨o, -, rfl⟩ := List.mem_map.mp hpart
      exact hbound o

theorem bracketed_bounds (hstart : ∀ i ∈ start, Signed i) (hstop : ∀ i ∈ stop, Signed i)
    (hstep : ∀ i ∈ step.join, Signed i) :
    bracketed? ([':'].intercalate (Spelling.boundTexts start stop step)) =
      .ok (.slice start stop step.join) := by
  have hparts : ∀ part ∈ Spelling.boundTexts start stop step, ∀ c ∈ part,
      isNumeralChar c = true := Spelling.boundTexts_numerals
  have hslice : slice? ([':'].intercalate (Spelling.boundTexts start stop step)) =
      some (.slice start stop step.join) := by
    have hne : Spelling.boundTexts start stop step ≠ [] := List.cons_ne_nil _ _
    rw [slice?, splitOnChar_parts hne hparts]
    cases step with
    | none =>
      simp only [Spelling.boundTexts, Option.toList_none, List.map_nil, bound?_text hstart,
        bound?_text hstop]
      rfl
    | some step =>
      simp only [Spelling.boundTexts, Option.toList_some, List.map_cons, List.map_nil,
        bound?_text hstart, bound?_text hstop, bound?_text (o := step) hstep]
      rfl
  rw [Spelling.boundTexts, bracketed_parts hparts, ← Spelling.boundTexts, hslice]

/-- A spelling is read whole, as the segment that is meant. -/
theorem readSegment_text (h : w.Fits) : readSegment w.text = .ok (w.segment, []) := by
  cases w with
  | dotted name =>
    obtain ⟨hne, hstar, hpoint, hbracket⟩ := h
    have hname : ∀ c ∈ name.toList, endsName c = false := by
      intro c hc
      have hmark : c ≠ '.' ∧ c ≠ '[' :=
        ⟨ne_of_mem_of_not_mem hc hpoint, ne_of_mem_of_not_mem hc hbracket⟩
      simp [endsName, hmark]
    have hread := readSegment_dotted hne hstar hname
    rwa [String.ofList_toList] at hread
  | quoted name =>
    have hsplit := splitAt_pair (by decide) h []
    simp only [Spelling.text, readSegment, hsplit, String.ofList_toList, Spelling.segment]
  | position i =>
    have hnumeral : ∀ c ∈ (toString i).toList, isNumeralChar c = true :=
      fun _ hc => numeralChar_of_mem hc
    rw [Spelling.text, readSegment_bracketed (bounds_of_numeral hnumeral),
      bracketed_numeral hnumeral, integer?_toString h]
    rfl
  | items => rfl
  | values => rfl
  | bounds start stop step =>
    rw [Spelling.text, readSegment_bracketed (bounds_of_parts Spelling.boundTexts_numerals),
      bracketed_bounds h.1 h.2.1 h.2.2]
    rfl
  | condition text =>
    have hsplit := splitAt_pair (by decide) h.2 []
    simp only [Spelling.text, readSegment, hsplit, h.1, String.ofList_toList, Spelling.segment]

theorem Spelling.opens (w : Spelling) : Opens w.text := by
  cases w <;> exact ⟨_, _, rfl, rfl⟩

theorem flatMap_opens (ws : List Spelling) :
    ws.flatMap Spelling.text = [] ∨ Opens (ws.flatMap Spelling.text) := by
  refine opens_flatten fun x hx => ?_
  obtain ⟨w, -, rfl⟩ := List.mem_map.mp hx
  exact w.opens

/-- Spellings one behind the other are read as the segments that are meant. -/
theorem readSegments_text (h : ∀ w ∈ ws, w.Fits) :
    readSegments (ws.flatMap Spelling.text) = .ok (ws.map Spelling.segment) := by
  induction ws with
  | nil =>
    rw [List.flatMap_nil, readSegments]
    rfl
  | cons w ws ih =>
    obtain ⟨hw, hrest⟩ := List.forall_mem_cons.mp h
    rw [List.flatMap_cons, readSegments_cons (readSegment_text hw) (flatMap_opens ws), ih hrest]
    rfl

/-- Behind its dollar signs a path of spellings has the segments that are meant, and only their query
may still be out of reach. -/
theorem parse_spelled (h : ∀ w ∈ ws, w.Fits) (inContext : Bool) :
    parse (spelled inContext ws) =
      (route? (spelled inContext ws) (ws.map Spelling.segment)).map fun route =>
        { text := spelled inContext ws, inContext, segments := ws.map Spelling.segment, route } := by
  have hbody : (spelled inContext ws).toList = dollars inContext ++ ws.flatMap Spelling.text :=
    String.toList_ofList
  have hroot : ∀ after, ws.flatMap Spelling.text ≠ '$' :: after := not_dollar (flatMap_opens ws)
  rw [parse_of_body hbody fun _ => hroot, parseBody, readSegments_text h]
  simp only [Except.mapError, bind, Except.bind]
  cases route? (spelled inContext ws) (ws.map Spelling.segment) <;> rfl

/-- Segments are read back as they are written, whatever their order, and they are the segments of
the path if there is a route for them. -/
theorem segments_read_back (h : ∀ w ∈ ws, w.Fits) :
    readSegments (ws.flatMap Spelling.text) = .ok (ws.map Spelling.segment) ∧
      ∀ inContext, parse (spelled inContext ws) =
        (route? (spelled inContext ws) (ws.map Spelling.segment)).map fun route =>
          { text := spelled inContext ws, inContext, segments := ws.map Spelling.segment, route } :=
  ⟨readSegments_text h, parse_spelled h⟩

/-- Names that end in a quote or hold a bracket, the largest bounds, and a condition that ends in a
parenthesis. -/
def crowded : List Spelling :=
  [.dotted "a]", .quoted "]'", .position (-9223372036854775808), .items, .values,
    .bounds none (some 9223372036854775807) (some none), .bounds (some (-1)) none none,
    .condition "@.n == f(1)"]

theorem crowded_read_back : (∀ w ∈ crowded, w.Fits) ∧
    spelled false crowded = "$.a][']''][-9223372036854775808][*].*[:9223372036854775807:][-1:]" ++
      "[?(@.n == f(1))]" ∧
    readSegments (crowded.flatMap Spelling.text) =
      .ok [.select (.key (.field "a]")), .select (.key (.field "]'")),
        .select (.key (.index (-9223372036854775808))), .select .items, .select .values,
        .select (.slice none (some 9223372036854775807) none),
        .select (.slice (some (-1)) none none), .filter "@.n == f(1)"] := by
  have hfits : ∀ w ∈ crowded, w.Fits := by decide +kernel
  exact ⟨hfits, by decide +kernel, (segments_read_back hfits).1⟩

end

end Path

end StatesLanguage
