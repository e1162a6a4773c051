import StatesLanguage.Intrinsic.Call
import StatesLanguage.Proofs.Spellings

/-! How calls of intrinsic functions are written. A call is read back from its text, however deep it
is nested and whatever marks its strings and names hold. -/
namespace StatesLanguage

namespace Path

section

variable {k : Key} {keys : List Key}

/-- A name in brackets and quotes, or a position in brackets. -/
def Key.spelling : Key → Spelling
  | .field name => .quoted name
  | .index i => .position i

/-- A name without quotes, or a signed position. -/
def Key.Plain : Key → Prop
  | .field name => '\'' ∉ name.toList
  | .index i => Signed i

instance : DecidablePred Key.Plain
  | .field name => inferInstanceAs (Decidable ('\'' ∉ name.toList))
  | .index i => inferInstanceAs (Decidable (Signed i))

/-- The path of keys that are all written in brackets. -/
def ofKeys (inContext : Bool) (keys : List Key) : Path where
  text := spelled inContext (keys.map Key.spelling)
  inContext
  segments := keys.map fun k => .select (.key k)
  route := .reference keys

theorem Key.Plain.fits (h : k.Plain) : k.spelling.Fits := by
  cases k with
  | field name => exact fun hpair => h (hpair.subset List.mem_cons_self)
  | index i => exact h

theorem parse_ofKeys (h : ∀ k ∈ keys, k.Plain) (inContext : Bool) :
    parse (ofKeys inContext keys).text = .ok (ofKeys inContext keys) := by
  have hfits : ∀ w ∈ keys.map Key.spelling, w.Fits := by
    intro w hw
    obtain ⟨k, hk, rfl⟩ := List.mem_map.mp hw
    exact (h k hk).fits
  have hsegments : (keys.map Key.spelling).map Spelling.segment =
      keys.map fun k => .select (.key k) := by
    rw [List.map_map]
    refine List.map_congr_left fun k _ => ?_
    cases k <;> rfl
  rw [ofKeys, parse_spelled hfits, hsegments, route?, keys?_map]
  rfl

theorem ofKeys_text (inContext : Bool) (keys : List Key) : (ofKeys inContext keys).text.toList =
    dollars inContext ++ (keys.map fun k => k.spelling.text).flatten := by
  rw [ofKeys, spelled, String.toList_ofList, List.flatMap_map]
  rfl

theorem ofKeys_dollar (inContext : Bool) (keys : List Key) :
    ∃ rest, (ofKeys inContext keys).text.toList = '$' :: rest := by
  rw [ofKeys_text]
  cases inContext <;> exact ⟨_, rfl⟩

/-- A path ends in a dollar sign or a bracket. -/
theorem ofKeys_last (inContext : Bool) (keys : List Key) :
    ∀ c ∈ (ofKeys inContext keys).text.toList.getLast?, isBlank c = false := by
  have hbracket (k : Key) : ∃ inner, k.spelling.text = inner ++ [']'] := by
    cases k with
    | field name =>
      exact ⟨'[' :: '\'' :: (name.toList ++ ['\'']), by simp [Key.spelling, Spelling.text]⟩
    | index i => exact ⟨'[' :: (toString i).toList, rfl⟩
  intro c hc
  rw [ofKeys_text] at hc
  rcases List.eq_nil_or_concat (l := keys) with rfl | ⟨before, k, rfl⟩
  · cases inContext <;> cases hc <;> decide
  · obtain ⟨inner, hinner⟩ := hbracket k
    simp only [List.concat_eq_append, List.map_append, List.flatten_append, List.map_cons,
      List.map_nil, List.flatten_singleton, hinner, ← List.append_assoc,
      List.getLast?_concat] at hc
    cases hc
    decide

end

end Path

namespace Intrinsic

open StatesLanguage.Path (trimStart_cons trim_of_ends)

section

variable {q q' : Option Char} {depth depth' : Int} {c : Char} {cs ds S : List Char}

/-- What quotes and how much encloses the text behind a character, from what does before it. A
character that ends an argument has no answer. -/
def enclosed? : Option Char × Int → Char → Option (Option Char × Int)
  | (some q, depth), c => some (if c = q then none else some q, depth)
  | (none, depth), c =>
    if c = '\'' ∨ c = '"' then some (some c, depth)
    else if c = '[' ∨ c = '(' then some (none, depth + 1)
    else if c = ']' then some (none, depth - 1)
    else if c = ')' ∧ 0 < depth then some (none, depth - 1)
    else if (c = ')' ∨ c = ',') ∧ depth = 0 then none
    else some (none, depth)

theorem readToken_cons (h : enclosed? (q, depth) c = some (q', depth')) (cs : List Char) :
    readToken q depth (c :: cs) =
      (c :: (readToken q' depth' cs).1, (readToken q' depth' cs).2) := by
  rw [readToken.eq_def]
  cases q with
  | some quote =>
    cases h
    simp only []
    split <;> rfl
  | none =>
    rw [enclosed?] at h
    simp only []
    split_ifs at h ⊢ <;> cases h <;> rfl

theorem readToken_append (h : cs.foldlM enclosed? (q, depth) = some (q', depth')) (S : List Char) :
    readToken q depth (cs ++ S) =
      (cs ++ (readToken q' depth' S).1, (readToken q' depth' S).2) := by
  induction cs generalizing q depth with
  | nil =>
    cases h
    rfl
  | cons c cs ih =>
    obtain ⟨⟨q₁, depth₁⟩, hc, hrest⟩ := Option.bind_eq_some_iff.mp h
    rw [List.cons_append, readToken_cons hc, ih hrest]
    rfl

/-- A text that closes all that it opens and holds no end of an argument. -/
def Closed (cs : List Char) : Prop := cs.foldlM enclosed? (none, 0) = some (none, 0)

theorem Closed.append (h : Closed cs) (h' : Closed ds) : Closed (cs ++ ds) := by
  rw [Closed, List.foldlM_append, h]
  exact h'

theorem Closed.flatten {parts : List (List Char)} (h : ∀ part ∈ parts, Closed part) :
    Closed parts.flatten := by
  induction parts with
  | nil => rfl
  | cons part parts ih =>
    obtain ⟨hpart, hrest⟩ := List.forall_mem_cons.mp h
    exact hpart.append (ih hrest)

/-- The characters that quote, enclose and end arguments. -/
def marks : List Char := ['\'', '"', '[', ']', '(', ')', ',']

theorem enclosed?_of_not_mem (h : c ∉ marks) (depth : Int) :
    enclosed? (none, depth) c = some (none, depth) := by
  simp only [marks, List.mem_cons, List.not_mem_nil, or_false, not_or] at h
  simp [enclosed?, h]

theorem foldlM_plain (h : ∀ c ∈ cs, c ∉ marks) (depth : Int) :
    cs.foldlM enclosed? (none, depth) = some (none, depth) := by
  induction cs with
  | nil => rfl
  | cons c cs ih =>
    obtain ⟨hc, hrest⟩ := List.forall_mem_cons.mp h
    rw [List.foldlM_cons, enclosed?_of_not_mem hc]
    exact ih hrest

theorem foldlM_quoted {quote : Char} (h : quote ∉ cs) (depth : Int) :
    cs.foldlM enclosed? (some quote, depth) = some (some quote, depth) := by
  induction cs with
  | nil => rfl
  | cons c cs ih =>
    rw [List.mem_cons, not_or] at h
    have hc : enclosed? (some quote, depth) c = some (some quote, depth) := by
      rw [enclosed?, if_neg (Ne.symm h.1)]
    rw [List.foldlM_cons, hc]
    exact ih h.2

/-- The characters that are neither marks nor blanks. -/
def isPlainChar (c : Char) : Bool := !marks.contains c && !isBlank c

theorem plain_unmarked (h : isPlainChar c = true) : c ∉ marks := by
  simpa using (Bool.and_eq_true_iff.mp h).1

theorem plain_not_blank (h : isPlainChar c = true) : isBlank c = false := by
  simpa using (Bool.and_eq_true_iff.mp h).2

/-- Numerals have neither marks nor blanks in them. -/
theorem plain_of_numeral {i : Int} (h : c ∈ (toString i).toList) : isPlainChar c = true := by
  have hmarks : marks.all (fun d => !Path.isNumeralChar d) = true := by decide
  have hnumeral : Path.isNumeralChar c = true := Path.numeralChar_of_mem h
  have hfree : c ∉ marks := fun hmem => by
    simpa [hnumeral] using List.all_eq_true.mp hmarks c hmem
  simp [isPlainChar, hfree, Path.numeralChar_not_blank hnumeral]

/-- What is written for a key closes its brackets and quotes. -/
theorem Closed.key {k : Path.Key} (h : k.Plain) : Closed k.spelling.text := by
  cases k with
  | field name =>
    have hname := foldlM_quoted h 1
    have hscan : (name.toList ++ ['\'', ']']).foldlM enclosed? (some '\'', 1) = some (none, 0) := by
      rw [List.foldlM_append, hname]
      rfl
    exact hscan
  | index i =>
    have hscan : ((toString i).toList ++ [']']).foldlM enclosed? (none, 1) = some (none, 0) := by
      rw [List.foldlM_append, foldlM_plain fun c hc => plain_unmarked (plain_of_numeral hc)]
      rfl
    exact hscan

/-- A text that an argument ends before. -/
def Ends (S : List Char) : Prop := ∃ rest, S = ',' :: rest ∨ S = ')' :: rest

theorem readToken_closed (h : Closed cs) (hS : Ends S) : readToken none 0 (cs ++ S) = (cs, S) := by
  have hend : readToken none 0 S = ([], S) := by
    obtain ⟨rest, rfl | rfl⟩ := hS <;> simp [readToken]
  rw [readToken_append h, hend, List.append_nil]

/-- A string with a backslash before each quote and each backslash. -/
def escaped (s : List Char) : List Char :=
  s.flatMap fun c => if c = '\'' ∨ c = '\\' then ['\\', c] else [c]

theorem readString_escaped (s rest : List Char) :
    readString (escaped s ++ '\'' :: rest) = some (s, rest) := by
  induction s with
  | nil => rfl
  | cons c s ih =>
    rw [escaped, List.flatMap_cons, ← escaped, List.append_assoc]
    split
    · simp only [List.cons_append, List.nil_append, readString, ih, Option.map_some]
    · rename_i hc
      rw [not_or] at hc
      rw [List.singleton_append, readString, ih]
      · rfl
      · rintro d rest' rfl
        exact (hc.2 rfl).elim
      · rintro rfl
        exact (hc.2 rfl).elim
      · rintro rfl
        exact hc.1 rfl

end

/-- The text of a call around that of its arguments. -/
def callText (f : Function) (row : List Char) : List Char :=
  opening ++ (f.name.toList ++ '(' :: (row ++ [')']))

mutual

/-- A string in single quotes, a path as it is written, and any other value as in documents. -/
def Argument.text : Argument → List Char
  | .literal (.str s) => '\'' :: (escaped s.toList ++ ['\''])
  | .literal v => v.text.toList
  | .path p => p.text.toList
  | .call f arguments => callText f ([',', ' '].intercalate (Argument.texts arguments))

def Argument.texts : List Argument → List (List Char)
  | [] => []
  | a :: rest => Argument.text a :: Argument.texts rest

end

/-- The texts of arguments, with a comma and a blank between them. -/
def rowText (arguments : List Argument) : List Char :=
  [',', ' '].intercalate (Argument.texts arguments)

def Call.text (c : Call) : String := String.ofList (callText c.function (rowText c.arguments))

/-- An argument that is written without loss: a string, an integer that a document can hold, a
boolean, null, a path whose keys are in brackets, or a call with as many arguments as it takes. -/
inductive Argument.Plain : Argument → Prop where
  | str {s : String} : Plain (.literal (.str s))
  | int {n : Int} : Value.minInt ≤ n → n ≤ Value.maxInt → Plain (.literal (.int n))
  | bool {b : Bool} : Plain (.literal (.bool b))
  | null : Plain (.literal .null)
  | path {inContext : Bool} {keys : List Path.Key} : (∀ k ∈ keys, k.Plain) →
    Plain (.path (Path.ofKeys inContext keys))
  | call {f : Function} {arguments : List Argument} : f.takes arguments.length = true →
    (∀ a ∈ arguments, a.Plain) → Plain (.call f arguments)

/-- A call of plain arguments, as many as its function takes. -/
structure Call.Plain (c : Call) : Prop where
  arity : c.function.takes c.arguments.length = true
  arguments : ∀ a ∈ c.arguments, a.Plain

/-- An argument whose text closes all that it opens and is read back where it stands alone. -/
structure Argument.Token (a : Argument) : Prop where
  closed : Closed a.text
  first : ∃ c rest, a.text = c :: rest ∧ isBlank c = false ∧ c ∉ ['\'', 'S', ')']
  last : ∀ c ∈ a.text.getLast?, isBlank c = false
  read : tokenArgument a.text = .ok a

/-- An argument that is read back from its text. -/
structure Argument.Reads (a : Argument) : Prop where
  first : ∃ c rest, a.text = c :: rest ∧ isBlank c = false ∧ c ≠ ')'
  back : ∀ {text : String} {fuel : Nat} {S : List Char}, a.text.length ≤ fuel → Ends S →
    readArgument text fuel (a.text ++ S) = .ok (a, S)

section

variable {text : String} {fuel : Nat} {cs S : List Char} {f : Function} {a : Argument}
  {arguments : List Argument} {v : Value} {c : Call}

theorem expect_cons {c : Char} (hc : isBlank c = false) (text : String) (cs : List Char) :
    expect text c (c :: cs) = .ok cs := by
  rw [expect, trimStart_cons hc]
  exact if_pos rfl

/-- A token is read up to the end of the argument. -/
theorem Argument.Token.reads (h : a.Token) : a.Reads := by
  obtain ⟨c, rest, htext, hblank, hmark⟩ := h.first
  simp only [List.mem_cons, List.not_mem_nil, or_false, not_or] at hmark
  obtain ⟨hquote, hopening, hparen⟩ := hmark
  refine ⟨⟨c, rest, htext, hblank, hparen⟩, fun {text fuel S} hfuel hS => ?_⟩
  obtain ⟨fuel, rfl⟩ : ∃ n, fuel = n + 1 := ⟨fuel - 1, by grind⟩
  have htrim : trim a.text = a.text := trim_of_ends (by grind) h.last
  have hopens : opening.isPrefixOf (a.text ++ S) = false := by
    rw [htext, List.cons_append, opening, List.isPrefixOf_cons_cons,
      beq_false_of_ne (Ne.symm hopening)]
    rfl
  rw [readArgument]
  · simp only [hopens, Bool.false_eq_true, if_false, readToken_closed h.closed hS, htrim, h.read]
    rfl
  · rintro rest' heq
    rw [htext] at heq
    exact hquote (List.cons.inj heq).1

/-- A value whose text has neither marks nor blanks in it. -/
theorem token_value {c : Char} {rest : List Char} (hv : ∀ s, v ≠ .str s)
    (htext : v.text.toList = c :: rest) (hc : c ≠ 'S' ∧ c ≠ '$')
    (h : v.text.toList.all isPlainChar = true)
    (hread : Value.parse? v.text.toList = some v) : (Argument.literal v).Token := by
  have hliteral : (Argument.literal v).text = v.text.toList := by
    rw [Argument.text]
    exact hv
  have hplain : ∀ d ∈ v.text.toList, isPlainChar d = true := List.all_eq_true.mp h
  have hfirst : isPlainChar c = true := hplain c (by rw [htext]; exact List.mem_cons_self)
  refine ⟨?_, ?_, ?_, ?_⟩ <;> rw [hliteral]
  · exact foldlM_plain (fun d hd => plain_unmarked (hplain d hd)) 0
  · have hmark := plain_unmarked hfirst
    refine ⟨c, rest, htext, plain_not_blank hfirst, ?_⟩
    simp only [marks, List.mem_cons, List.not_mem_nil, or_false, not_or] at hmark ⊢
    exact ⟨hmark.1, hc.1, hmark.2.2.2.2.2.1⟩
  · exact fun d hd => plain_not_blank (hplain d (List.mem_of_mem_getLast? hd))
  · rw [tokenArgument]
    · rw [hread]
    · rintro rest' heq
      exact hc.2 (List.cons.inj (htext.symm.trans heq)).1

theorem token_null : (Argument.literal .null).Token :=
  token_value (by rintro s ⟨⟩) rfl (by decide) (by decide) (by cbv)

theorem token_bool (b : Bool) : (Argument.literal (.bool b)).Token := by
  cases b
  · exact token_value (by rintro s ⟨⟩) rfl (by decide) (by decide) (by cbv)
  · exact token_value (by rintro s ⟨⟩) rfl (by decide) (by decide) (by cbv)

theorem token_int {n : Int} (hmin : Value.minInt ≤ n) (hmax : n ≤ Value.maxInt) :
    (Argument.literal (.int n)).Token := by
  obtain ⟨c, rest, htext⟩ := List.exists_cons_of_ne_nil (toList_toString_ne_nil n)
  have hdigit := isDigit_of_mem_toString (htext ▸ List.mem_cons_self)
  have hplain : (Value.int n).text.toList.all isPlainChar = true :=
    List.all_eq_true.mpr fun c hc => plain_of_numeral hc
  refine token_value (by rintro s ⟨⟩) htext ?_ hplain (Value.parse?_int hmin hmax)
  constructor <;> rintro rfl <;> exact absurd hdigit (by decide)

theorem token_path {inContext : Bool} {keys : List Path.Key} (h : ∀ k ∈ keys, k.Plain) :
    (Argument.path (Path.ofKeys inContext keys)).Token := by
  obtain ⟨rest, htext⟩ := Path.ofKeys_dollar inContext keys
  refine ⟨?_, ?_, ?_, ?_⟩ <;> rw [Argument.text]
  · have hdollars : Closed (Path.dollars inContext) := by cases inContext <;> rfl
    rw [Path.ofKeys_text]
    refine hdollars.append (.flatten fun part hpart => ?_)
    obtain ⟨k, hk, rfl⟩ := List.mem_map.mp hpart
    exact .key (h k hk)
  · exact ⟨'$', rest, htext, by decide, by decide⟩
  · exact Path.ofKeys_last inContext keys
  · have hparse := Path.parse_ofKeys h inContext
    rw [← String.ofList_toList (s := (Path.ofKeys inContext keys).text), htext] at hparse
    rw [htext]
    simp only [tokenArgument, hparse]
    rfl

theorem reads_string (s : String) : (Argument.literal (.str s)).Reads := by
  refine ⟨⟨'\'', escaped s.toList ++ ['\''], ?_, by decide, by decide⟩, ?_⟩
  · rw [Argument.text]
  · intro text fuel S hfuel _
    rw [Argument.text] at hfuel ⊢
    obtain ⟨fuel, rfl⟩ : ∃ n, fuel = n + 1 := ⟨fuel - 1, by grind⟩
    rw [List.cons_append, List.append_assoc, readArgument, List.singleton_append,
      readString_escaped]
    simp only [String.ofList_toList]
    rfl

theorem readArguments_last (h : readArgument text fuel (trimStart cs) = .ok (a, ')' :: S)) :
    readArguments text (fuel + 1) cs = .ok ([a], S) := by
  rw [readArguments, h]
  simp only [bind, Except.bind, trimStart_cons (c := ')') (by decide)]
  rfl

theorem readArguments_next {rest : List Char}
    (h : readArgument text fuel (trimStart cs) = .ok (a, ',' :: rest))
    (hrest : readArguments text fuel rest = .ok (arguments, S)) :
    readArguments text (fuel + 1) cs = .ok (a :: arguments, S) := by
  rw [readArguments, h]
  simp only [bind, Except.bind, trimStart_cons (c := ',') (by decide), hrest]
  rfl

theorem rowText_cons_cons (a b : Argument) (rest : List Argument) :
    rowText (a :: b :: rest) = a.text ++ ',' :: ' ' :: rowText (b :: rest) := by
  simp only [rowText, Argument.texts, List.intercalate_cons_cons, List.append_assoc,
    List.cons_append, List.nil_append]

/-- What a row of arguments starts with neither is a blank nor ends a call. -/
theorem Argument.Reads.row_first (h : a.Reads) (rest : List Argument) (S : List Char) :
    ∃ c more, rowText (a :: rest) ++ S = c :: more ∧ isBlank c = false ∧ c ≠ ')' := by
  obtain ⟨c, more, htext, hc⟩ := h.first
  cases rest with
  | nil =>
    rw [rowText, texts, texts, List.intercalate_singleton, htext]
    exact ⟨c, more ++ S, rfl, hc⟩
  | cons b rest =>
    rw [rowText_cons_cons, htext]
    exact ⟨c, _, rfl, hc⟩

theorem Argument.Reads.row_trim (h : a.Reads) (rest : List Argument) (S : List Char) :
    trimStart (rowText (a :: rest) ++ S) = rowText (a :: rest) ++ S := by
  obtain ⟨c, more, hrow, hblank, -⟩ := h.row_first rest S
  rw [hrow]
  exact trimStart_cons hblank more

/-- The arguments of a call are read up to its parenthesis, whatever blanks stand before them. -/
theorem readArguments_row (hne : arguments ≠ []) (h : ∀ a ∈ arguments, a.Reads)
    (hcs : trimStart cs = rowText arguments ++ ')' :: S)
    (hfuel : (rowText arguments).length < fuel) :
    readArguments text fuel cs = .ok (arguments, S) := by
  induction arguments generalizing cs fuel with
  | nil => exact (hne rfl).elim
  | cons a rest ih =>
    obtain ⟨ha, hrest⟩ := List.forall_mem_cons.mp h
    obtain ⟨fuel, rfl⟩ : ∃ n, fuel = n + 1 := ⟨fuel - 1, by omega⟩
    cases rest with
    | nil =>
      rw [rowText, Argument.texts, Argument.texts, List.intercalate_singleton] at hcs hfuel
      refine readArguments_last ?_
      rw [hcs, ha.back (by omega) ⟨S, .inr rfl⟩]
    | cons b rest =>
      rw [rowText_cons_cons] at hcs hfuel
      simp only [List.length_append, List.length_cons] at hfuel
      -- the blank behind the comma is left to the next argument
      have htail : trimStart (' ' :: (rowText (b :: rest) ++ ')' :: S)) =
          rowText (b :: rest) ++ ')' :: S := by
        rw [trimStart, List.dropWhile_cons_of_pos (by decide)]
        exact (hrest b List.mem_cons_self).row_trim rest (')' :: S)
      have hread : readArgument text fuel (trimStart cs) =
          .ok (a, ',' :: ' ' :: (rowText (b :: rest) ++ ')' :: S)) := by
        rw [hcs, List.append_assoc]
        exact ha.back (by omega) ⟨_, .inl rfl⟩
      exact readArguments_next hread (ih (List.cons_ne_nil _ _) hrest htail (by omega))

theorem Function.ofName?_name (f : Function) : ofName? f.name = some f := by
  cases f <;> rfl

/-- The name of a function ends where its parenthesis opens. -/
theorem Function.name_span (f : Function) (cs : List Char) :
    (f.name.toList ++ '(' :: cs).takeWhile Char.isAlphanum = f.name.toList ∧
      (f.name.toList ++ '(' :: cs).dropWhile Char.isAlphanum = '(' :: cs := by
  have hall : f.name.toList.all Char.isAlphanum = true := by cases f <;> decide
  have hname : ∀ c ∈ f.name.toList, c.isAlphanum = true := List.all_eq_true.mp hall
  rw [List.takeWhile_append_of_pos hname, List.dropWhile_append_of_pos hname]
  simp

theorem length_callText (f : Function) (row : List Char) :
    (callText f row).length = f.name.toList.length + row.length + 9 := by
  simp only [callText, opening, List.length_append, List.length_cons, List.length_nil]
  omega

theorem isPrefixOf_opening (cs : List Char) : opening.isPrefixOf (opening ++ cs) = true :=
  List.isPrefixOf_iff_prefix.mpr (List.prefix_append _ _)

/-- A call is read where its text begins. -/
theorem readCall_text (hf : f.takes arguments.length = true) (h : ∀ a ∈ arguments, a.Reads)
    (hfuel : (rowText arguments).length + 2 ≤ fuel) :
    readCall text fuel (callText f (rowText arguments) ++ S) = .ok (⟨f, arguments⟩, S) := by
  have hassoc : callText f (rowText arguments) ++ S =
      opening ++ (f.name.toList ++ '(' :: (rowText arguments ++ ')' :: S)) := by
    simp [callText]
  obtain ⟨fuel, rfl⟩ : ∃ n, fuel = n + 1 := ⟨fuel - 1, by omega⟩
  have hstart (cs : List Char) : trimStart (opening ++ cs) = opening ++ cs :=
    trimStart_cons (by decide) _
  rw [hassoc, readCall]
  simp only [hstart, isPrefixOf_opening, Bool.not_true, Bool.false_eq_true, if_false, List.drop_left,
    (f.name_span _).1, (f.name_span _).2, String.ofList_toList, Function.ofName?_name,
    expect_cons (c := '(') (by decide), bind, Except.bind]
  cases arguments with
  | nil => exact if_pos hf
  | cons a rest =>
    have ha := h a List.mem_cons_self
    have htrim := ha.row_trim rest (')' :: S)
    obtain ⟨c, more, hrow, -, hparen⟩ := ha.row_first rest (')' :: S)
    have hread : readArguments text fuel (rowText (a :: rest) ++ ')' :: S) = .ok (a :: rest, S) :=
      readArguments_row (List.cons_ne_nil _ _) h htrim (by omega)
    rw [htrim]
    split
    · rename_i rest' heq
      exact (hparen (List.cons.inj (hrow.symm.trans heq)).1).elim
    · rw [hread]
      exact if_pos hf

theorem reads_call (hf : f.takes arguments.length = true) (h : ∀ a ∈ arguments, a.Reads) :
    (Argument.call f arguments).Reads := by
  have htext : (Argument.call f arguments).text = callText f (rowText arguments) := by
    rw [Argument.text, rowText]
  refine ⟨⟨'S', _, htext, by decide, by decide⟩, fun {text fuel S} hfuel _ => ?_⟩
  rw [htext, length_callText] at hfuel
  rw [htext]
  obtain ⟨fuel, rfl⟩ : ∃ n, fuel = n + 1 := ⟨fuel - 1, by omega⟩
  have hopens : opening.isPrefixOf (callText f (rowText arguments) ++ S) = true := by
    rw [callText, List.append_assoc, isPrefixOf_opening]
  rw [readArgument]
  · simp only [hopens, if_true, readCall_text hf h (by omega : _ ≤ fuel)]
    rfl
  · rintro rest heq
    cases heq

/-- Whatever is plain is read back, by induction on how deep its calls are nested. -/
theorem Argument.Plain.reads (h : a.Plain) : a.Reads := by
  induction h with
  | str => exact reads_string _
  | int hmin hmax => exact (token_int hmin hmax).reads
  | bool => exact (token_bool _).reads
  | null => exact token_null.reads
  | path hkeys => exact (token_path hkeys).reads
  | call hf _ ih => exact reads_call hf ih

/-- A call of plain arguments is read back from its text, with all the calls in it. -/
theorem call_read_back (h : c.Plain) : Call.parse c.text = .ok c := by
  have hlist : c.text.toList = callText c.function (rowText c.arguments) := String.toList_ofList
  have hlength : c.text.length =
      c.function.name.toList.length + (rowText c.arguments).length + 9 := by
    rw [← String.length_toList, hlist, length_callText]
  have hread : readCall c.text (3 * c.text.length + 3)
      (callText c.function (rowText c.arguments) ++ []) = .ok (c, []) :=
    readCall_text h.arity (fun a ha => (h.arguments a ha).reads) (by omega)
  rw [List.append_nil, ← hlist] at hread
  rw [Call.parse, hread]
  rfl

/-- A call with marks in a string and in a name, the least and the largest integer, and a call
without arguments in a call. -/
def greeting : Call where
  function := .format
  arguments :=
    [.literal (.str "It's (\\, "),
      .path (Path.ofKeys false [.field "a, b)\"", .index (-1)]),
      .call .array [.call .uuid [], .literal .null, .literal (.bool true),
        .path (Path.ofKeys true []), .literal (.int (-9223372036854775808)),
        .literal (.int 18446744073709551615)]]

theorem greeting_read_back : greeting.Plain ∧
    greeting.text = "States.Format('It\\'s (\\\\, ', $['a, b)\"'][-1], " ++
      "States.Array(States.UUID(), null, true, $$, -9223372036854775808, 18446744073709551615))" ∧
    Call.parse greeting.text = .ok greeting := by
  have hplain : greeting.Plain := by
    refine ⟨rfl, List.forall_mem_cons.mpr ⟨.str, List.forall_mem_cons.mpr ⟨.path ?_,
      List.forall_mem_singleton.mpr (.call rfl ?_)⟩⟩⟩
    · decide
    · refine List.forall_mem_cons.mpr ⟨.call rfl (by simp), ?_⟩
      refine List.forall_mem_cons.mpr ⟨.null, List.forall_mem_cons.mpr ⟨.bool, ?_⟩⟩
      refine List.forall_mem_cons.mpr ⟨.path (by simp), List.forall_mem_cons.mpr ⟨?_, ?_⟩⟩
      · exact .int (by decide) (by decide)
      · exact List.forall_mem_singleton.mpr (.int (by decide) (by decide))
  exact ⟨hplain, by decide +kernel, call_read_back hplain⟩

end

end Intrinsic

end StatesLanguage
