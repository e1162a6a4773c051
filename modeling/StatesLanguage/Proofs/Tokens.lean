import StatesLanguage.Jmespath.Reader
import StatesLanguage.Json.Writer
import StatesLanguage.Proofs.Numerals
import StatesLanguage.Proofs.Outcomes

/-! How expressions are read. Strings are read back from their quotes, and names, literals and positions
are the tokens that they were written for, whatever stands behind them. -/
namespace StatesLanguage

/-- A character inside quotes has an escape of one letter or of four digits, or stands for itself. -/
theorem escapedChar_cases (c : Char) :
    (∃ e, escapedChar c = ['\\', e] ∧ e ≠ 'u' ∧ Source.escape? e = some c) ∨
    (c.toNat < 32 ∧ escapedChar c =
      ['\\', 'u', '0', '0', hexDigit (c.toNat / 16), hexDigit (c.toNat % 16)]) ∨
    (c ≠ '"' ∧ c ≠ '\\' ∧ ¬ c.toNat < 32 ∧ escapedChar c = [c]) := by
  by_cases hletter : c ∈ ['"', '\\', '\n', '\r', '\t', '\x08', '\x0c']
  · refine .inl ?_
    simp only [List.mem_cons, List.not_mem_nil, or_false] at hletter
    rcases hletter with rfl | rfl | rfl | rfl | rfl | rfl | rfl <;>
      exact ⟨_, rfl, by decide, rfl⟩
  · simp only [List.mem_cons, List.not_mem_nil, or_false, not_or] at hletter
    obtain ⟨hquote, hbackslash, hn, hr, ht, hb, hf⟩ := hletter
    simp only [escapedChar, hquote, hbackslash, hn, hr, ht, hb, hf, if_false]
    split
    · exact .inr (.inl ⟨‹_›, rfl⟩)
    · exact .inr (.inr ⟨hquote, hbackslash, ‹_›, rfl⟩)

namespace Source

theorem readString_escapedChar (done : List Char) (c : Char) (cs : List Char) :
    readString done (escapedChar c ++ cs) = readString (c :: done) cs := by
  obtain ⟨e, heq, hu, hescape⟩ | ⟨hcontrol, heq⟩ | ⟨hquote, hbackslash, hcontrol, heq⟩ :=
    escapedChar_cases c
  · rw [heq, List.cons_append, List.singleton_append, readString, hescape]
    rintro _ _ _ _ _ rfl
    exact (hu rfl).elim
  · have hquad : ∀ n < 32, hexQuad? '0' '0' (hexDigit (n / 16)) (hexDigit (n % 16)) = some n := by
      decide
    have hsmall : c.toNat < 0xd800 := by omega
    simp only [heq, List.cons_append, List.nil_append, readString, hquad _ hcontrol, hsmall,
      decide_true, Bool.true_or, if_true, Char.ofNat_toNat]
  · rw [heq, List.singleton_append, readString, if_neg hcontrol]
    · exact hquote
    · rintro _ _ _ _ _ rfl
      exact (hbackslash rfl).elim
    · rintro _ _ rfl
      exact (hbackslash rfl).elim

/-- A string is read back from its quotes. -/
theorem readString_escaped (done cs rest : List Char) :
    readString done (cs.flatMap escapedChar ++ '"' :: rest) =
      some (String.ofList (done.reverse ++ cs), rest) := by
  induction cs generalizing done with
  | nil => rw [List.append_nil]; rfl
  | cons c cs ih =>
    rw [List.flatMap_cons, List.append_assoc, readString_escapedChar, ih, List.reverse_cons,
      List.append_assoc, List.singleton_append]

end Source

theorem toList_quoted (s : String) :
    (quoted s).toList = '"' :: s.toList.flatMap escapedChar ++ ['"'] := by
  simp [quoted]

theorem Value.parse?_quoted (s : String) : Value.parse? (quoted s).toList = some (.str s) := by
  have hread : Source.readString [] (s.toList.flatMap escapedChar ++ ['"']) = some (s, []) := by
    rw [Source.readString_escaped, List.reverse_nil, List.nil_append, String.ofList_toList]
  have hspace : Source.skipSpace ('"' :: (s.toList.flatMap escapedChar ++ ['"'])) =
      '"' :: (s.toList.flatMap escapedChar ++ ['"']) := rfl
  simp only [Value.parse?, Source.ofText, toList_quoted, List.cons_append, Source.readValue, hspace,
    hread]
  rfl

namespace Jmespath

section

variable {quote c : Char} {cs ds rest : List Char}

/-- A text in which no quote closes: what goes on behind it to a quote is the same without it. -/
def Sealed (quote : Char) (cs : List Char) : Prop :=
  ∀ rest, closing? quote (cs ++ rest) =
    (closing? quote rest).map fun (inner, rest) => (cs ++ inner, rest)

theorem Sealed.nil : Sealed quote [] := fun rest => by simp

theorem Sealed.append (h : Sealed quote cs) (h' : Sealed quote ds) : Sealed quote (cs ++ ds) := by
  intro rest
  rw [List.append_assoc, h, h', Option.map_map]
  simp only [Function.comp_def, List.append_assoc]

/-- A quote behind a sealed text is the one that closes it. -/
theorem Sealed.closed (h : Sealed quote cs) (hquote : quote ≠ '\\') (rest : List Char) :
    closing? quote (cs ++ quote :: rest) = some (cs, rest) := by
  have hclosing : closing? quote (quote :: rest) = some ([], rest) := by
    rw [closing?, if_pos rfl]
    rintro _ _ rfl
    exact (hquote rfl).elim
  rw [h, hclosing]
  simp

theorem Sealed.plain (hquote : c ≠ quote) (hbackslash : c ≠ '\\') : Sealed quote [c] := by
  intro rest
  rw [List.singleton_append, closing?, if_neg hquote]
  · rfl
  · rintro _ _ rfl
    exact (hbackslash rfl).elim

theorem Sealed.pair (quote c : Char) : Sealed quote ['\\', c] := fun _ => rfl

theorem Sealed.of_forall (h : ∀ c ∈ cs, c ≠ quote ∧ c ≠ '\\') : Sealed quote cs := by
  induction cs with
  | nil => exact .nil
  | cons c cs ih =>
    obtain ⟨hc, hrest⟩ := List.forall_mem_cons.mp h
    exact (Sealed.plain hc.1 hc.2).append (ih hrest)

theorem sealed_escapedChar (h : quote = '"' ∨ quote = backtick ∧ c ≠ backtick) :
    Sealed quote (escapedChar c) := by
  have hdigit : ∀ n < 16, hexDigit n ≠ quote ∧ hexDigit n ≠ '\\' := by
    rcases h with rfl | ⟨rfl, -⟩ <;> decide
  have hzero : '0' ≠ quote ∧ '0' ≠ '\\' := by
    rcases h with rfl | ⟨rfl, -⟩ <;> decide
  obtain ⟨e, heq, -⟩ | ⟨hcontrol, heq⟩ | ⟨hquote, hbackslash, -, heq⟩ := escapedChar_cases c
  · rw [heq]
    exact .pair quote e
  · rw [heq]
    refine (Sealed.pair quote 'u').append (.of_forall ?_)
    simp only [List.forall_mem_cons, List.not_mem_nil, false_imp_iff, implies_true, and_true]
    exact ⟨hzero, hzero, hdigit _ (by omega), hdigit _ (by omega)⟩
  · rw [heq]
    refine .plain ?_ hbackslash
    rcases h with rfl | ⟨rfl, hc⟩
    · exact hquote
    · exact hc

theorem sealed_escaped (h : quote = '"' ∨ quote = backtick ∧ backtick ∉ cs) :
    Sealed quote (cs.flatMap escapedChar) := by
  induction cs with
  | nil => exact .nil
  | cons c cs ih =>
    rw [List.mem_cons, not_or] at h
    rw [List.flatMap_cons]
    refine (sealed_escapedChar ?_).append (ih ?_)
    · exact h.imp_right fun h => ⟨h.1, Ne.symm h.2.1⟩
    · exact h.imp_right fun h => ⟨h.1, h.2.2⟩

/-- Nothing is taken from a text without backticks. -/
theorem unescaped_eq (h : backtick ∉ cs) : unescaped cs = cs := by
  induction cs using unescaped.induct with
  | case1 => rfl
  | case2 cs ih => simp at h
  | case3 c cs hc ih =>
    rw [unescaped, if_neg hc, ih (by simp_all)]
  | case4 c cs hpair ih =>
    rw [unescaped, ih (by simp_all)]
    exact hpair

end

section

variable {d : Dialect} {c : Char} {cs cs' rest : List Char} {t : Token} {ts ts' : List Token}
  {v : Value} {i : Int}

/-- A quoted name is read to its last quote. -/
theorem readToken_name (d : Dialect) (name : String) (rest : List Char) :
    readToken d ((quoted name).toList ++ rest) = .ok (.name name, rest) := by
  have hsealed : Sealed '"' (name.toList.flatMap escapedChar) := sealed_escaped (.inl rfl)
  have hclosing := hsealed.closed (by decide) rest
  have hparse := Value.parse?_quoted name
  rw [toList_quoted] at hparse ⊢
  rw [List.cons_append, List.cons_append, List.append_assoc, List.singleton_append]
  simp only [readToken, readName, hclosing, hparse]

/-- A literal without backticks is read to the second one. -/
theorem readToken_literal (d : Dialect) (hsealed : Sealed backtick cs) (hcs : backtick ∉ cs)
    (hv : Value.parse? cs = some v) (rest : List Char) :
    readToken d (backtick :: (cs ++ backtick :: rest)) = .ok (.literal v, rest) := by
  have hclosing := hsealed.closed (by decide) rest
  have hstart : readToken d (backtick :: (cs ++ backtick :: rest)) =
      readLiteral (cs ++ backtick :: rest) := rfl
  simp only [hstart, readLiteral, hclosing, unescaped_eq hcs, hv]

theorem readNumber_toString (d : Dialect) (i : Int) :
    readNumber d (toString i).toList = if d.reads i then .ok i else .error (.number i) := by
  cases i with
  | ofNat n =>
    have hsign (rest : List Char) : Nat.toDigits 10 n ≠ '-' :: rest := by
      intro heq
      have hdigit : '-'.isDigit = true := isDigit_of_mem_digits (heq ▸ List.mem_cons_self)
      exact absurd hdigit (by decide)
    rw [toList_toString_ofNat, readNumber, digits_pass]
    · simp only [Bool.false_eq_true, if_false, Source.digitsValue, digits_value]
    · exact hsign
  | negSucc n =>
    rw [toList_toString_negSucc, readNumber, digits_pass]
    simp only [Bool.false_eq_true, if_false, if_true, Source.digitsValue, digits_value]
    rfl

theorem readBracket_toString (d : Dialect) (i : Int) : readBracket d (toString i).toList =
    if d.reads i then .ok (.index i) else .error (.number i) := by
  have hstar : (toString i).toList ≠ ['*'] := fun heq =>
    not_mem_toString (c := '*') (by decide) (by decide) (heq ▸ List.mem_cons_self)
  have hcolon : ':' ∉ (toString i).toList := not_mem_toString (by decide) (by decide)
  rw [readBracket, if_neg hstar, List.splitOn_eq_singleton hcolon]
  simp only [readNumber_toString]
  split <;> rfl

/-- A position is read to its bracket, if the implementation reads it. -/
theorem readToken_position (d : Dialect) (i : Int) (rest : List Char) :
    readToken d ('[' :: ((toString i).toList ++ ']' :: rest)) =
      if d.reads i then .ok (.bracket (.index i), rest) else .error (.number i) := by
  have hinside : ∀ c ∈ (toString i).toList, decide (c ≠ ']') = true := by
    intro c hc
    rw [decide_eq_true_eq]
    rintro rfl
    exact not_mem_toString (by decide) (by decide) hc
  have hfilter (after : List Char) : (toString i).toList ++ ']' :: rest ≠ '?' :: after := by
    intro heq
    obtain ⟨c, cs, hcs⟩ := List.exists_cons_of_ne_nil (toList_toString_ne_nil i)
    rw [hcs, List.cons_append] at heq
    have hmem : c ∈ (toString i).toList := hcs ▸ List.mem_cons_self
    exact not_mem_toString (by decide) (by decide) ((List.cons.inj heq).1 ▸ hmem)
  have hdrop : ((toString i).toList ++ ']' :: rest).dropWhile (· ≠ ']') = ']' :: rest := by
    rw [List.dropWhile_append_of_pos hinside]
    rfl
  have htake : ((toString i).toList ++ ']' :: rest).takeWhile (· ≠ ']') = (toString i).toList := by
    rw [List.takeWhile_append_of_pos hinside, List.takeWhile_cons_of_neg (by decide),
      List.append_nil]
  rw [readToken]
  · rw [hdrop, htake, readBracket_toString]
    cases d.reads i <;> rfl
  · exact hfilter

theorem tokens_of_space (hc : Source.isSpace c = true) (cs : List Char) :
    tokens d (c :: cs) = tokens d cs := by
  rw [tokens, if_pos hc]

theorem tokens_of_read (hc : Source.isSpace c = false)
    (h : readToken d (c :: cs) = .ok (t, rest)) :
    tokens d (c :: cs) = (tokens d rest).map (t :: ·) := by
  rw [tokens, if_neg (by simp [hc])]
  split
  · rename_i hread
    cases h.symm.trans hread
  · rename_i hread
    cases h.symm.trans hread
    rfl

theorem tokens_of_refusal {e : Refusal} (hc : Source.isSpace c = false)
    (h : readToken d (c :: cs) = .error e) : tokens d (c :: cs) = .error e := by
  rw [tokens, if_neg (by simp [hc])]
  split
  · rename_i hread
    cases h.symm.trans hread
    rfl
  · rename_i hread
    cases h.symm.trans hread

/-- A text that is read as those tokens, whatever stands behind it. -/
def Reads (d : Dialect) (cs : List Char) (ts : List Token) : Prop :=
  ∀ rest, tokens d (cs ++ rest) = (tokens d rest).map (ts ++ ·)

theorem Reads.append (h : Reads d cs ts) (h' : Reads d cs' ts') : Reads d (cs ++ cs') (ts ++ ts') := by
  intro rest
  rw [List.append_assoc, h, h']
  cases tokens d rest <;> simp [Except.map]

/-- Texts with a mark between them are read one after the other. -/
theorem Reads.intercalate {α : Type} {text : α → List Char} {read : α → List Token} {xs : List α}
    (hmark : Reads d cs ts) (h : ∀ x ∈ xs, Reads d (text x) (read x)) :
    Reads d (cs.intercalate (xs.map text)) (ts.intercalate (xs.map read)) := by
  induction xs with
  | nil => exact fun rest => by cases hrest : tokens d rest <;> simp [hrest, Except.map]
  | cons x xs ih =>
    obtain ⟨hx, hrest⟩ := List.forall_mem_cons.mp h
    cases xs with
    | nil => simpa using hx
    | cons y ys =>
      simp only [List.map_cons, List.intercalate_cons_cons] at ih ⊢
      exact (hx.append hmark).append (ih hrest)

theorem reads_name (d : Dialect) (name : String) : Reads d (quoted name).toList [.name name] := by
  intro rest
  have hread := readToken_name d name rest
  rw [toList_quoted, List.cons_append, List.cons_append] at hread ⊢
  exact tokens_of_read rfl hread

theorem reads_literal (d : Dialect) (hsealed : Sealed backtick cs) (hcs : backtick ∉ cs)
    (hv : Value.parse? cs = some v) : Reads d (backtick :: cs ++ [backtick]) [.literal v] := by
  intro rest
  rw [List.cons_append, List.cons_append, List.append_assoc, List.singleton_append]
  exact tokens_of_read rfl (readToken_literal d hsealed hcs hv rest)

/-- A token with blanks around it. -/
theorem reads_spaced (c : Char) (cs : List Char)
    (h : ∀ rest, readToken d (c :: cs ++ ' ' :: rest) = .ok (t, ' ' :: rest))
    (hc : Source.isSpace c = false) : Reads d (' ' :: c :: cs ++ [' ']) [t] := by
  intro rest
  rw [List.cons_append, List.cons_append, tokens_of_space rfl, List.append_assoc,
    List.singleton_append]
  exact (tokens_of_read hc (h rest)).trans (by rw [tokens_of_space rfl]; rfl)

theorem reads_comparator (d : Dialect) (c : Comparator) :
    Reads d (' ' :: c.text ++ [' ']) [.comparator c] := by
  cases c <;> exact reads_spaced _ _ (fun _ => rfl) rfl

theorem tokens_position (d : Dialect) (i : Int) (rest : List Char) :
    tokens d ('[' :: ((toString i).toList ++ ']' :: rest)) =
      if d.reads i then (tokens d rest).map (.bracket (.index i) :: ·) else .error (.number i) := by
  have hread := readToken_position d i rest
  split at hread <;> rename_i hi
  · rw [if_pos hi]
    exact tokens_of_read rfl hread
  · rw [if_neg hi]
    exact tokens_of_refusal rfl hread

/-- The steps of a text that stands behind other steps. -/
def readOn (d : Dialect) (cs : List Char) : Except Refusal (List Step) := tokens d cs >>= readSteps

theorem readOn_field (d : Dialect) (name : String) (rest : List Char) :
    readOn d ('.' :: ((quoted name).toList ++ rest)) =
      (readOn d rest).map (.select (.field name) :: ·) := by
  rw [readOn, tokens_of_read rfl rfl, reads_name d name, readOn]
  cases tokens d rest <;> rfl

theorem readOn_position (d : Dialect) (i : Int) (rest : List Char) :
    readOn d ('[' :: ((toString i).toList ++ ']' :: rest)) =
      if d.reads i then (readOn d rest).map (.select (.index i) :: ·) else .error (.number i) := by
  rw [readOn, tokens_position, readOn]
  split
  · cases tokens d rest <;> rfl
  · rfl

/-- A name at the start of an expression is read as behind a point. -/
theorem compile_name (d : Dialect) (name : String) (rest : List Char) :
    compile d ((quoted name).toList ++ rest) =
      (readOn d ('.' :: ((quoted name).toList ++ rest))).map .ofSteps := by
  rw [compile, readOn, tokens_of_read rfl rfl, reads_name d name]
  cases tokens d rest <;> rfl

theorem compile_star (d : Dialect) (rest : List Char) :
    compile d ('*' :: rest) = (readOn d ('.' :: '*' :: rest)).map .ofSteps := by
  rw [compile, readOn, tokens_of_read rfl rfl, tokens_of_read rfl rfl, tokens_of_read rfl rfl]
  cases tokens d rest <;> rfl

theorem readToken_bracket (h : readToken d ('[' :: cs) = .ok (t, rest)) :
    t = .filter ∨ ∃ s, t = .bracket s := by
  cases cs with
  | nil => cases h
  | cons c cs =>
    by_cases hc : c = '?'
    · subst hc
      cases h
      exact .inl rfl
    · rw [readToken] at h
      · split at h
        · obtain ⟨s, -, heq⟩ := map_ok h
          cases heq
          exact .inr ⟨s, rfl⟩
        · cases h
      · exact fun _ heq => hc (List.cons.inj heq).1

/-- What begins with a bracket is the same behind other steps. -/
theorem compile_bracket (d : Dialect) (rest : List Char) :
    compile d ('[' :: rest) = (readOn d ('[' :: rest)).map .ofSteps := by
  rw [compile, readOn]
  cases hread : readToken d ('[' :: rest) with
  | error e =>
    rw [tokens_of_refusal rfl hread]
    rfl
  | ok found =>
    obtain ⟨t, behind⟩ := found
    rw [tokens_of_read rfl hread]
    cases tokens d behind with
    | error e => rfl
    | ok ts => obtain rfl | ⟨s, rfl⟩ := readToken_bracket hread <;> rfl

/-- Parts with marks between them are found again. -/
theorem splitOnP_intercalate {α : Type} {p : α → Bool} {mark : α} {parts : List (List α)}
    (hmark : p mark = true) (hne : parts ≠ []) (h : ∀ part ∈ parts, ∀ x ∈ part, p x = false) :
    ([mark].intercalate parts).splitOnP p = parts := by
  induction parts with
  | nil => exact (hne rfl).elim
  | cons part parts ih =>
    obtain ⟨hpart, hrest⟩ := List.forall_mem_cons.mp h
    cases parts with
    | nil =>
      rw [List.intercalate_singleton]
      exact List.splitOnP_eq_singleton hpart
    | cons next parts =>
      rw [List.intercalate_cons_cons, List.append_assoc, List.singleton_append,
        List.splitOnP_append_cons_of_forall_mem hpart mark hmark, ih (List.cons_ne_nil _ _) hrest]

/-- A filter goes on to the bracket that closes it. -/
theorem readInside_append (h : ∀ t ∈ ts, t ≠ .close) (inner rest : List Token) :
    readInside inner (ts ++ .close :: rest) = do
      return .filter (← readCondition (inner.reverse ++ ts)) :: (← readSteps rest) := by
  induction ts generalizing inner with
  | nil => rw [List.append_nil]; rfl
  | cons t ts ih =>
    obtain ⟨ht, hrest⟩ := List.forall_mem_cons.mp h
    rw [List.cons_append, readInside, ih hrest]
    · simp
    · exact ht

end

end Jmespath

end StatesLanguage
