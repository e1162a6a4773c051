import StatesLanguage.Proofs.Comparisons
import StatesLanguage.Proofs.Patterns

/-! What globs match. The expression of a glob is read as a pattern of the texts that follow the
glob within lines. -/
namespace StatesLanguage

namespace Glob

/-- A text follows a glob. A star stands for a run of characters that it spans. -/
inductive Follows (Spans : List Char → Prop) : List Char → List Char → Prop where
  | nil : Follows Spans [] []
  | star {glob run text : List Char} : Spans run → Follows Spans glob text →
      Follows Spans ('*' :: glob) (run ++ text)
  | escaped {c : Char} {glob text : List Char} : Follows Spans glob text →
      Follows Spans ('\\' :: c :: glob) (c :: text)
  | backslash : Follows Spans ['\\'] ['\\']
  | char {c : Char} {glob text : List Char} : c ≠ '*' → c ≠ '\\' → Follows Spans glob text →
      Follows Spans (c :: glob) (c :: text)

variable {Spans Spans' : List Char → Prop} {c : Char} {glob text : List Char}

theorem Follows.mono (h : ∀ run, Spans run → Spans' run) (hf : Follows Spans glob text) :
    Follows Spans' glob text := by
  induction hf with
  | nil => exact .nil
  | star hrun _ ih => exact .star (h _ hrun) ih
  | escaped _ ih => exact .escaped ih
  | backslash => exact .backslash
  | char hstar hback _ ih => exact .char hstar hback ih

/-- Only the runs within the text matter. -/
theorem Follows.restrict (hf : Follows Spans glob text) :
    Follows (fun run => Spans run ∧ run ⊆ text) glob text := by
  induction hf with
  | nil => exact .nil
  | star hrun _ ih =>
    refine .star ⟨hrun, List.subset_append_left _ _⟩ (ih.mono ?_)
    exact fun run h => ⟨h.1, fun d hd => List.mem_append_right _ (h.2 hd)⟩
  | escaped _ ih => exact .escaped (ih.mono fun run h => ⟨h.1, fun d hd => .tail _ (h.2 hd)⟩)
  | backslash => exact .backslash
  | char hstar hback _ ih =>
    exact .char hstar hback (ih.mono fun run h => ⟨h.1, fun d hd => .tail _ (h.2 hd)⟩)

theorem follows_star : Follows Spans ('*' :: glob) text ↔
    ∃ run rest, text = run ++ rest ∧ Spans run ∧ Follows Spans glob rest := by
  constructor
  · intro h
    cases h with
    | star hrun hrest => exact ⟨_, _, rfl, hrun, hrest⟩
    | char hstar => exact (hstar rfl).elim
  · rintro ⟨run, rest, rfl, hrun, hrest⟩
    exact .star hrun hrest

theorem follows_escaped : Follows Spans ('\\' :: c :: glob) text ↔
    ∃ rest, text = c :: rest ∧ Follows Spans glob rest := by
  constructor
  · intro h
    cases h with
    | escaped hrest => exact ⟨_, rfl, hrest⟩
    | char _ hback => exact (hback rfl).elim
  · rintro ⟨rest, rfl, hrest⟩
    exact .escaped hrest

theorem follows_backslash : Follows Spans ['\\'] text ↔ text = ['\\'] := by
  constructor
  · intro h
    cases h with
    | backslash => rfl
    | char _ hback => exact (hback rfl).elim
  · rintro rfl
    exact .backslash

theorem follows_char (hstar : c ≠ '*') (hback : c ≠ '\\') : Follows Spans (c :: glob) text ↔
    ∃ rest, text = c :: rest ∧ Follows Spans glob rest := by
  constructor
  · intro h
    cases h with
    | char _ _ hrest => exact ⟨_, rfl, hrest⟩
    | star => exact (hstar rfl).elim
    | escaped => exact (hback rfl).elim
    | backslash => exact (hback rfl).elim
  · rintro ⟨rest, rfl, hrest⟩
    exact .char hstar hback hrest

/-- A run within a line. -/
def InLine (run : List Char) : Prop := '\n' ∉ run

end Glob

namespace Expression

variable {c : Char} {rest : List Char}

/-- A character is read back as itself. -/
theorem readParts?_escape (c : Char) (rest : List Char) :
    readParts? (escape c ++ rest) = (readParts? rest).map (.seq (.char c)) := by
  by_cases hmeta : metacharacters.contains c = true
  · rw [escape, if_pos hmeta, List.cons_append, List.cons_append, List.nil_append, readParts?,
      if_pos hmeta]
  · have hother (d : Char) (hd : metacharacters.contains d = true) : c ≠ d := by
      rintro rfl
      exact hmeta hd
    rw [escape, if_neg hmeta, List.cons_append, List.nil_append, readParts?, if_neg hmeta]
    · exact fun h _ => hother '$' rfl h
    · exact fun _ h _ => hother '.' rfl h
    · exact fun h => hother '.' rfl h
    · exact fun _ _ h _ => hother '\\' rfl h

end Expression

namespace Glob

variable {Spans : List Char → Prop} {c : Char} {glob text : List Char}

theorem matches_char_seq {p : Pattern} : (Pattern.seq (.char c) p).Matches text ↔
    ∃ rest, text = c :: rest ∧ p.Matches rest := by
  simp only [Pattern.matches_seq, Pattern.matches_char]
  constructor
  · rintro ⟨_, rest, rfl, rfl, hrest⟩
    exact ⟨rest, rfl, hrest⟩
  · rintro ⟨rest, rfl, hrest⟩
    exact ⟨[c], rest, rfl, rfl, hrest⟩

theorem matches_points : (Pattern.star Expression.point).Matches text ↔ InLine text := by
  rw [Expression.point, Pattern.matches_star_one, InLine]
  simp only [bne_iff_ne, ne_eq]
  exact ⟨fun h hmem => h _ hmem rfl, fun h c hc heq => h (heq ▸ hc)⟩

/-- The expression of a glob is read as a pattern of the texts that follow the glob within lines. -/
theorem readParts?_parts (glob : List Char) :
    ∃ p, Expression.readParts? (parts glob ++ ['$']) = some p ∧
      ∀ text, p.Matches text ↔ Follows InLine glob text := by
  induction glob using parts.induct with
  | case1 =>
    refine ⟨.empty, rfl, fun text => ?_⟩
    rw [Pattern.matches_empty]
    constructor
    · rintro rfl
      exact .nil
    · rintro ⟨⟩
      rfl
  | case2 =>
    refine ⟨.seq (.char '\\') .empty, rfl, fun text => ?_⟩
    simp only [matches_char_seq, Pattern.matches_empty, follows_backslash, exists_eq_right]
  | case3 c rest ih =>
    obtain ⟨p, hread, hp⟩ := ih
    refine ⟨.seq (.char c) p, ?_, fun text => ?_⟩
    · rw [parts, List.append_assoc, Expression.readParts?_escape, hread]
      rfl
    · simp only [matches_char_seq, follows_escaped, hp]
  | case4 rest ih =>
    obtain ⟨p, hread, hp⟩ := ih
    refine ⟨.seq (.star Expression.point) p, ?_, fun text => ?_⟩
    · rw [parts, List.cons_append, List.cons_append, Expression.readParts?, hread]
      rfl
    · simp only [Pattern.matches_seq, matches_points, follows_star, hp]
  | case5 c rest hlast hescape hstar ih =>
    obtain ⟨p, hread, hp⟩ := ih
    have hback : c ≠ '\\' := by
      rintro rfl
      cases rest with
      | nil => exact hlast rfl rfl
      | cons d rest => exact hescape d rest rfl rfl
    refine ⟨.seq (.char c) p, ?_, fun text => ?_⟩
    · rw [parts, List.append_assoc, Expression.readParts?_escape, hread]
      · rfl
      · exact hlast
      · exact hescape
      · exact hstar
    · simp only [matches_char_seq, follows_char hstar hback, hp]

/-- A glob accepts the texts that follow it within lines. -/
theorem accepts_iff : accepts glob text = true ↔ Follows InLine glob text := by
  obtain ⟨p, hread, hp⟩ := readParts?_parts glob
  have hpattern : Expression.read? (expression glob) = some p := hread
  rw [accepts, hpattern, Option.any_some, Pattern.accepts_iff, hp]

/-- In a text without line feeds all runs are within a line. -/
theorem follows_inLine (h : '\n' ∉ text) (hf : Follows Spans glob text) :
    Follows InLine glob text :=
  hf.restrict.mono fun _ hrun hmem => h (hrun.2 hmem)

end Glob

section

variable {p glob : String} {P : Path} {input context : Value}

theorem compile_glob (hp : Path.parse p = .ok P) (glob : String) :
    ChoiceRule.compile (.comparing p "StringMatches" (.str glob)) =
      .ok (.compare P .stringMatches (.literal (.str glob))) :=
  @ChoiceRule.compile_literal p P .stringMatches (.str glob) hp rfl

/-- A rule with a glob holds of the strings that follow it within lines, and of nothing else. -/
theorem holds_glob_iff :
    (ChoiceRule.compare P .stringMatches (.literal (.str glob))).holds input context = true ↔
      ∃ s, P.evaluate input context = .ok (.str s) ∧
        Glob.Follows Glob.InLine glob.toList s.toList := by
  rw [ChoiceRule.holds]
  cases P.evaluate input context with
  | error e => simp [Except.toOption, Operator.answers]
  | ok v =>
    cases v with
    | str s =>
      simp only [Except.toOption, Operator.answers, Operator.compares, Glob.accepts_iff,
        Except.ok.injEq, Value.str.injEq, exists_eq_left']
    | _ => simp [Except.toOption, Operator.answers, Operator.compares]

/-- A rule with a glob can be asked. It holds of the strings that follow the glob, a star standing
for a run within a line: never of a string that does not follow the glob, and of a string without
line feeds just when it does. -/
theorem glob_followed (hp : Path.parse p = .ok P) (glob : String) :
    ∃ rule, ChoiceRule.compile (.comparing p "StringMatches" (.str glob)) = .ok rule ∧
      ∀ input context,
        (rule.holds input context = true ↔ ∃ s, P.evaluate input context = .ok (.str s) ∧
          Glob.Follows Glob.InLine glob.toList s.toList) ∧
        ∀ s, P.evaluate input context = .ok (.str s) →
          (rule.holds input context = true → Glob.Follows (fun _ => True) glob.toList s.toList) ∧
          ('\n' ∉ s.toList → Glob.Follows (fun _ => True) glob.toList s.toList →
            rule.holds input context = true) := by
  refine ⟨_, compile_glob hp glob, fun input context => ⟨holds_glob_iff, fun s hs => ⟨?_, ?_⟩⟩⟩
  · rw [holds_glob_iff]
    rintro ⟨s', hs', hfollows⟩
    cases hs.symm.trans hs'
    exact hfollows.mono fun _ _ => trivial
  · exact fun hline hfollows => holds_glob_iff.mpr ⟨s, hs, Glob.follows_inLine hline hfollows⟩

/-- A text follows a glob across a line feed, but the rule does not hold of it; of its first line it
does. -/
theorem lines_unfollowed : Path.parse "$.text" = .ok (.dotted "text") ∧
    Glob.Follows (fun _ => True) "a*b".toList "a\nb".toList ∧
    ∃ rule, ChoiceRule.compile (.comparing "$.text" "StringMatches" (.str "a*b")) = .ok rule ∧
      rule.holds (.obj [("text", .str "a\nb")]) .null = false ∧
      rule.holds (.obj [("text", .str "a-\\b")]) .null = true := by
  have hp : Path.parse "$.text" = .ok (.dotted "text") := by cbv
  have hb : Glob.Follows (fun _ => True) ['b'] ['b'] := .char (by decide) (by decide) .nil
  have hacross : Glob.Follows (fun _ => True) "a*b".toList "a\nb".toList :=
    .char (by decide) (by decide) (@Glob.Follows.star _ _ ['\n'] _ trivial hb)
  have hwithin : Glob.Follows (fun _ => True) "a*b".toList "a-\\b".toList :=
    .char (by decide) (by decide) (@Glob.Follows.star _ _ ['-', '\\'] _ trivial hb)
  obtain ⟨rule, hrule, hholds⟩ := glob_followed hp "a*b"
  refine ⟨hp, hacross, rule, hrule, ?_, ?_⟩
  · rw [Bool.eq_false_iff, ne_eq, (hholds _ _).1]
    rintro ⟨s, hs, hfollows⟩
    cases hs
    have hfollows : Glob.Follows Glob.InLine ['a', '*', 'b'] ['a', '\n', 'b'] := hfollows
    obtain ⟨rest, hrest, hfollows⟩ := (Glob.follows_char (by decide) (by decide)).mp hfollows
    obtain ⟨run, tail, rfl, hrun, htail⟩ := Glob.follows_star.mp hfollows
    have hsplit : ['\n', 'b'] = run ++ tail := (List.cons.inj hrest).2
    -- the line feed is in the run, or else it stands where the letter after the star must stand
    cases run with
    | nil =>
      obtain ⟨last, rfl, -⟩ := (Glob.follows_char (by decide) (by decide)).mp htail
      exact absurd (List.cons.inj hsplit).1 (by decide)
    | cons c run => exact hrun ((List.cons.inj hsplit).1 ▸ List.mem_cons_self)
  · exact ((hholds _ _).2 _ rfl).2 (by decide) hwithin

end

end StatesLanguage
