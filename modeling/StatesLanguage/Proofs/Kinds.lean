import StatesLanguage.Proofs.Rules

/-! The fields of each kind of state are read again as they were written, apart from the graphs inside
it. What has to be kept for that is the same for all: numbers stay in their range, and no template is
null. -/
namespace StatesLanguage.Document

open Decoder

variable {key : String} {v : Value} {entries : List (String × Value)} {setting : Setting}

theorem returns_jitter (j : Jitter) : Returns (readJitter setting) Jitter.encode j := by
  cases j <;> exact ⟨nofun, rfl⟩

theorem word32_returns {o : Option Nat} (h : optional word32 v = .ok o) :
    ∀ n ∈ o, Returns word32 Value.ofNat n :=
  optional_returns h fun _ => stable_natural _ _

theorem word64_returns {o : Option Nat} (h : optional word64 v = .ok o) :
    ∀ n ∈ o, Returns word64 Value.ofNat n :=
  optional_returns h fun _ => stable_natural _ _

theorem any_returns {o : Option Value} (h : optional any v = .ok o) : ∀ x ∈ o, Returns any id x := by
  refine optional_returns h fun hv x hx => ?_
  cases hx
  exact returns_any hv

namespace Retrier

variable {r r' : Retrier}

def Kept (r : Retrier) : Prop := ∀ n ∈ r.maxAttempts, Returns word32 Value.ofNat n

theorem read_keeps (hr : r.Kept) (h : Retrier.read setting key v r = .ok r') : r'.Kept := by
  unfold Retrier.read at h
  split at h
  case h_3 =>
    obtain ⟨o, ho, heq⟩ := bind_ok h
    cases heq
    exact word32_returns ho
  case h_8 =>
    cases h
    exact hr
  all_goals
    obtain ⟨o, -, heq⟩ := bind_ok h
    cases heq
    exact hr

theorem Kept.returns (h : r.Kept) : Returns (Retrier.decode setting) Retrier.encode r := by
  refine ⟨by simp [Retrier.encode], ?_⟩
  simp only [Retrier.encode, List.append_assoc]
  refine reads_append (reads_names (fun r x => { r with errorEquals := x }) (fun _ => rfl)) ?_
  refine reads_append (reads_number (fun r x => { r with intervalSeconds := x }) (fun _ => rfl) rfl) ?_
  refine reads_append (reads_optional (fun r x => { r with maxAttempts := x }) (fun _ => rfl) rfl h) ?_
  refine reads_append (reads_number (fun r x => { r with backoffRate := x }) (fun _ => rfl) rfl) ?_
  refine reads_append (reads_number (fun r x => { r with maxDelaySeconds := x }) (fun _ => rfl) rfl) ?_
  refine reads_append (reads_optional (fun r x => { r with jitter := x }) (fun _ => rfl) rfl
    fun j _ => returns_jitter j) ?_
  exact reads_string (fun (r : Retrier) x => { r with comment := x }) (fun _ => rfl) rfl

theorem stable (v : Value) : StableAt (Retrier.decode setting) Retrier.encode v :=
  fun _ h => Kept.returns (recordOf_keeps h nofun fun _ _ _ _ _ hr hread => read_keeps hr hread)

end Retrier

theorem Catcher.returns (c : Catcher) : Returns (Catcher.decode setting) Catcher.encode c := by
  refine ⟨by simp [Catcher.encode], ?_⟩
  simp only [Catcher.encode, List.append_assoc]
  refine reads_append (reads_names (fun c x => { c with errorEquals := x }) (fun _ => rfl)) ?_
  refine reads_append (reads_string (fun c x => { c with next := x }) (fun _ => rfl) rfl) ?_
  refine reads_append (reads_path (fun c x => { c with resultPath := x }) (fun _ => rfl) rfl) ?_
  exact reads_string (fun (c : Catcher) x => { c with comment := x }) (fun _ => rfl) rfl

theorem retriers_return {rs : List Retrier} (h : list (Retrier.decode setting) v = .ok rs) :
    ∀ r ∈ rs, Returns (Retrier.decode setting) Retrier.encode r :=
  list_returns h fun w _ => Retrier.stable w

namespace Pass

variable {s s' : Pass}

structure Kept (s : Pass) : Prop where
  parameters : ∀ x ∈ s.parameters, Returns any id x
  result : ∀ x ∈ s.result, Returns any id x

theorem read_keeps (hs : s.Kept) (h : Pass.read key v s = .ok s') : s'.Kept := by
  unfold Pass.read at h
  split at h
  case h_7 =>
    obtain ⟨o, ho, heq⟩ := bind_ok h
    cases heq
    exact { hs with parameters := any_returns ho }
  case h_8 =>
    obtain ⟨o, ho, heq⟩ := bind_ok h
    cases heq
    exact { hs with result := any_returns ho }
  case h_9 =>
    cases h
    exact hs
  all_goals
    obtain ⟨o, -, heq⟩ := bind_ok h
    cases heq
    exact ⟨hs.parameters, hs.result⟩

theorem Kept.reads (h : s.Kept) : readEntries Pass.read {} s.encode = .ok s := by
  simp only [Pass.encode, List.append_assoc]
  refine reads_append (reads_string (fun s x => { s with comment := x }) (fun _ => rfl) rfl) ?_
  refine reads_append (reads_transition (fun s t => { s with transition := t })
    (fun _ _ _ => rfl) (fun _ _ _ => rfl) rfl) ?_
  refine reads_append (reads_paths (fun s p => { s with paths := p })
    (fun _ _ _ => rfl) (fun _ _ _ => rfl) rfl) ?_
  refine reads_append (reads_path (fun s x => { s with resultPath := x }) (fun _ => rfl) rfl) ?_
  refine reads_append
    (reads_any (fun s x => { s with parameters := x }) (fun _ => rfl) rfl h.parameters) ?_
  exact reads_any (fun (s : Pass) x => { s with result := x }) (fun _ => rfl) rfl h.result

theorem stable (h : readEntries Pass.read {} entries = .ok s) :
    readEntries Pass.read {} s.encode = .ok s :=
  Kept.reads (readEntries_keeps h ⟨nofun, nofun⟩ fun _ _ _ _ hs hread => read_keeps hs hread)

end Pass

namespace Task

variable {s s' : Task}

structure Kept (s : Task) : Prop where
  parameters : ∀ x ∈ s.parameters, Returns any id x
  resultSelector : ∀ x ∈ s.resultSelector, Returns any id x
  credentials : ∀ x ∈ s.credentials, Returns any id x
  timeoutSeconds : ∀ n ∈ s.timeoutSeconds, Returns word64 Value.ofNat n
  retry : ∀ r ∈ s.retry, Returns (Retrier.decode .inState) Retrier.encode r

theorem read_keeps (hs : s.Kept) (h : Task.read key v s = .ok s') : s'.Kept := by
  unfold Task.read at h
  split at h
  case h_7 =>
    obtain ⟨o, ho, heq⟩ := bind_ok h
    cases heq
    exact { hs with parameters := any_returns ho }
  case h_8 =>
    obtain ⟨o, ho, heq⟩ := bind_ok h
    cases heq
    exact { hs with resultSelector := any_returns ho }
  case h_10 =>
    obtain ⟨o, ho, heq⟩ := bind_ok h
    cases heq
    exact { hs with credentials := any_returns ho }
  case h_11 =>
    obtain ⟨o, ho, heq⟩ := bind_ok h
    cases heq
    exact { hs with timeoutSeconds := word64_returns ho }
  case h_12 =>
    obtain ⟨o, ho, heq⟩ := bind_ok h
    cases heq
    exact { hs with retry := retriers_return ho }
  case h_14 =>
    cases h
    exact hs
  all_goals
    obtain ⟨o, -, heq⟩ := bind_ok h
    cases heq
    exact ⟨hs.parameters, hs.resultSelector, hs.credentials, hs.timeoutSeconds, hs.retry⟩

theorem Kept.reads (h : s.Kept) : readEntries Task.read {} s.encode = .ok s := by
  simp only [Task.encode, List.append_assoc]
  refine reads_append (reads_string (fun s x => { s with comment := x }) (fun _ => rfl) rfl) ?_
  refine reads_append (reads_transition (fun s t => { s with transition := t })
    (fun _ _ _ => rfl) (fun _ _ _ => rfl) rfl) ?_
  refine reads_append (reads_paths (fun s p => { s with paths := p })
    (fun _ _ _ => rfl) (fun _ _ _ => rfl) rfl) ?_
  refine reads_append (reads_path (fun s x => { s with resultPath := x }) (fun _ => rfl) rfl) ?_
  refine reads_append
    (reads_any (fun s x => { s with parameters := x }) (fun _ => rfl) rfl h.parameters) ?_
  refine reads_append
    (reads_any (fun s x => { s with resultSelector := x }) (fun _ => rfl) rfl h.resultSelector) ?_
  refine reads_append (reads_string (fun s x => { s with resource := x }) (fun _ => rfl) rfl) ?_
  refine reads_append
    (reads_any (fun s x => { s with credentials := x }) (fun _ => rfl) rfl h.credentials) ?_
  refine reads_append
    (reads_optional (fun s x => { s with timeoutSeconds := x }) (fun _ => rfl) rfl h.timeoutSeconds) ?_
  refine reads_append (reads_list (fun s x => { s with retry := x }) (fun _ => rfl) rfl h.retry) ?_
  exact reads_list (fun (s : Task) x => { s with catchers := x }) (fun _ => rfl) rfl
    fun c _ => c.returns

theorem stable (h : readEntries Task.read {} entries = .ok s) :
    readEntries Task.read {} s.encode = .ok s :=
  Kept.reads (readEntries_keeps h ⟨nofun, nofun, nofun, nofun, nofun⟩
    fun _ _ _ _ hs hread => read_keeps hs hread)

end Task

namespace Wait

variable {s s' : Wait}

def Kept (s : Wait) : Prop := ∀ n ∈ s.seconds, Returns word64 Value.ofNat n

theorem read_keeps (hs : s.Kept) (h : Wait.read key v s = .ok s') : s'.Kept := by
  unfold Wait.read at h
  split at h
  case h_6 =>
    obtain ⟨o, ho, heq⟩ := bind_ok h
    cases heq
    exact word64_returns ho
  case h_10 =>
    cases h
    exact hs
  all_goals
    obtain ⟨o, -, heq⟩ := bind_ok h
    cases heq
    exact hs

theorem Kept.reads (h : s.Kept) : readEntries Wait.read {} s.encode = .ok s := by
  simp only [Wait.encode, List.append_assoc]
  refine reads_append (reads_string (fun s x => { s with comment := x }) (fun _ => rfl) rfl) ?_
  refine reads_append (reads_transition (fun s t => { s with transition := t })
    (fun _ _ _ => rfl) (fun _ _ _ => rfl) rfl) ?_
  refine reads_append (reads_paths (fun s p => { s with paths := p })
    (fun _ _ _ => rfl) (fun _ _ _ => rfl) rfl) ?_
  refine reads_append (reads_optional (fun s x => { s with seconds := x }) (fun _ => rfl) rfl h) ?_
  refine reads_append (reads_string (fun s x => { s with secondsPath := x }) (fun _ => rfl) rfl) ?_
  refine reads_append (reads_string (fun s x => { s with timestamp := x }) (fun _ => rfl) rfl) ?_
  exact reads_string (fun (s : Wait) x => { s with timestampPath := x }) (fun _ => rfl) rfl

theorem stable (h : readEntries Wait.read {} entries = .ok s) :
    readEntries Wait.read {} s.encode = .ok s :=
  Kept.reads (readEntries_keeps h nofun fun _ _ _ _ hs hread => read_keeps hs hread)

end Wait

namespace Choice

variable {s s' : Choice}

def Kept (s : Choice) : Prop :=
  ∀ rs ∈ s.choices, Returns (list Rule.decode) (encodeList Rule.encode) rs

theorem read_keeps (hs : s.Kept) (h : Choice.read key v s = .ok s') : s'.Kept := by
  unfold Choice.read at h
  split at h
  case h_4 =>
    obtain ⟨o, ho, heq⟩ := bind_ok h
    cases heq
    rw [Rule.decodeList?_eq] at ho
    exact optional_returns ho fun _ => stable_list fun w _ => Rule.stable w
  case h_6 =>
    cases h
    exact hs
  all_goals
    obtain ⟨o, -, heq⟩ := bind_ok h
    cases heq
    exact hs

theorem Kept.reads (h : s.Kept) : readEntries Choice.read {} s.encode = .ok s := by
  simp only [Choice.encode, List.append_assoc, Rule.encodeList?_eq]
  refine reads_append (reads_string (fun s x => { s with comment := x }) (fun _ => rfl) rfl) ?_
  refine reads_append (reads_paths (fun s p => { s with paths := p })
    (fun _ _ _ => rfl) (fun _ _ _ => rfl) rfl) ?_
  refine reads_append (reads_optional (fun s x => { s with choices := x }) (fun v => ?_) rfl h) ?_
  · rw [← Rule.decodeList?_eq]
    rfl
  · exact reads_string (fun (s : Choice) x => { s with default := x }) (fun _ => rfl) rfl

theorem stable (h : readEntries Choice.read {} entries = .ok s) :
    readEntries Choice.read {} s.encode = .ok s :=
  Kept.reads (readEntries_keeps h nofun fun _ _ _ _ hs hread => read_keeps hs hread)

end Choice

theorem Succeed.reads (s : Succeed) : readEntries Succeed.read {} s.encode = .ok s := by
  refine reads_append (reads_string (fun s x => { s with comment := x }) (fun _ => rfl) rfl) ?_
  exact reads_paths (fun (s : Succeed) p => { s with paths := p })
    (fun _ _ _ => rfl) (fun _ _ _ => rfl) rfl

theorem Fail.reads (s : Fail) : readEntries Fail.read {} s.encode = .ok s := by
  simp only [Fail.encode, List.append_assoc]
  refine reads_append (reads_string (fun s x => { s with comment := x }) (fun _ => rfl) rfl) ?_
  refine reads_append (reads_string (fun s x => { s with error := x }) (fun _ => rfl) rfl) ?_
  refine reads_append (reads_string (fun s x => { s with cause := x }) (fun _ => rfl) rfl) ?_
  refine reads_append (reads_string (fun s x => { s with errorPath := x }) (fun _ => rfl) rfl) ?_
  exact reads_string (fun (s : Fail) x => { s with causePath := x }) (fun _ => rfl) rfl

end StatesLanguage.Document
