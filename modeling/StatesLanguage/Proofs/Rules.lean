import StatesLanguage.Proofs.Fields

/-! Choice rules are read again as they were written, whatever they combine. -/
namespace StatesLanguage.Document

open Decoder

namespace Rule

variable {r r' : Rule} {key : String} {v : Value}

/-- The keys that are no comparison. -/
def keys : List String := ["Variable", "Next", "And", "Or", "Not", "Comment"]

/-- Takes one entry of a rule. -/
def read : FieldReader Rule := fun key v r =>
  match key with
  | "Variable" => (optional string v).map fun s => { r with subject := s }
  | "Next" => (optional string v).map fun s => { r with next := s }
  | "And" => (optional (list Rule.decode) v).map fun rs => { r with conj := rs }
  | "Or" => (optional (list Rule.decode) v).map fun rs => { r with disj := rs }
  | "Not" => (optional Rule.decode v).map fun n => { r with neg := n }
  | "Comment" => (optional string v).map fun s => { r with comment := s }
  | key => .ok { r with comparisons := r.comparisons ++ [(key, v)] }

theorem decode?_eq (v : Value) : Rule.decode? v = optional Rule.decode v := by
  cases v <;> simp [Rule.decode?, Rule.decode, Decoder.optional, Except.map]

theorem decodeItems_eq (items : List Value) : Rule.decodeItems items = items.mapM Rule.decode := by
  induction items with
  | nil =>
    rw [Rule.decodeItems]
    rfl
  | cons v rest ih =>
    rw [Rule.decodeItems, List.mapM_cons, ih]
    rfl

theorem decodeList?_eq (v : Value) : Rule.decodeList? v = optional (list Rule.decode) v := by
  cases v <;> simp [Rule.decodeList?, decodeItems_eq, Decoder.optional, list, Except.map]

theorem decodeEntries_eq (r : Rule) (entries : List (String × Value)) :
    Rule.decodeEntries r entries = readEntries read r entries := by
  induction entries generalizing r with
  | nil =>
    rw [Rule.decodeEntries]
    rfl
  | cons e rest ih =>
    obtain ⟨key, v⟩ := e
    simp only [readEntries_cons, read, Rule.decodeEntries, decode?_eq, decodeList?_eq, ih]
    split
    case h_7 => simp_all
    all_goals rfl

theorem decode_obj (entries : List (String × Value)) :
    Rule.decode (.obj entries) = readEntries read {} entries := by
  rw [Rule.decode, decodeEntries_eq]

theorem encodeItems_eq (rs : List Rule) : Rule.encodeItems rs = rs.map Rule.encode := by
  induction rs with
  | nil => rw [Rule.encodeItems, List.map_nil]
  | cons r rest ih => rw [Rule.encodeItems, List.map_cons, ih]

theorem encodeList?_eq (o : Option (List Rule)) :
    Rule.encodeList? o = o.map (encodeList Rule.encode) := by
  cases o <;> simp [Rule.encodeList?, encodeList, encodeItems_eq]

theorem encode?_eq (o : Option Rule) : Rule.encode? o = o.map Rule.encode := by
  cases o <;> simp [Rule.encode?]

/-- A rule whose parts return, and whose comparisons have keys of comparisons. -/
structure Kept (r : Rule) : Prop where
  conj : ∀ rs ∈ r.conj, Returns (list Rule.decode) (encodeList Rule.encode) rs
  disj : ∀ rs ∈ r.disj, Returns (list Rule.decode) (encodeList Rule.encode) rs
  neg : ∀ x ∈ r.neg, Returns Rule.decode Rule.encode x
  comparisons : ∀ c ∈ r.comparisons, c.1 ∉ keys

theorem read_keeps (hr : r.Kept) (h : read key v r = .ok r')
    (hv : ∀ w, sizeOf w ≤ sizeOf v → StableAt Rule.decode Rule.encode w) : r'.Kept := by
  have hlist : StableAt (list Rule.decode) (encodeList Rule.encode) v :=
    stable_list fun w hw => hv w (Nat.le_of_lt hw)
  unfold read at h
  split at h
  case h_3 =>
    obtain ⟨o, ho, rfl⟩ := map_ok h
    exact ⟨optional_returns ho fun _ => hlist, hr.disj, hr.neg, hr.comparisons⟩
  case h_4 =>
    obtain ⟨o, ho, rfl⟩ := map_ok h
    exact ⟨hr.conj, optional_returns ho fun _ => hlist, hr.neg, hr.comparisons⟩
  case h_5 =>
    obtain ⟨o, ho, rfl⟩ := map_ok h
    exact ⟨hr.conj, hr.disj, optional_returns ho fun _ => hv v (Nat.le_refl _), hr.comparisons⟩
  case h_7 =>
    cases h
    refine ⟨hr.conj, hr.disj, hr.neg, fun c hc => ?_⟩
    rcases List.mem_append.mp hc with hc | hc
    · exact hr.comparisons c hc
    · rw [List.mem_singleton.mp hc]
      simp_all [keys]
  all_goals
    obtain ⟨o, -, rfl⟩ := map_ok h
    exact ⟨hr.conj, hr.disj, hr.neg, hr.comparisons⟩

theorem read_comparison (h : key ∉ keys) :
    read key v r = .ok { r with comparisons := r.comparisons ++ [(key, v)] } := by
  simp only [keys, List.mem_cons, List.not_mem_nil, or_false, not_or] at h
  unfold read
  split <;> simp_all

theorem reads_comparisons {cs : List (String × Value)} (h : ∀ c ∈ cs, c.1 ∉ keys) :
    readEntries read r cs = .ok { r with comparisons := r.comparisons ++ cs } := by
  induction cs generalizing r with
  | nil =>
    cases r
    simp only [List.append_nil]
    rfl
  | cons c rest ih =>
    obtain ⟨key, v⟩ := c
    obtain ⟨hkey, hrest⟩ := List.forall_mem_cons.mp h
    have hfirst : readEntries read r [(key, v)] = _ := reads_single (read_comparison hkey)
    have hlast := reads_append hfirst (ih hrest)
    rwa [List.append_assoc] at hlast

theorem Kept.returns (h : r.Kept) : Returns Rule.decode Rule.encode r := by
  obtain ⟨subject, next, conj, disj, neg, comment, comparisons⟩ := r
  rw [Returns, Rule.encode, decode_obj, encodeList?_eq, encodeList?_eq, encode?_eq]
  refine ⟨by simp, ?_⟩
  simp only [List.append_assoc]
  refine reads_append (reads_string (fun r x => { r with subject := x }) (fun _ => rfl) rfl) ?_
  refine reads_append (reads_string (fun r x => { r with next := x }) (fun _ => rfl) rfl) ?_
  refine reads_append
    (reads_optional (fun r x => { r with conj := x }) (fun _ => rfl) rfl h.conj) ?_
  refine reads_append
    (reads_optional (fun r x => { r with disj := x }) (fun _ => rfl) rfl h.disj) ?_
  refine reads_append (reads_optional (fun r x => { r with neg := x }) (fun _ => rfl) rfl h.neg) ?_
  refine reads_append (reads_string (fun r x => { r with comment := x }) (fun _ => rfl) rfl) ?_
  exact reads_comparisons h.comparisons

/-- What is read as a rule returns if the rules inside it do. -/
theorem stable_of_inner (hv : ∀ w, sizeOf w < sizeOf v → StableAt Rule.decode Rule.encode w) :
    StableAt Rule.decode Rule.encode v := by
  intro r h
  cases v with
  | obj entries =>
    rw [decode_obj] at h
    refine Kept.returns (readEntries_keeps h ⟨nofun, nofun, nofun, nofun⟩ fun e he r r' hr hread => ?_)
    exact read_keeps hr hread fun w hw => hv w (Nat.lt_of_le_of_lt hw (sizeOf_entry he))
  | _ => simp [Rule.decode] at h

/-- What is read as a rule returns. -/
theorem stable (v : Value) : StableAt Rule.decode Rule.encode v :=
  stable_of_inner fun w _ => stable w
termination_by sizeOf v

end Rule

end StatesLanguage.Document
