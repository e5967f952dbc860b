import FlatNtuple.Proofs.Branch.Merge
/-!
# The branches of a configuration

The merges that make up the branches of a configuration come to a list that can be read off it: the usual branches that
it includes, with the functions of its own where it has some, and then the other branches of its own, kind by kind
(`entries_allBranches`).  The check goes through this list and stops at the first branch whose name is no identifier or
has been there before (`check_eq_error_iff`).
-/
namespace FlatNtuple

/-! ## Names -/

/-- An ASCII letter or an underscore: `[A-Za-z_]`. -/
def IsLetter (c : Char) : Prop := ('A' ≤ c ∧ c ≤ 'Z') ∨ ('a' ≤ c ∧ c ≤ 'z') ∨ c = '_'

/-- The whole of the text matches `[A-Za-z_][A-Za-z0-9_]*`. -/
def IsIdentifier (s : String) : Prop :=
  ∃ c cs, s.toList = c :: cs ∧ IsLetter c ∧ ∀ d ∈ cs, IsLetter d ∨ ('0' ≤ d ∧ d ≤ '9')

theorem Branch.isNameStart_iff {c : Char} : isNameStart c = true ↔ IsLetter c := by
  simp only [isNameStart, Char.isAlpha, Char.isUpper, Char.isLower, Bool.or_eq_true, Bool.and_eq_true, decide_eq_true_eq,
    or_assoc]
  rfl

theorem Branch.isNameChar_iff {c : Char} : isNameChar c = true ↔ IsLetter c ∨ ('0' ≤ c ∧ c ≤ '9') := by
  have hstart := @isNameStart_iff c
  simp only [isNameStart, Bool.or_eq_true, decide_eq_true_eq] at hstart
  simp only [isNameChar, Char.isAlphanum, Char.isDigit, Bool.or_eq_true, Bool.and_eq_true, decide_eq_true_eq, ← hstart]
  tauto

theorem Branch.isName_iff {s : String} : isName s = true ↔ IsIdentifier s := by
  unfold isName IsIdentifier
  cases s.toList with
  | nil => simp
  | cons c cs => simp [isNameStart_iff, isNameChar_iff]

/-! ## The check -/

namespace BranchSet

variable {seen seen' : List String} {b : Branch} {bs : List Branch} {e : BranchError}

/-- What is wrong with a branch behind those of the given names. -/
def Faulty (seen : List String) (b : Branch) (e : BranchError) : Prop :=
  ¬IsIdentifier b.name ∧ e = .invalidName b.name ∨ IsIdentifier b.name ∧ b.name ∈ seen ∧ e = .duplicate b.name

theorem Faulty.of_subset (h : Faulty seen b e) (hseen : seen ⊆ seen') : Faulty seen' b e :=
  h.imp_right fun ⟨hname, hmem, he⟩ => ⟨hname, hseen hmem, he⟩

theorem check_cons_of_faulty (h : Faulty seen b e) : check seen (b :: bs) = .error e := by
  rw [check]
  obtain ⟨hname, rfl⟩ | ⟨hname, hseen, rfl⟩ := h
  · rw [← Branch.isName_iff, Bool.not_eq_true] at hname
    rw [if_pos (by rw [hname, Bool.not_false])]
  · rw [if_neg (by rw [Branch.isName_iff.2 hname, Bool.not_true]; exact Bool.false_ne_true), if_pos hseen]

theorem check_cons_of_not_faulty (h : ∀ e, ¬Faulty seen b e) : check seen (b :: bs) = check (b.name :: seen) bs := by
  have hname : IsIdentifier b.name := not_not.1 fun hname => h _ (.inl ⟨hname, rfl⟩)
  have hseen : b.name ∉ seen := fun hseen => h _ (.inr ⟨hname, hseen, rfl⟩)
  rw [check, if_neg (by rw [Branch.isName_iff.2 hname, Bool.not_true]; exact Bool.false_ne_true), if_neg hseen]

/-- **The check stops at the first branch that is malformed or repeats a name.** -/
theorem check_eq_error_iff : check seen bs = .error e ↔
    ∃ before b rest, bs = before ++ b :: rest ∧ check seen before = .ok () ∧
      Faulty (before.map Branch.name ++ seen) b e := by
  induction bs generalizing seen with
  | nil => simp [check]
  | cons b bs ih =>
    have hnames (before : List Branch) (name : String) :
        name ∈ before.map Branch.name ++ b.name :: seen ↔ name ∈ (b :: before).map Branch.name ++ seen := by
      simp only [List.map_cons, List.mem_append, List.mem_cons]
      tauto
    constructor
    · intro h
      by_cases hb : ∃ e', Faulty seen b e'
      · obtain ⟨e', hb⟩ := hb
        obtain rfl : e' = e := Except.error.inj ((check_cons_of_faulty hb).symm.trans h)
        exact ⟨[], b, bs, rfl, rfl, hb⟩
      · rw [check_cons_of_not_faulty (not_exists.1 hb), ih] at h
        obtain ⟨before, b', rest, rfl, hbefore, hfault⟩ := h
        exact ⟨b :: before, b', rest, rfl, (check_cons_of_not_faulty (not_exists.1 hb)).trans hbefore,
          hfault.of_subset fun name => (hnames before name).1⟩
    · rintro ⟨_ | ⟨_, before⟩, b', rest, ⟨⟩, hbefore, hfault⟩
      · exact check_cons_of_faulty hfault
      · have hb (e' : BranchError) : ¬Faulty seen b e' := by
          intro hb
          rw [check_cons_of_faulty hb] at hbefore
          cases hbefore
        rw [check_cons_of_not_faulty hb] at hbefore
        rw [check_cons_of_not_faulty hb]
        exact ih.2 ⟨before, b', rest, rfl, hbefore, hfault.of_subset fun name => (hnames before name).2⟩

/-! ## Names in one kind only -/

theorem nodup_entries (s : BranchSet) : s.entries.Nodup := by
  rw [entries, List.nodup_flatMap]
  refine ⟨fun k _ => ?_, ?_⟩
  · exact (s.group k).nodup_keys.of_map.map fun _ _ h => by simpa [Prod.ext_iff] using h
  · refine List.Pairwise.imp (fun {k k'} hne b hb hb' => hne ?_) (show ReturnKind.all.Nodup by decide)
    exact (mem_entriesOf.1 hb).1.symm.trans (mem_entriesOf.1 hb').1

theorem eq_of_mem_entries {s : BranchSet} {b b' : Branch} (hb : b ∈ s.entries) (hb' : b' ∈ s.entries)
    (hkind : b.kind = b'.kind) (hname : b.name = b'.name) : b = b' := by
  have hfunction : some b.function = some b'.function := by
    rw [← mem_entries.1 hb, ← mem_entries.1 hb', hkind, hname]
  cases b
  cases b'
  cases hkind
  cases hname
  cases hfunction
  rfl

/-- The names of a set are all different if none of them is in two kinds. -/
theorem nodup_names_iff (s : BranchSet) : (s.entries.map Branch.name).Nodup ↔
    ∀ b ∈ s.entries, ∀ b' ∈ s.entries, b.name = b'.name → b.kind = b'.kind := by
  rw [List.nodup_map_iff_inj_on s.nodup_entries]
  constructor
  · exact fun h b hb b' hb' hname => congrArg Branch.kind (h b hb b' hb' hname)
  · exact fun h b hb b' hb' hname => eq_of_mem_entries hb hb' (h b hb b' hb' hname) hname

theorem covers_merge (s s' : BranchSet) (b : Branch) : (s.merge s').covers b = (s'.covers b || s.covers b) := by
  simp only [covers, OrderedMap.contains, get?_merge, Option.isSome_or]

theorem event_merge_generator (k : ReturnKind) :
    (event.merge generator).entriesOf k = event.entriesOf k ++ generator.entriesOf k := by
  cases k <;> decide +kernel

end BranchSet

/-! ## The branches of a configuration -/

namespace NtupleConfig

variable (c : NtupleConfig)

/-- The usual branches that the configuration includes, those of the event first. -/
def usual : List Branch :=
  (if c.includeEvent then BranchSet.event.entries else []) ++
    if c.includeGenerator then BranchSet.generator.entries else []

/-- The branches of the configuration, kind by kind: the usual ones, with its own functions where it has branches of
their kinds and names, and then the other branches of its own. -/
def sequence : List Branch := ReturnKind.all.flatMap fun k =>
  (c.usual.filter (·.kind = k)).map c.branches.updated ++
    (c.branches.entriesOf k).filter fun b => ¬∃ u ∈ c.usual, u.kind = k ∧ u.name = b.name

/-- The usual branches of a configuration, as a set. -/
def usualSet : BranchSet :=
  let events := if c.includeEvent then BranchSet.empty.merge .event else .empty
  if c.includeGenerator then events.merge .generator else events

theorem allBranches_eq : c.allBranches = c.usualSet.merge c.branches := rfl

theorem entriesOf_usualSet (k : ReturnKind) : c.usualSet.entriesOf k = c.usual.filter (·.kind = k) := by
  unfold usualSet usual
  cases c.includeEvent <;> cases c.includeGenerator <;>
    simp only [Bool.false_eq_true, if_true, if_false, BranchSet.empty_merge, List.filter_append, List.filter_nil,
      BranchSet.filter_entries, List.append_nil, List.nil_append, BranchSet.event_merge_generator]
  rfl

theorem mem_usualSet {b : Branch} : b ∈ c.usualSet.entries ↔ b ∈ c.usual := by
  have hkind : b ∈ c.usualSet.entries ↔ b ∈ c.usualSet.entriesOf b.kind := by
    rw [← BranchSet.filter_entries, List.mem_filter]
    simp
  rw [hkind, entriesOf_usualSet, List.mem_filter]
  simp

/-- **The branches of a configuration can be read off it.** -/
theorem entries_allBranches : c.allBranches.entries = c.sequence := by
  have hcovers (k : ReturnKind) : ∀ b ∈ c.branches.entriesOf k,
      (!c.usualSet.covers b) = decide ¬∃ u ∈ c.usual, u.kind = k ∧ u.name = b.name := by
    intro b hb
    obtain ⟨rfl, -⟩ := BranchSet.mem_entriesOf.1 hb
    rw [Bool.eq_iff_iff, Bool.not_eq_true', ← Bool.not_eq_true, BranchSet.covers_iff, decide_eq_true_iff]
    simp only [mem_usualSet]
  rw [allBranches_eq, BranchSet.entries, sequence]
  refine congrArg ReturnKind.all.flatMap (funext fun k => ?_)
  rw [BranchSet.entriesOf_merge, entriesOf_usualSet, List.filter_congr (hcovers k)]

/-- The branches of a configuration have the kinds and names of the usual ones and those of its own. -/
theorem forall_allBranches {P : ReturnKind → String → Prop} : (∀ b ∈ c.allBranches.entries, P b.kind b.name) ↔
    ∀ b ∈ c.usual ++ c.branches.entries, P b.kind b.name := by
  have hplace (b : Branch) : (∃ b' ∈ c.allBranches.entries, b'.kind = b.kind ∧ b'.name = b.name) ↔
      ∃ b' ∈ c.usual ++ c.branches.entries, b'.kind = b.kind ∧ b'.name = b.name := by
    rw [← BranchSet.covers_iff, allBranches_eq, BranchSet.covers_merge, Bool.or_eq_true, BranchSet.covers_iff,
      BranchSet.covers_iff]
    simp only [mem_usualSet, List.mem_append, or_and_right, exists_or]
    exact Or.comm
  constructor
  · intro h b hb
    obtain ⟨b', hb', hkind, hname⟩ := (hplace b).2 ⟨b, hb, rfl, rfl⟩
    exact hkind ▸ hname ▸ h b' hb'
  · intro h b hb
    obtain ⟨b', hb', hkind, hname⟩ := (hplace b).1 ⟨b, hb, rfl, rfl⟩
    exact hkind ▸ hname ▸ h b' hb'

theorem isOk_resolvedBranches : (∃ s, c.resolvedBranches = .ok s) ↔
    (∀ b ∈ c.usual ++ c.branches.entries, IsIdentifier b.name) ∧
    ∀ b ∈ c.usual ++ c.branches.entries, ∀ b' ∈ c.usual ++ c.branches.entries, b.name = b'.name → b.kind = b'.kind := by
  have hother (kind : ReturnKind) (name : String) := c.forall_allBranches (P := fun k n => name = n → kind = k)
  simp only [resolvedBranches_eq_ok, exists_and_left, exists_eq', and_true, BranchSet.validate_eq_ok_iff,
    BranchSet.nodup_names_iff, Branch.isName_iff, hother]
  rw [c.forall_allBranches (P := fun _ n => IsIdentifier n),
    c.forall_allBranches (P := fun k n => ∀ b' ∈ c.usual ++ c.branches.entries, n = b'.name → k = b'.kind)]

theorem resolvedBranches_eq_error {e : BranchError} : c.resolvedBranches = .error e ↔
    BranchSet.check [] c.sequence = .error e := by
  rw [resolvedBranches, BranchSet.validate, entries_allBranches]
  cases BranchSet.check [] c.sequence with
  | ok _ => simp [Bind.bind, Except.bind, pure, Except.pure]
  | error _ => simp [Bind.bind, Except.bind]

/-- **How the branches of a configuration are found.**  They are found if all names are identifiers and none is in two
kinds, and are then those of `sequence` in its order.  Else the first of them that is malformed or repeats a name is
refused. -/
theorem resolvedBranches_sequence (c : NtupleConfig) :
    ((∃ s, c.resolvedBranches = .ok s) ↔
      (∀ b ∈ c.usual ++ c.branches.entries, IsIdentifier b.name) ∧
      ∀ b ∈ c.usual ++ c.branches.entries, ∀ b' ∈ c.usual ++ c.branches.entries, b.name = b'.name → b.kind = b'.kind) ∧
    (∀ s, c.resolvedBranches = .ok s → s.entries = c.sequence) ∧
    ∀ e, c.resolvedBranches = .error e ↔ ∃ before b rest, c.sequence = before ++ b :: rest ∧
      (∀ b' ∈ before, IsIdentifier b'.name) ∧ (before.map Branch.name).Nodup ∧
      BranchSet.Faulty (before.map Branch.name) b e := by
  refine ⟨c.isOk_resolvedBranches, fun s hs => ?_, fun e => ?_⟩
  · obtain ⟨-, rfl⟩ := resolvedBranches_eq_ok.1 hs
    exact c.entries_allBranches
  · simp only [resolvedBranches_eq_error, BranchSet.check_eq_error_iff, BranchSet.check_eq_ok_iff, Branch.isName_iff,
      List.append_nil, List.not_mem_nil, not_false_eq_true, implies_true, and_true, and_assoc]

/-- A branch of one's own takes the place of a usual one of its kind, and is refused where its name is that of a usual
one of another kind. -/
theorem resolvedBranches_nTruePU_nvtx :
    let c (b : Branch) : NtupleConfig :=
      { object := .electron, branches := BranchSet.empty.insertAll [⟨.float, "pt", "pt"⟩, b], includeEvent := true,
        includeGenerator := true }
    let own : Branch := ⟨.float, "nTruePU", "-1"⟩
    let clash : Branch := ⟨.float, "nvtx", "pt"⟩
    (∃ s, (c own).resolvedBranches = .ok s ∧ (s.entriesOf .float).drop 5 =
      [⟨.float, "genWeight", "genWeight"⟩, ⟨.float, "nTruePU", "-1"⟩, ⟨.float, "pt", "pt"⟩]) ∧
    (c clash).resolvedBranches = .error (.duplicate "nvtx") ∧ ¬∃ s, (c clash).resolvedBranches = .ok s := by
  intro c own clash
  have hown : (c own).resolvedBranches = .ok (c own).allBranches := by
    rw [resolvedBranches, show (c own).allBranches.validate = .ok () by decide +kernel]
    rfl
  refine ⟨⟨_, hown, ?_⟩, ?_, fun hclash => ?_⟩
  · rw [← BranchSet.filter_entries, (resolvedBranches_sequence (c own)).2.1 _ hown]
    decide +kernel
  · rw [resolvedBranches, show (c clash).allBranches.validate = .error (.duplicate "nvtx") by decide +kernel]
    rfl
  · have hkinds := ((resolvedBranches_sequence (c clash)).1.1 hclash).2
    have hkind := hkinds clash (by decide +kernel) ⟨.uint, "nvtx", "nvtx"⟩ (by decide +kernel) rfl
    cases hkind

end NtupleConfig
end FlatNtuple
