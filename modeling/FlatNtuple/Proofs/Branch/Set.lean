import FlatNtuple.Branch.Config
import FlatNtuple.Proofs.Dictionary
import FlatNtuple.Proofs.Except
/-!
# What sets of branches hold

A set holds one function for each kind and name (`mem_entries`), and a merge of two sets that of the second where both
have one (`get?_merge`).  So the branches of a configuration are those of its own and the usual ones beside them
(`get?_allBranches`), and each has a name of its own if they pass the check (`validate_eq_ok_iff`).
-/
namespace FlatNtuple
namespace BranchSet

variable {s s' : BranchSet} {b : Branch} {k : ReturnKind} {name : String}

/-! ## Entries -/

theorem mem_entriesOf : b ∈ s.entriesOf k ↔ b.kind = k ∧ (s.group k).get? b.name = some b.function := by
  rw [entriesOf, List.mem_map, ← OrderedMap.mem_entries_iff]
  constructor
  · rintro ⟨e, he, rfl⟩
    exact ⟨rfl, he⟩
  · rintro ⟨rfl, he⟩
    exact ⟨_, he, rfl⟩

/-- **A branch is in a set if the set has its function under its kind and name.** -/
theorem mem_entries : b ∈ s.entries ↔ (s.group b.kind).get? b.name = some b.function := by
  rw [entries, List.mem_flatMap]
  constructor
  · rintro ⟨k, -, hb⟩
    obtain ⟨rfl, hget⟩ := mem_entriesOf.1 hb
    exact hget
  · intro hget
    exact ⟨b.kind, ReturnKind.mem_all b.kind, mem_entriesOf.2 ⟨rfl, hget⟩⟩

theorem exists_mem_entries (h : ((s.group k).get? name).isSome) : ∃ b ∈ s.entries, b.kind = k ∧ b.name = name := by
  obtain ⟨f, hf⟩ := Option.isSome_iff_exists.1 h
  exact ⟨⟨k, name, f⟩, mem_entries.2 hf, rfl, rfl⟩

/-- The branches of one kind among all. -/
theorem filter_entries (s : BranchSet) (k : ReturnKind) : s.entries.filter (·.kind = k) = s.entriesOf k := by
  have hkind (k' : ReturnKind) : (s.entriesOf k').filter (·.kind = k) = if k' = k then s.entriesOf k' else [] := by
    split
    · rename_i hk
      exact List.filter_eq_self.2 fun b hb => decide_eq_true ((mem_entriesOf.1 hb).1.trans hk)
    · rename_i hk
      exact List.filter_eq_nil_iff.2 fun b hb he => hk ((mem_entriesOf.1 hb).1.symm.trans (of_decide_eq_true he))
  rw [entries, List.filter_flatMap]
  simp only [hkind]
  cases k <;> simp [ReturnKind.all]

/-! ## Merges -/

theorem group_insertAll (s : BranchSet) (l : List Branch) (k : ReturnKind) : (s.insertAll l).group k =
    (s.group k).insertAll ((l.filter (·.kind = k)).map fun b => (b.name, b.function)) := by
  induction l generalizing s with
  | nil => rfl
  | cons b l ih =>
    have hall : (s.insertAll (b :: l)).group k = ((s.insert b).insertAll l).group k := rfl
    rw [hall, ih, group_insert, List.filter_cons]
    by_cases hk : b.kind = k
    · simp [hk, OrderedMap.insertAll]
    · simp [hk, Ne.symm hk]

theorem group_merge (s s' : BranchSet) (k : ReturnKind) :
    (s.merge s').group k = (s.group k).insertAll (s'.group k).entries := by
  rw [merge, group_insertAll, filter_entries, entriesOf, List.map_map]
  congr 1
  exact List.map_id _

/-- **A merge has the branches of both sets**, with the functions of the second where they share a branch. -/
theorem get?_merge (s s' : BranchSet) (k : ReturnKind) (name : String) :
    ((s.merge s').group k).get? name = ((s'.group k).get? name).or ((s.group k).get? name) := by
  rw [group_merge, OrderedMap.get?_insertAll (s'.group k).nodup_keys]
  rfl

/-! ## The check -/

theorem check_eq_ok_iff {seen : List String} {bs : List Branch} : check seen bs = .ok () ↔
    (∀ b ∈ bs, Branch.isName b.name) ∧ (bs.map Branch.name).Nodup ∧ ∀ b ∈ bs, b.name ∉ seen := by
  induction bs generalizing seen with
  | nil => simp [check]
  | cons b bs ih =>
    rw [check, List.forall_mem_cons, List.forall_mem_cons, List.map_cons, List.nodup_cons]
    by_cases hname : Branch.isName b.name
    · by_cases hseen : b.name ∈ seen
      · simp [hname, hseen]
      · rw [if_neg (by simp [hname]), if_neg hseen, ih]
        constructor
        · rintro ⟨hnames, hnodup, hnew⟩
          have hb : b.name ∉ bs.map Branch.name := by
            rw [List.mem_map]
            rintro ⟨b', hb', he⟩
            exact hnew b' hb' (he ▸ List.mem_cons_self)
          exact ⟨⟨hname, hnames⟩, ⟨hb, hnodup⟩, hseen, fun b' hb' h => hnew b' hb' (List.mem_cons_of_mem _ h)⟩
        · rintro ⟨⟨-, hnames⟩, ⟨hb, hnodup⟩, -, hnew⟩
          refine ⟨hnames, hnodup, fun b' hb' h => ?_⟩
          rcases List.mem_cons.1 h with he | h
          · exact hb (he ▸ List.mem_map_of_mem hb')
          · exact hnew b' hb' h
    · simp [hname]

/-- **The check passes if all names are identifiers and all are different.** -/
theorem validate_eq_ok_iff : s.validate = .ok () ↔
    (∀ b ∈ s.entries, Branch.isName b.name) ∧ (s.entries.map Branch.name).Nodup := by
  rw [validate, check_eq_ok_iff]
  simp

end BranchSet

namespace NtupleConfig

variable {c : NtupleConfig} {branches : BranchSet}

theorem resolvedBranches_eq_ok : c.resolvedBranches = .ok branches ↔
    c.allBranches.validate = .ok () ∧ c.allBranches = branches := by
  rw [resolvedBranches, bind_eq_ok]
  simp only [pure_eq_ok]
  exact ⟨fun ⟨_, h⟩ => h, fun h => ⟨(), h⟩⟩

/-- **The branches of a configuration are its own, and the usual ones that it includes and does not replace.** -/
theorem get?_allBranches (c : NtupleConfig) (k : ReturnKind) (name : String) :
    (c.allBranches.group k).get? name = (((c.branches.group k).get? name).or
      (if c.includeGenerator then (BranchSet.generator.group k).get? name else none)).or
      (if c.includeEvent then (BranchSet.event.group k).get? name else none) := by
  have hempty : (BranchSet.empty.group k).get? name = none := rfl
  unfold allBranches
  cases c.includeGenerator <;> cases c.includeEvent <;>
    simp only [BranchSet.get?_merge, hempty, Bool.false_eq_true, if_true, if_false, Option.or_none, Option.or_assoc]

end NtupleConfig
end FlatNtuple
