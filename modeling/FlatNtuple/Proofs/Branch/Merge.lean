import FlatNtuple.Proofs.Branch.Set
/-!
# Merging sets of branches

A merge keeps the branches of the first set where they are and puts those that only the second one has behind them, kind
by kind (`entriesOf_merge`).  Sets with the same branches in the same order are the same, so the laws of merging are
about the order as well: they come from those of dictionaries, group by group (`merge_laws`).
-/
namespace FlatNtuple
namespace BranchSet

variable (s s' : BranchSet)

/-- Whether there is a branch of the kind and name of `b`. -/
def covers (b : Branch) : Bool := (s.group b.kind).contains b.name

/-- The branch with the function that the set has under its kind and name, if it has one. -/
def updated (b : Branch) : Branch := { b with function := ((s.group b.kind).get? b.name).getD b.function }

/-- **A merge lists the branches of the first set in their order, with the functions of the second if it has any for
them, and then those that only the second one has, in theirs.** -/
theorem entriesOf_merge (k : ReturnKind) : (s.merge s').entriesOf k =
    (s.entriesOf k).map s'.updated ++ (s'.entriesOf k).filter (!s.covers ·) := by
  rw [entriesOf, group_merge, OrderedMap.entries_insertAll_eq (s'.group k).nodup_keys, List.map_append, List.map_map,
    entriesOf, entriesOf, List.map_map, List.filter_map]
  congr 2
  refine List.filter_congr fun e _ => ?_
  rw [Function.comp_apply, covers, OrderedMap.contains_eq, decide_not]

/-! ## The laws -/

theorem eq_of_group {s s' : BranchSet} (h : ∀ k, s.group k = s'.group k) : s = s' := by
  cases s
  cases s'
  exact congrArg mk (funext h)

theorem empty_merge : empty.merge s = s :=
  eq_of_group fun k => by rw [group_merge, group_empty]; exact (s.group k).insertAll_entries_empty

theorem merge_empty : s.merge empty = s := rfl

theorem merge_self : s.merge s = s := eq_of_group fun k => by rw [group_merge, OrderedMap.insertAll_entries_self]

theorem merge_assoc (s₁ s₂ s₃ : BranchSet) : (s₁.merge s₂).merge s₃ = s₁.merge (s₂.merge s₃) :=
  eq_of_group fun k => by simp only [group_merge, OrderedMap.insertAll_insertAll]

/-! ## Sizes -/

theorem size_eq_length : s.size = s.entries.length := by
  simp [size, entries, entriesOf, ReturnKind.all, OrderedMap.size, Nat.add_assoc]

theorem covers_iff {b : Branch} : s.covers b ↔ ∃ b' ∈ s.entries, b'.kind = b.kind ∧ b'.name = b.name := by
  constructor
  · exact exists_mem_entries
  · rintro ⟨b', hb', hkind, hname⟩
    have hget : (s.group b.kind).get? b.name = some b'.function := hkind ▸ hname ▸ mem_entries.1 hb'
    rw [covers, OrderedMap.contains, hget, Option.isSome_some]

/-- **A merge is smaller than its parts together by the branches that they share.** -/
theorem size_merge : (s.merge s').size + (s'.entries.filter s.covers).length = s.size + s'.size := by
  have hkind (k : ReturnKind) : ((s.merge s').entriesOf k).length + ((s'.entriesOf k).filter s.covers).length =
      (s.entriesOf k).length + (s'.entriesOf k).length := by
    have hsplit := List.length_eq_length_filter_add s.covers (l := s'.entriesOf k)
    rw [entriesOf_merge, List.length_append, List.length_map]
    omega
  have hfloat := hkind .float
  have hbool := hkind .bool
  have hint := hkind .int
  have huint := hkind .uint
  have hulong := hkind .ulong
  simp only [size_eq_length, entries, ReturnKind.all, List.flatMap_cons, List.flatMap_nil, List.filter_append,
    List.length_append, List.append_nil]
  omega

/-- **Merging sets of branches is an ordered monoid in which the right side wins.**  Sets are the same if they list the
same branches in the same order. -/
theorem merge_laws (s₁ s₂ s₃ : BranchSet) :
    (s₁.merge s₂).merge s₃ = s₁.merge (s₂.merge s₃) ∧ empty.merge s₁ = s₁ ∧ s₁.merge empty = s₁ ∧ s₁.merge s₁ = s₁ ∧
    (s₁.merge s₂).entries = ReturnKind.all.flatMap (fun k =>
      (s₁.entriesOf k).map s₂.updated ++ (s₂.entriesOf k).filter (!s₁.covers ·)) ∧
    (s₁.merge s₂).size ≤ s₁.size + s₂.size ∧
    ((s₁.merge s₂).size = s₁.size + s₂.size ↔
      ∀ b ∈ s₁.entries, ∀ b' ∈ s₂.entries, b.kind = b'.kind → b.name ≠ b'.name) := by
  have hsize := size_merge s₁ s₂
  refine ⟨merge_assoc s₁ s₂ s₃, empty_merge s₁, merge_empty s₁, merge_self s₁, ?_, by omega, ?_⟩
  · exact congrArg ReturnKind.all.flatMap (funext (entriesOf_merge s₁ s₂))
  · have hshared : (s₁.merge s₂).size = s₁.size + s₂.size ↔ (s₂.entries.filter s₁.covers).length = 0 := by omega
    rw [hshared, List.length_eq_zero_iff, List.filter_eq_nil_iff]
    simp only [covers_iff]
    constructor
    · exact fun h b hb b' hb' hkind hname => h b' hb' ⟨b, hb, hkind, hname⟩
    · rintro h b' hb' ⟨b, hb, hkind, hname⟩
      exact h b hb b' hb' hkind hname

/-- A branch that both sets have stays in its place and takes the function of the second. -/
theorem merge_laws_generator :
    let own := empty.insertAll [⟨.float, "Pt", "pt"⟩, ⟨.float, "nTruePU", "-1"⟩, ⟨.int, "Charge", "Charge"⟩]
    (generator.merge own).entries = [⟨.float, "genWeight", "genWeight"⟩, ⟨.float, "nTruePU", "-1"⟩,
      ⟨.float, "Pt", "pt"⟩, ⟨.int, "Charge", "Charge"⟩] ∧
    (generator.merge own).size ≠ generator.size + own.size := by
  intro own
  obtain ⟨-, -, -, -, hentries, -, hsize⟩ := merge_laws generator own own
  refine ⟨hentries.trans (by decide +kernel), fun heq => ?_⟩
  have hshared : (⟨.float, "nTruePU", "nTruePU"⟩ : Branch) ∈ generator.entries := by decide +kernel
  have hown : (⟨.float, "nTruePU", "-1"⟩ : Branch) ∈ own.entries := by decide +kernel
  exact hsize.1 heq _ hshared _ hown rfl rfl

end BranchSet
end FlatNtuple
