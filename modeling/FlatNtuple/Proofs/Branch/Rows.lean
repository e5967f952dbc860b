import FlatNtuple.Proofs.Branch.Set
import FlatNtuple.Proofs.Branch.Sharing
/-!
# Rows of an ntuple

A row is a dictionary, in which a value takes the place of another one of its name.  None does so in the rows of an
ntuple that was made from a configuration: its branches passed the check, so their names are different, and its columns
are those of the branches, one by one (`columns_eq_ok_iff`).  So every row holds just the values of the branches, in
their order (`fillAll_rows`).
-/
namespace FlatNtuple

open LibrarySet (Use Serves serves_ofCompiler)

variable {t : ObjectType} {s : LibrarySet t}

namespace LibrarySet

theorem kind_eq_of_get {k : ReturnKind} {name : String} {f : AnyFunction t} (h : (s.get k name).1 = .ok f) :
    f.kind = k := by
  obtain ⟨g, -, rfl⟩ := map_eq_ok.1 h
  rfl

/-- **The columns are those of the branches**, in their order, with the functions that are found for them. -/
theorem Serves.columns_eq_ok_iff {c : CompilerConfig} (h : s.Serves c) (bs : List Branch)
    (cs : List (String × AnyFunction t)) : (s.columns bs).1 = .ok cs ↔
      List.Forall₂ (fun b c => c.1 = b.name ∧ (s.get b.kind b.function).1 = .ok c.2) bs cs := by
  induction bs generalizing s cs with
  | nil => simp [LibrarySet.columns, eq_comm]
  | cons b bs ih =>
    -- The other branches are looked up in libraries that have been asked for the first one, which answer as before.
    have hget := h.get b.kind b.function
    have htail (cs' : List (String × AnyFunction t)) := ih hget cs'
    simp only [hget.get_eq h] at htail
    rw [columns_cons, List.forall₂_cons_left_iff]
    cases hb : (s.get b.kind b.function).1 with
    | error e => simp
    | ok f =>
      constructor
      · intro hcs
        obtain ⟨cs', hcs', rfl⟩ := map_eq_ok.1 hcs
        exact ⟨_, cs', ⟨rfl, rfl⟩, (htail cs').1 hcs', rfl⟩
      · rintro ⟨⟨name, g⟩, cs', ⟨rfl, hg⟩, hcs', rfl⟩
        cases hg
        exact map_eq_ok.2 ⟨cs', (htail cs').2 hcs', rfl⟩

end LibrarySet

/-- A row of some branches: their values in their order, each of the kind of its branch and from the function that is
found for the branch. -/
structure Row.Holds (row : Row) (branches : List Branch) (s : LibrarySet t) (x : t.Record) (e : Event) : Prop where
  names : row.keys = branches.map Branch.name
  values : List.Forall₂
    (fun b v => v.kind = b.kind ∧ ∃ f, (s.get b.kind b.function).1 = .ok f ∧ f.call x e = v)
    branches (row.entries.map Prod.snd)

namespace Ntuple

variable {n : Ntuple t} {bs : List Branch} {c : NtupleConfig}

theorem ofConfig_eq_ok : ofConfig t c = .ok n ↔ c.object = t.kind ∧ ∃ branches, c.resolvedBranches = .ok branches ∧
    ((LibrarySet.ofCompiler c.compiler : LibrarySet t).columns branches.entries).1 = .ok n.columns := by
  have hbranches (branches : BranchSet) : (ofBranches branches (.ofCompiler c.compiler)).1 = .ok n ↔
      ((LibrarySet.ofCompiler c.compiler : LibrarySet t).columns branches.entries).1 = .ok n.columns := by
    rw [ofBranches, map_eq_ok]
    exact ⟨by rintro ⟨cs, hcs, rfl⟩; exact hcs, fun hcs => ⟨n.columns, hcs, rfl⟩⟩
  unfold ofConfig
  by_cases hkind : c.object = t.kind
  · rw [if_neg (not_not.2 hkind)]
    cases c.resolvedBranches with
    | error => simp
    | ok branches =>
      simp only [hkind, true_and, Except.ok.injEq, exists_eq_left', ← hbranches]
      cases (ofBranches branches (.ofCompiler c.compiler)).1 <;> simp
  · simp [hkind]

theorem branchNames_eq {R : Branch → String × AnyFunction t → Prop} (hR : ∀ b c, R b c → c.1 = b.name)
    (h : List.Forall₂ R bs n.columns) : n.branchNames = bs.map Branch.name := by
  have hnames : List.Forall₂ (· = ·) (bs.map Branch.name) (n.columns.map Prod.fst) :=
    List.forall₂_map_left_iff.2 (List.forall₂_map_right_iff.2 (h.imp fun b c hbc => (hR b c hbc).symm))
  rw [List.forall₂_eq_eq_eq] at hnames
  exact hnames.symm

/-- With different names, a row keeps every value that is put into it. -/
theorem entries_fill (hnames : n.branchNames.Nodup) (x : t.Record) (e : Event) :
    (n.fill x e).entries = n.columns.map fun c => (c.1, c.2.call x e) := by
  refine OrderedMap.entries_ofList ?_
  rw [List.map_map]
  exact hnames

/-- **The row of an object holds the values of the branches.** -/
theorem fill_holds (h : List.Forall₂ (fun b c => c.1 = b.name ∧ (s.get b.kind b.function).1 = .ok c.2) bs n.columns)
    (hnames : (bs.map Branch.name).Nodup) (x : t.Record) (e : Event) : (n.fill x e).Holds bs s x e := by
  have hcolumns : n.branchNames = bs.map Branch.name := branchNames_eq (fun _ _ hbc => hbc.1) h
  have hentries := entries_fill (hcolumns ▸ hnames) x e
  constructor
  · rw [OrderedMap.keys, hentries, List.map_map]
    exact hcolumns
  · rw [hentries, List.map_map, List.forall₂_map_right_iff]
    refine h.imp fun b c hbc => ⟨?_, c.2, hbc.2, rfl⟩
    rw [Function.comp_apply, AnyFunction.kind_call]
    exact LibrarySet.kind_eq_of_get hbc.2

/-- **No branch is lost, duplicated, reordered or given another kind.**  An ntuple that is made from a configuration has
the columns of the configuration's branches, kind by kind and in their order, all of different names; its own branches
are among them, and the usual ones that it includes, perhaps with functions of its own.  The objects of an event get a
row each, in their order, and a row holds the values of all branches: each is of the kind of its branch, and is what
libraries that share the configuration's compiler find for the branch, whatever they were used for before. -/
theorem fillAll_rows (h : ofConfig t c = .ok n) :
    ∃ branches, c.resolvedBranches = .ok branches ∧
      n.branchNames = branches.entries.map Branch.name ∧ n.branchNames.Nodup ∧
      (∀ b ∈ c.branches.entries, b ∈ branches.entries) ∧
      (c.includeEvent → ∀ b ∈ BranchSet.event.entries, ∃ b' ∈ branches.entries, b'.kind = b.kind ∧ b'.name = b.name) ∧
      (c.includeGenerator → ∀ b ∈ BranchSet.generator.entries,
        ∃ b' ∈ branches.entries, b'.kind = b.kind ∧ b'.name = b.name) ∧
      ∀ (uses : List Use) (xs : List t.Record) (e : Event),
        List.Forall₂ (fun x row => row.Holds branches.entries ((LibrarySet.ofCompiler c.compiler).after uses) x e)
          xs (n.fillAll xs e) := by
  obtain ⟨-, branches, hbranches, hcolumns⟩ := ofConfig_eq_ok.1 h
  obtain ⟨hvalid, rfl⟩ := NtupleConfig.resolvedBranches_eq_ok.1 hbranches
  have hnew : (LibrarySet.ofCompiler c.compiler : LibrarySet t).Serves c.compiler := serves_ofCompiler c.compiler
  have hnames := (BranchSet.validate_eq_ok_iff.1 hvalid).2
  have hbranchNames : n.branchNames = c.allBranches.entries.map Branch.name :=
    branchNames_eq (fun _ _ hbc => hbc.1) ((hnew.columns_eq_ok_iff _ _).1 hcolumns)
  refine ⟨c.allBranches, hbranches, hbranchNames, hbranchNames ▸ hnames, fun b hb => ?_, fun hevent b hb => ?_,
    fun hgenerator b hb => ?_, fun uses xs e => ?_⟩
  · rw [BranchSet.mem_entries, NtupleConfig.get?_allBranches, BranchSet.mem_entries.1 hb]
    rfl
  · refine BranchSet.exists_mem_entries ?_
    rw [NtupleConfig.get?_allBranches, if_pos hevent, BranchSet.mem_entries.1 hb]
    simp
  · refine BranchSet.exists_mem_entries ?_
    rw [NtupleConfig.get?_allBranches, if_pos hgenerator, BranchSet.mem_entries.1 hb]
    simp
  · have hs := hnew.after uses
    rw [hnew.columns_eq hs, hs.columns_eq_ok_iff] at hcolumns
    rw [fillAll, List.forall₂_map_right_iff, List.forall₂_same]
    exact fun x _ => fill_holds hcolumns hnames x e

/-- Muons of a simulated event, where a branch of the simulation has another function. -/
theorem fillAll_rows_muon :
    let c : NtupleConfig :=
      { object := .muon, includeGenerator := true
        branches := .insertAll .empty [⟨.bool, "High", "pt > 20"⟩, ⟨.float, "Pt", "pt"⟩, ⟨.float, "genWeight", "1"⟩] }
    ∃ n, ofConfig .muon c = .ok n ∧ n.branchNames = ["genWeight", "nTruePU", "Pt", "High"] ∧
      ∀ xs e, (n.fillAll xs e).length = xs.length := by
  intro c
  have hok : (ofConfig .muon c).isOk := by decide +kernel
  obtain ⟨n, hn⟩ := exists_of_isOk hok
  obtain ⟨branches, hbranches, hnames, -, -, -, -, hrows⟩ := fillAll_rows hn
  obtain ⟨-, rfl⟩ := NtupleConfig.resolvedBranches_eq_ok.1 hbranches
  exact ⟨n, hn, hnames.trans (by decide +kernel), fun xs e => (hrows [] xs e).length_eq.symm⟩

end Ntuple
end FlatNtuple
