import Mathlib
import FlatNtuple.Branch.Ntuple
import FlatNtuple.Proofs.Function.Memo
/-!
# Sharing libraries

An ntuple does not depend on what its libraries were used for before (`ofBranches_after`).  Every use of a set of
libraries is a sequence of lookups in them, so each library still remembers nothing but compiled names (`Serves`).
-/
namespace FlatNtuple

open FunctionLibrary (Remembers remembers_nil)

namespace LibrarySet

variable {t : ObjectType}

/-- What a set of libraries is used for. -/
inductive Use
  | lookup (kind : ReturnKind) (name : String)
  | ntuple (branches : BranchSet)

def use (s : LibrarySet t) : Use → LibrarySet t
  | .lookup kind name => (s.get kind name).2
  | .ntuple branches => (Ntuple.ofBranches branches s).2

/-- The libraries after some uses, of which each may have failed. -/
def after (s : LibrarySet t) (uses : List Use) : LibrarySet t := uses.foldl use s

/-- Some ntuples, built one after the other. -/
def ntuples (s : LibrarySet t) : List BranchSet → List (Except LibraryError (Ntuple t))
  | [] => []
  | branches :: rest => (Ntuple.ofBranches branches s).1 :: (Ntuple.ofBranches branches s).2.ntuples rest

/-- The libraries share a compiler, and each remembers the names it was asked for. -/
def Serves (s : LibrarySet t) (c : CompilerConfig) : Prop := ∀ k, ∃ names, Remembers (s.library k) c names

section
variable {s s' : LibrarySet t} {c : CompilerConfig}

theorem serves_ofCompiler (c : CompilerConfig) : (ofCompiler c : LibrarySet t).Serves c :=
  fun _ => ⟨[], remembers_nil c⟩

theorem Serves.get (h : s.Serves c) (k : ReturnKind) (name : String) : (s.get k name).2.Serves c := by
  intro k'
  obtain ⟨names, hk⟩ := h k
  by_cases hkk : k = k'
  · subst hkk
    refine ⟨names ++ [name], ?_⟩
    rw [LibrarySet.get, library_set]
    exact (hk.get name).2
  · rw [LibrarySet.get, library_set_of_ne s _ hkk]
    exact h k'

/-- Libraries of one compiler answer alike. -/
theorem Serves.get_eq (h : s.Serves c) (h' : s'.Serves c) (k : ReturnKind) (name : String) :
    (s.get k name).1 = (s'.get k name).1 := by
  obtain ⟨names, hk⟩ := h k
  obtain ⟨names', hk'⟩ := h' k
  exact congrArg (Except.map _) (hk.get_eq hk' name)

theorem columns_cons (s : LibrarySet t) (b : Branch) (bs : List Branch) : s.columns (b :: bs) =
    match (s.get b.kind b.function).1 with
    | .error e => (.error e, (s.get b.kind b.function).2)
    | .ok f => (((s.get b.kind b.function).2.columns bs).1.map ((b.name, f) :: ·),
        ((s.get b.kind b.function).2.columns bs).2) := by
  rw [columns]
  generalize s.get b.kind b.function = p
  obtain ⟨_ | _, _⟩ := p <;> rfl

theorem Serves.columns (h : s.Serves c) (bs : List Branch) : (s.columns bs).2.Serves c := by
  induction bs generalizing s with
  | nil => exact h
  | cons b bs ih =>
    have hget := h.get b.kind b.function
    rw [columns_cons]
    split
    · exact hget
    · exact ih hget

theorem Serves.columns_eq (h : s.Serves c) (h' : s'.Serves c) (bs : List Branch) :
    (s.columns bs).1 = (s'.columns bs).1 := by
  induction bs generalizing s s' with
  | nil => rfl
  | cons b bs ih =>
    rw [columns_cons, columns_cons, h.get_eq h' b.kind b.function]
    split
    · rfl
    · exact congrArg (Except.map _) (ih (h.get b.kind b.function) (h'.get b.kind b.function))

/-- **The columns fail with the first branch that has no function.** -/
theorem Serves.columns_eq_error_iff (h : s.Serves c) (bs : List Branch) (e : LibraryError) :
    (s.columns bs).1 = .error e ↔ ∃ before b rest, bs = before ++ b :: rest ∧
      (∀ b' ∈ before, ∃ f, (s.get b'.kind b'.function).1 = .ok f) ∧ (s.get b.kind b.function).1 = .error e := by
  induction bs generalizing s with
  | nil => simp [LibrarySet.columns]
  | cons b bs ih =>
    have hget := h.get b.kind b.function
    rw [columns_cons]
    cases hb : (s.get b.kind b.function).1 with
    | error e' =>
      constructor
      · rintro ⟨⟩
        exact ⟨[], b, bs, rfl, nofun, hb⟩
      · rintro ⟨_ | ⟨b', before⟩, b₁, rest, ⟨⟩, hbefore, hb₁⟩
        · exact congrArg Except.error (Except.error.inj (hb.symm.trans hb₁))
        · obtain ⟨f, hf⟩ := hbefore b List.mem_cons_self
          cases hb.symm.trans hf
    | ok f =>
      have hmap : ((s.get b.kind b.function).2.columns bs).1.map ((b.name, f) :: ·) = .error e ↔
          ((s.get b.kind b.function).2.columns bs).1 = .error e := by
        cases ((s.get b.kind b.function).2.columns bs).1 <;> simp [Except.map]
      simp only [hmap, ih hget, hget.get_eq h]
      constructor
      · rintro ⟨before, b₁, rest, rfl, hbefore, hb₁⟩
        exact ⟨b :: before, b₁, rest, rfl, List.forall_mem_cons.2 ⟨⟨f, hb⟩, hbefore⟩, hb₁⟩
      · rintro ⟨_ | ⟨b', before⟩, b₁, rest, ⟨⟩, hbefore, hb₁⟩
        · cases hb.symm.trans hb₁
        · exact ⟨before, b₁, rest, rfl, (List.forall_mem_cons.1 hbefore).2, hb₁⟩

theorem Serves.ofBranches (h : s.Serves c) (branches : BranchSet) : (Ntuple.ofBranches branches s).2.Serves c :=
  h.columns branches.entries

theorem Serves.ofBranches_eq (h : s.Serves c) (h' : s'.Serves c) (branches : BranchSet) :
    (Ntuple.ofBranches branches s).1 = (Ntuple.ofBranches branches s').1 :=
  congrArg (Except.map _) (h.columns_eq h' branches.entries)

theorem Serves.after (h : s.Serves c) (uses : List Use) : (s.after uses).Serves c := by
  induction uses generalizing s with
  | nil => exact h
  | cons u uses ih =>
    refine ih ?_
    cases u with
    | lookup kind name => exact h.get kind name
    | ntuple branches => exact h.ofBranches branches

theorem Serves.ntuples_eq (h : s.Serves c) (h' : s'.Serves c) (sets : List BranchSet) :
    s.ntuples sets = sets.map fun branches => (Ntuple.ofBranches branches s').1 := by
  induction sets generalizing s with
  | nil => rfl
  | cons branches sets ih => rw [ntuples, List.map_cons, h.ofBranches_eq h', ih (h.ofBranches branches)]

end
end LibrarySet

open LibrarySet

/-- **Sharing libraries does not change an ntuple.**  Over libraries that have been used for anything, an ntuple comes
out as over libraries of its own: the same columns, which are all that names and rows are made from, or the same error,
the one of the first branch that has no function.  So ntuples that share libraries come out the same in any order. -/
theorem Ntuple.ofBranches_after {t : ObjectType} {c : NtupleConfig} {branches : BranchSet} (hkind : c.object = t.kind)
    (hbranches : c.resolvedBranches = .ok branches) (uses : List Use) :
    let new : LibrarySet t := .ofCompiler c.compiler
    let s := new.after uses
    (Ntuple.ofBranches branches s).1.mapError NtupleError.library = Ntuple.ofConfig t c ∧
    (∀ e, (Ntuple.ofBranches branches s).1 = .error e ↔ ∃ before b rest, branches.entries = before ++ b :: rest ∧
      (∀ b' ∈ before, ∃ f, (new.get b'.kind b'.function).1 = .ok f) ∧ (new.get b.kind b.function).1 = .error e) ∧
    ∀ sets, s.ntuples sets = sets.map fun branches => (Ntuple.ofBranches branches new).1 := by
  intro new s
  have hnew : new.Serves c.compiler := serves_ofCompiler c.compiler
  have hs : s.Serves c.compiler := hnew.after uses
  refine ⟨?_, fun e => ?_, hs.ntuples_eq hnew⟩
  · rw [Ntuple.ofConfig, if_neg (not_not.2 hkind), hbranches, hs.ofBranches_eq hnew]
    dsimp only
    cases (Ntuple.ofBranches branches new).1 <;> rfl
  · rw [← hnew.columns_eq_error_iff, hs.ofBranches_eq hnew, Ntuple.ofBranches]
    dsimp only
    cases (new.columns branches.entries).1 <;> simp [Except.map]

theorem Ntuple.ofBranches_after_failures :
    let c : NtupleConfig :=
      { object := .muon, branches := (BranchSet.empty.insert ⟨.float, "Pt", "pt"⟩).insert ⟨.bool, "High", "pt > 20"⟩ }
    let s : LibrarySet .muon := (LibrarySet.ofCompiler c.compiler).after
      [.lookup .bool "pt >", .ntuple (BranchSet.empty.insert ⟨.float, "Bad", "pt +"⟩), .lookup .float "pt > 20"]
    c.object = ObjectType.muon.kind ∧ c.resolvedBranches = .ok c.allBranches ∧ (Ntuple.ofConfig .muon c).isOk ∧
      (Ntuple.ofBranches c.allBranches s).1.mapError NtupleError.library = Ntuple.ofConfig .muon c := by
  intro c s
  have hbranches : c.resolvedBranches = .ok c.allBranches := by
    rw [NtupleConfig.resolvedBranches, show c.allBranches.validate = .ok () by cbv]
    rfl
  exact ⟨rfl, hbranches, by decide +kernel, (ofBranches_after (t := .muon) rfl hbranches _).1⟩

end FlatNtuple
