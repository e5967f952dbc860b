import FlatNtuple.Proofs.Function.Layers
import FlatNtuple.Proofs.Function.Memo
import FlatNtuple.Proofs.Meaning.Erasure
/-!
# Functions of particles

Every record can be seen as a particle, so a function of particles is one of records too (`NamedFunction.comap`).  A
library of functions of records finds it under the name that it has in a library of functions of particles
(`get_of_particle`).  What comes first over records stands in nothing's way: the native functions of a type have names
that stand neither for a shared native function nor for an expression over particles.
-/
namespace FlatNtuple

variable {k : ReturnKind} {t : ObjectType} {name : String}

/-- The same function of records that are seen as particles. -/
def NamedFunction.comap (t : ObjectType) (f : NamedFunction k .particle) : NamedFunction k t :=
  ⟨f.name, f.origin, fun x => f.call (t.toParticle x)⟩

namespace Native

theorem shared_comap {α β : Type} (c : Candidate α) (f : β → α) (k : ReturnKind) :
    shared (c.comap f) k = (shared c k).map fun e => (e.1, fun x => e.2 (f x)) := by
  cases k with
  | float => simp [shared, Candidate.comap]
  | bool | int | uint | ulong => rfl

theorem lookup_shared (k : ReturnKind) (t : ObjectType) (name : String) :
    (shared t.candidate k).lookup name =
      ((shared Particle.candidate k).lookup name).map fun f x => f (t.toParticle x) := by
  rw [t.candidate_eq, shared_comap]
  exact lookup_map_snd (fun (f : Particle → Event → k.Carrier) x => f (t.toParticle x)) name _

/-- The names of the functions of a type are words that stand for nothing else. -/
theorem own_names (k : ReturnKind) (t : ObjectType) : ∀ name ∈ (own k t).map Prod.fst,
    Lexer.IsName name ∧ name ∉ (shared Particle.candidate k).map Prod.fst ∧
      name ∉ Accessor.shared.map Prod.fst := by
  cases k <;> cases t <;> decide +kernel

theorem get?_table_particle (k : ReturnKind) (name : String) : (table k .particle).get? name =
    ((shared Particle.candidate k).lookup name).map (⟨name, .shared, ·⟩) := by
  have hown : own k .particle = [] := by cases k <;> rfl
  rw [get?_table, hown]
  rfl

/-- A native function of particles is one of records. -/
theorem get?_table_of_particle {f : NamedFunction k .particle} (h : (table k .particle).get? name = some f) :
    (table k t).get? name = some (f.comap t) := by
  rw [get?_table_particle] at h
  obtain ⟨g, hg, rfl⟩ := Option.map_eq_some_iff.1 h
  have hown : (own k t).lookup name = none := by
    refine lookup_eq_none_iff_notMem.2 fun hmem => ?_
    cases hg.symm.trans (lookup_eq_none_iff_notMem.2 (own_names k t name hmem).2.1)
  rw [get?_table, hown, lookup_shared, hg]
  rfl

/-- A name that is read as an expression over particles is no native function of records. -/
theorem get?_table_of_compile {c : CompilerConfig} {f : Compiled k .particle}
    (h : (table k .particle).get? name = none) (hf : c.compile k .particle name = .ok f) :
    (table k t).get? name = none := by
  rw [get?_table_particle, Option.map_eq_none_iff] at h
  -- A native function of the type would have a name that is read as itself, and no accessor goes by it.
  have hown : (own k t).lookup name = none := by
    refine lookup_eq_none_iff_notMem.2 fun hmem => ?_
    obtain ⟨hname, -, haccessor⟩ := own_names k t name hmem
    exact compile_particle_ne_ok hname (lookup_eq_none_iff_notMem.2 haccessor) f hf
  rw [get?_table, hown, lookup_shared, h]
  rfl

end Native

namespace FunctionLibrary

/-- **What a name stands for over particles it stands for over the records of any type.** -/
theorem follows_resolve {l : FunctionLibrary k .particle} {l' : FunctionLibrary k t} (h : l'.compiler = l.compiler)
    (name : String) : Follows (NamedFunction.comap t) (l.resolve name) (l'.resolve name) := by
  unfold resolve native
  by_cases hempty : name = ""
  · rw [if_pos hempty]
    exact .error
  rw [if_neg hempty, if_neg hempty, h]
  cases hnative : (Native.table k .particle).get? name with
  | some f =>
    rw [Native.get?_table_of_particle hnative]
    exact .ok
  | none =>
    cases hcompile : l.compiler.compile k .particle name with
    | error => exact .error
    | ok f =>
      rw [Native.get?_table_of_compile hnative hcompile, l.compiler.follows_compile k t name f hcompile]
      exact .ok

/-- **Every function of particles is one of the records of any type.**  What a library of functions of particles finds
under a name, a library of functions of records with the same compiler finds too, whatever either was asked before, and
its values are those of the particles that the records are seen as. -/
theorem get_of_particle (c : CompilerConfig) (k : ReturnKind) (t : ObjectType) (asked asked' : List String)
    {name : String} {f : NamedFunction k .particle}
    (h : ((({ compiler := c } : FunctionLibrary k .particle).after asked).get name).1 = .ok f) :
    ∃ g, ((({ compiler := c } : FunctionLibrary k t).after asked').get name).1 = .ok g ∧
      g.name = f.name ∧ g.origin = f.origin ∧ ∀ x e, g.call x e = f.call (t.toParticle x) e := by
  have hparticle := (remembers_nil (k := k) (t := .particle) c).after asked
  have hrecord := (remembers_nil (k := k) (t := t) c).after asked'
  rw [(hparticle.get name).1] at h
  refine ⟨f.comap t, ?_, rfl, rfl, fun _ _ => rfl⟩
  rw [(hrecord.get name).1]
  exact follows_resolve (hrecord.compiler.trans hparticle.compiler.symm) name f h

/-- The daughter of a daughter, over composites. -/
theorem get_of_particle_composite :
    ∃ f g, (({ compiler := {} } : FunctionLibrary .bool .particle).get "daughter[1].daughter(0).pt > mass").1 = .ok f ∧
      (({ compiler := {} } : FunctionLibrary .bool .composite).get "daughter[1].daughter(0).pt > mass").1 = .ok g ∧
      ∀ x e, g.call x e = f.call (.composite x) e := by
  have hok : (({ compiler := {} } : FunctionLibrary .bool .particle).get
      "daughter[1].daughter(0).pt > mass").1.isOk := by decide +kernel
  obtain ⟨f, hf⟩ := exists_of_isOk hok
  obtain ⟨g, hg, -, -, hcall⟩ := get_of_particle {} .bool .composite [] [] hf
  exact ⟨f, g, hf, hg, hcall⟩

end FunctionLibrary
end FlatNtuple
