import FlatNtuple.Proofs.Dictionary
import FlatNtuple.Proofs.Expr.RoundTrip
import FlatNtuple.Proofs.Meaning.Alike
/-!
# Seen as a particle

A record of any type can be seen as a particle, which forgets the quantities of its type.  What an expression means over
particles it means over the records too: its meaning there is that over particles, taken of the particle that a record
is seen as (`follows_bind`).  The meanings are built up alike from the accessors, so this comes down to the roots of a
tree, where the accessors of a type come before the shared ones: no name is among both.
-/
namespace FlatNtuple

/-- A particle is what a record is seen as. -/
def SeenAs (t : ObjectType) (p : Particle) (x : t.Record) : Prop := p = t.toParticle x

namespace Meaning

variable {α β : Type} {f : β → α}

/-- The same meaning for objects that are seen as others. -/
def comap (f : β → α) : Meaning α → Meaning β
  | number g => .number fun x => g (f x)
  | boolean g => .boolean fun x => g (f x)
  | object g => .object fun x => g (f x)
  | text => .text

theorem Alike.eq_comap {t : ObjectType} {m : Meaning Particle} {m' : Meaning t.Record} (h : Alike (SeenAs t) m m') :
    m' = m.comap t.toParticle := by
  cases h with
  | number h | boolean h | object h =>
    rw [comap]
    congr 1
    funext x
    exact (h _ x rfl).symm
  | text => rfl

theorem follows_result (k : ReturnKind) (m : Meaning α) :
    Follows (· ∘ f) (m.result k) ((m.comap f).result k) := by
  cases m with
  | number | boolean => exact .ok
  | object | text => exact .error

end Meaning

theorem Accessor.apply_comap {α β : Type} (a : Accessor α) (f : β → α) (name : String) (args : List Expr) :
    (a.comap f).apply some name args = a.apply (some ∘ f) name args := by
  cases a <;> rfl

namespace ObjectType

variable {t : ObjectType}

/-- No name is both an accessor of a type and a shared one. -/
theorem own_disjoint_shared (t : ObjectType) : ∀ name ∈ t.own.map Prod.fst, name ∉ Accessor.shared.map Prod.fst := by
  cases t <;> decide +kernel

theorem accessor?_of_shared {name : String} {a : Accessor Particle} (h : Accessor.shared.lookup name = some a) :
    t.accessor? name = some (a.comap t.toParticle) := by
  have hown : t.own.lookup name = none := by
    refine lookup_eq_none_iff_notMem.2 fun hmem => ?_
    cases h.symm.trans (lookup_eq_none_iff_notMem.2 (t.own_disjoint_shared name hmem))
  rw [accessor?, hown, lookup_ofCandidate, h, Option.map_some]

theorem accessor?_particle (name : String) : particle.accessor? name = Accessor.shared.lookup name := rfl

/-- An accessor of particles is one of the records. -/
theorem parallel_root (t : ObjectType) (name : String) (args : List Expr) :
    Parallel False (Meaning.Alike (SeenAs t)) (particle.root name args) (t.root name args) := by
  unfold root
  rw [accessor?_particle]
  cases h : Accessor.shared.lookup name with
  | none => exact .error_of_not id
  | some a =>
    simp only [accessor?_of_shared h, Accessor.apply_comap]
    exact a.alike_apply (fun _ _ h => congrArg some h) name args

end ObjectType

/-! ## Trees -/

theorem Expr.parallel_bind (t : ObjectType) (e : Expr) :
    Parallel False (Meaning.Alike (SeenAs t)) (e.bind .particle) (e.bind t) := by
  induction e using Expr.bindInduction with
  | literal l => exact .ok l.alike_meaning
  | name n => exact t.parallel_root n []
  | call n args hn =>
    rw [bind_call hn, bind_call hn]
    exact t.parallel_root n args
  | builtin n f args hn harity ih => exact parallel_builtin .particle t hn harity (List.forall₂_same.2 ih)
  | misfit n f args hn harity => exact parallel_misfit .particle t hn harity rfl
  | member base n ih => exact ih.bind fun _ _ hm => hm.member n []
  | memberCall base n args ih => exact ih.bind fun _ _ hm => hm.member n args
  | indexName n i => exact (t.parallel_root n [i]).bind fun _ _ hm => hm.indexed n
  | indexMember base n i ih => exact ih.bind fun _ _ hm => (hm.member n [i]).bind fun _ _ hm => hm.indexed n
  | indexOther base i hname hmember =>
    rw [bind_index_error hname hmember]
    exact .error_of_not id
  | binary op l r ihl ihr => exact ihl.bind fun _ _ hl => ihr.bind fun _ _ hr => hl.binary op hr
  | unary op e ih => exact ih.bind fun _ _ hm => hm.unary op
  | conditional c l r ihc ihl ihr =>
    exact ihc.bind fun _ _ hm => hm.asBoolean.bind fun _ _ hc => ihl.bind fun _ _ hl => ihr.bind fun _ _ hr =>
      hl.conditional hc hr

/-- **A tree that has a meaning over particles has that meaning over the records of any type.** -/
theorem Expr.follows_bind (t : ObjectType) (e : Expr) :
    Follows (Meaning.comap t.toParticle) (e.bind .particle) (e.bind t) := by
  intro m hm
  obtain ⟨m', hm', halike⟩ := (e.parallel_bind t).forth m hm
  rw [hm', halike.eq_comap]

/-- The same function of records that are seen as particles. -/
def Compiled.comap {k : ReturnKind} (t : ObjectType) (c : Compiled k .particle) : Compiled k t :=
  ⟨c.source, fun x => c.evaluate (t.toParticle x)⟩

/-- **What compiles over particles compiles over the records of any type, to the same function.** -/
theorem CompilerConfig.follows_compile (c : CompilerConfig) (k : ReturnKind) (t : ObjectType) (source : String) :
    Follows (Compiled.comap t) (c.compile k .particle source) (c.compile k t source) := by
  intro f hf
  obtain ⟨hsource, e, hparse, hresults⟩ := compile_eq_ok.1 hf
  have hfollows : Follows (· ∘ t.toParticle) (e.results k .particle) (e.results k t) :=
    (e.follows_bind t).bind fun m => m.follows_result k
  exact compile_eq_ok.2 ⟨hsource, e, hparse, hfollows _ hresults⟩

/-- A name that is no shared accessor stands for nothing over particles. -/
theorem compile_particle_ne_ok {c : CompilerConfig} {k : ReturnKind} {name : String} (hname : Lexer.IsName name)
    (h : Accessor.shared.lookup name = none) (f : Compiled k .particle) : c.compile k .particle name ≠ .ok f := by
  intro hf
  obtain ⟨-, e, hparse, hresults⟩ := compile_eq_ok.1 hf
  obtain rfl := Expr.eq_name_of_parse hname hparse
  obtain ⟨m, hm, -⟩ := results_eq_ok.1 hresults
  have hroot : ObjectType.particle.root name [] = .error (.unknownAccessor .other name) := by
    rw [ObjectType.root, ObjectType.accessor?_particle, h]
    rfl
  cases hroot.symm.trans hm

end FlatNtuple
