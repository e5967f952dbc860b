import FlatNtuple.Proofs.Meaning.Erasure
import FlatNtuple.Proofs.Meaning.Interpreter
import FlatNtuple.Proofs.Meaning.Typing
/-!
# Expressions over a daughter

What an expression says of a particle can be said of a composite with that particle among its daughters: every accessor
of the object becomes one of the daughter (`Expr.ofDaughter`).  The two are found in different ways, the one among the
accessors of a type and the other as a member, but both among the shared ones; `parallel_ofDaughter` carries this through
the tree.
-/
namespace FlatNtuple

namespace Expr

/-- The daughter with an index. -/
def daughter (i : Nat) : Expr := .call "daughter" [.literal (.integer i)]

mutual

/-- **A tree over a daughter**: what is asked of the object is asked of the daughter with an index.  A call of a builtin
function is asked of nothing; its arguments are changed. -/
def ofDaughter (i : Nat) : Expr → Expr
  | .literal l => .literal l
  | .name n => .member (daughter i) n
  | .call n args =>
    match Builtin.find? n with
    | some _ => .call n (ofDaughterArgs i args)
    | none => .memberCall (daughter i) n (ofDaughterArgs i args)
  | .member base n => .member (base.ofDaughter i) n
  | .memberCall base n args => .memberCall (base.ofDaughter i) n (ofDaughterArgs i args)
  | .index base k => .index (base.ofDaughter i) (k.ofDaughter i)
  | .binary op l r => .binary op (l.ofDaughter i) (r.ofDaughter i)
  | .unary op e => .unary op (e.ofDaughter i)
  | .conditional c l r => .conditional (c.ofDaughter i) (l.ofDaughter i) (r.ofDaughter i)

def ofDaughterArgs (i : Nat) : List Expr → List Expr
  | [] => []
  | e :: rest => e.ofDaughter i :: ofDaughterArgs i rest

end

variable {i : Nat}

theorem ofDaughterArgs_eq_map : ∀ args : List Expr, ofDaughterArgs i args = args.map (ofDaughter i)
  | [] => rfl
  | e :: rest => by rw [ofDaughterArgs, List.map_cons, ofDaughterArgs_eq_map rest]

theorem literal?_ofDaughter (e : Expr) : (e.ofDaughter i).literal? = e.literal? := by
  cases e with
  | call n args =>
    rw [ofDaughter]
    cases Builtin.find? n <;> rfl
  | literal | name | member | memberCall | index | binary | unary | conditional => rfl

theorem map_literal?_ofDaughterArgs (args : List Expr) : (ofDaughterArgs i args).map literal? = args.map literal? := by
  rw [ofDaughterArgs_eq_map, List.map_map]
  exact List.map_congr_left fun e _ => literal?_ofDaughter e

theorem ofDaughter_ne_name (e : Expr) (n : String) : e.ofDaughter i ≠ .name n := by
  cases e with
  | call m args =>
    rw [ofDaughter]
    cases Builtin.find? m <;> nofun
  | literal | name | member | memberCall | index | binary | unary | conditional => nofun

theorem ofDaughter_ne_member {e : Expr} (hname : ∀ n, e ≠ .name n) (hmember : ∀ base n, e ≠ .member base n)
    (base : Expr) (n : String) : e.ofDaughter i ≠ .member base n := by
  cases e with
  | name m => exact absurd rfl (hname m)
  | member base' m => exact absurd rfl (hmember base' m)
  | call m args =>
    rw [ofDaughter]
    cases Builtin.find? m <;> nofun
  | literal | memberCall | index | binary | unary | conditional => nofun

end Expr

/-- A composite has a particle as its daughter with an index. -/
def IsDaughter (i : Nat) (d : Particle) (c : Composite) : Prop := c.daughters[i]? = some d

variable {i : Nat}

theorem bind_daughter (i : Nat) : (Expr.daughter i).bind .composite = .ok (.object fun c => c.daughters[i]?) := by
  have hindex : Accessor.indexArgument "daughter" [.literal (.integer i)] = .ok i := indexArgument_eq_ok.2 rfl
  have haccessor : ObjectType.composite.accessor? "daughter" =
      some (.daughter fun (c : Composite) i => c.daughters[i]?) := rfl
  rw [Expr.daughter, bind_call rfl, ObjectType.root, haccessor]
  simp only [Accessor.apply, hindex]
  rfl

/-- An accessor of the particle is one of the daughter. -/
theorem parallel_root {args args' : List Expr} (hargs : args'.map Expr.literal? = args.map Expr.literal?) (n : String) :
    Parallel True (Meaning.Alike (IsDaughter i)) (ObjectType.particle.root n args)
      (do (← (Expr.daughter i).bind .composite).member n args') := by
  have hmember : (do (← (Expr.daughter i).bind .composite).member n args') =
      Meaning.member (.object fun c : Composite => c.daughters[i]?) n args' := by
    rw [bind_daughter]
    rfl
  rw [hmember]
  unfold ObjectType.root Meaning.member
  rw [ObjectType.accessor?_particle]
  cases Accessor.shared.lookup n with
  | none => exact .error
  | some a =>
    simp only [Accessor.apply_congr hargs]
    exact a.alike_apply (fun d c h => Eq.symm h) n args

/-- **A tree says of a particle what the tree over a daughter says of a composite** with the particle as this daughter. -/
theorem parallel_ofDaughter (i : Nat) (e : Expr) :
    Parallel True (Meaning.Alike (IsDaughter i)) (e.bind .particle) ((e.ofDaughter i).bind .composite) := by
  induction e using Expr.bindInduction with
  | literal l => exact .ok l.alike_meaning
  | name n => exact parallel_root rfl n
  | call n args hn =>
    rw [bind_call hn, Expr.ofDaughter, hn]
    exact parallel_root (Expr.map_literal?_ofDaughterArgs args) n
  | builtin n f args hn harity ih =>
    rw [Expr.ofDaughter, hn, Expr.ofDaughterArgs_eq_map]
    exact parallel_builtin .particle .composite hn harity (List.forall₂_map_right_iff.2 (List.forall₂_same.2 ih))
  | misfit n f args hn harity =>
    rw [Expr.ofDaughter, hn, Expr.ofDaughterArgs_eq_map]
    exact parallel_misfit .particle .composite hn harity (List.length_map _)
  | member base n ih => exact ih.bind fun _ _ hm => hm.member n []
  | memberCall base n args ih =>
    refine ih.bind fun m m' hm => ?_
    rw [Meaning.member_congr (Expr.map_literal?_ofDaughterArgs args)]
    exact hm.member n args
  | indexName n k =>
    have hk : [k.ofDaughter i].map Expr.literal? = [k].map Expr.literal? := Expr.map_literal?_ofDaughterArgs [k]
    have hindex : ((Expr.index (.name n) k).ofDaughter i).bind .composite =
        (do (← (Expr.daughter i).bind .composite).member n [k.ofDaughter i]) >>= fun m => m.indexed n :=
      (bind_assoc _ _ _).symm
    rw [hindex]
    exact (parallel_root hk n).bind fun _ _ hm => hm.indexed n
  | indexMember base n k ih =>
    have hk : [k.ofDaughter i].map Expr.literal? = [k].map Expr.literal? := Expr.map_literal?_ofDaughterArgs [k]
    refine ih.bind fun m m' hm => ?_
    rw [Meaning.member_congr hk]
    exact (hm.member n [k]).bind fun _ _ hm => hm.indexed n
  | indexOther base k hname hmember =>
    rw [bind_index_error hname hmember, Expr.ofDaughter, bind_index_error]
    · exact .error
    · exact fun n => Expr.ofDaughter_ne_name base n
    · exact Expr.ofDaughter_ne_member hname hmember
  | binary op l r ihl ihr => exact ihl.bind fun _ _ hl => ihr.bind fun _ _ hr => hl.binary op hr
  | unary op e ih => exact ih.bind fun _ _ hm => hm.unary op
  | conditional c l r ihc ihl ihr =>
    exact ihc.bind fun _ _ hm => hm.asBoolean.bind fun _ _ hc => ihl.bind fun _ _ hl => ihr.bind fun _ _ hr =>
      hl.conditional hc hr

theorem Meaning.Alike.valueAt_eq {α β : Type} {P : α → β → Prop} {m : Meaning α} {m' : Meaning β} (h : Alike P m m')
    {x : α} {y : β} (hxy : P x y) : m'.valueAt y = m.valueAt x := by
  cases h with
  | number h => exact congrArg Tagged.ofNumber? (h x y hxy).symm
  | boolean h => exact congrArg Tagged.ofTruth? (h x y hxy).symm
  | object h => exact congrArg Tagged.ofObject? (h x y hxy).symm
  | text => rfl

/-- **What is said of a daughter is what is said of the particle that it is.**  A tree over a daughter has a meaning just
if the tree has one over particles, of the same type, and wherever the composite has the daughter the two have the same
value or are both missing. -/
theorem bind_ofDaughter (e : Expr) (i : Nat) :
    (∀ τ, Typed ((e.ofDaughter i).bind .composite) τ ↔ Typed (e.bind .particle) τ) ∧
    ∀ m m', e.bind .particle = .ok m → (e.ofDaughter i).bind .composite = .ok m' →
      ∀ (c : Composite) (h : i < c.daughters.length), m'.valueAt c = m.valueAt c.daughters[i] := by
  have hparallel := parallel_ofDaughter i e
  refine ⟨fun τ => ⟨?_, ?_⟩, fun m m' hm hm' c h => ?_⟩
  · rintro ⟨m', hm', rfl⟩
    obtain ⟨m, hm, halike⟩ := hparallel.back trivial m' hm'
    exact ⟨m, hm, halike.type_eq.symm⟩
  · rintro ⟨m, hm, rfl⟩
    obtain ⟨m', hm', halike⟩ := hparallel.forth m hm
    exact ⟨m', hm', halike.type_eq⟩
  · obtain ⟨m'', hm'', halike⟩ := hparallel.forth m hm
    cases hm'.symm.trans hm''
    exact halike.valueAt_eq (List.getElem?_eq_getElem h)

/-- The daughter of a daughter, indexed, and an argument of a builtin function. -/
theorem bind_ofDaughter_nested :
    let e : Expr := .binary .greater (.member (.index (.name "daughter") (.literal (.integer 0))) "pt")
      (.call "max" [.name "pt", .literal (.integer 3)])
    let c : Composite := .ofDaughters 23 [.jet {}, .composite (.ofDaughters 25 [.jet {}])]
    ∃ m m', e.bind .particle = .ok m ∧ (e.ofDaughter 1).bind .composite = .ok m' ∧ 1 < c.daughters.length ∧
      m'.valueAt c = m.valueAt (Particle.composite (.ofDaughters 25 [.jet {}])) := by
  intro e c
  have hm : e.bind .particle = .ok (.boolean _) := rfl
  have hm' : (e.ofDaughter 1).bind .composite = .ok (.boolean _) := rfl
  have hlt : 1 < c.daughters.length := by decide
  exact ⟨_, _, hm, hm', hlt, (bind_ofDaughter e 1).2 _ _ hm hm' c hlt⟩

end FlatNtuple
