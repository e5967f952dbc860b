import FlatNtuple.Branch.Ntuple
/-!
# Charges out of range

A charge that cannot be summed up stops the program that reads it.  Functions go on with the sum in 32 bits instead, and
what is worked out here is whether they have read such a charge.  An operand is read only if the ones before it leave
the value open, and the charge of a child only if the child is there.
-/
namespace FlatNtuple

namespace Meaning

variable {α : Type}

/-- The object has the data. -/
def isPresent (x : α) : Meaning α → Bool
  | number f => (f x).isSome
  | boolean f => (f x).isSome
  | object f => (f x).isSome
  | text => false

def truth? (x : α) (m : Meaning α) : Option Bool := m.asBoolean.toOption.bind fun f => f x

def object? (x : α) : Meaning α → Option Particle
  | object f => f x
  | _ => none

/-- An operator reads its right operand, by what the left one is. -/
def readsRight (x : α) (op : BinaryOp) (l : Meaning α) : Bool :=
  match op with
  | .and => l.truth? x == some true
  | .or => l.truth? x == some false
  | _ => l.isPresent x

end Meaning

/-- The quantity of a name is a charge out of range. -/
def Particle.overflows (p : Particle) (name : String) : Bool := name == "charge" && p.chargeSum.overflow

section
variable (t : ObjectType) (x : t.Record)

mutual

/-- The value of a tree that has a meaning takes a charge out of range. -/
def Expr.overflows : Expr → Bool
  | .literal _ => false
  | .name n => (t.toParticle x).overflows n
  | .call n args =>
    match Builtin.find? n with
    | none => (t.toParticle x).overflows n
    | some _ => argsOverflow args
  | .member base n | .memberCall base n _ =>
    base.overflows || ((base.bind t).toOption.bind (Meaning.object? x)).any fun p => p.overflows n
  | .index (.member base _) _ => base.overflows
  | .index _ _ => false
  | .binary op l r => l.overflows || (l.bind t).toOption.any (Meaning.readsRight x op) && r.overflows
  | .unary _ e => e.overflows
  | .conditional c l r =>
    c.overflows ||
      match (c.bind t).toOption.bind (Meaning.truth? x) with
      | some true => l.overflows
      | some false => r.overflows
      | none => false

/-- The arguments of a builtin function are read up to the first that is missing. -/
def Expr.argsOverflow : List Expr → Bool
  | [] => false
  | e :: rest => e.overflows || (e.bind t).toOption.any (Meaning.isPresent x) && argsOverflow rest

end

/-- The value of the expression that a text is takes a charge out of range. -/
def CompilerConfig.overflows (c : CompilerConfig) (source : String) : Bool :=
  match Expr.parse source c.maxDepth with
  | .ok e => e.overflows t x
  | .error _ => false

end

/-- The native function of a name takes a charge out of range. -/
def Native.overflows (k : ReturnKind) (name : String) (p : Particle) : Bool :=
  match k, name, p.daughters with
  | .int, "Charge", _ => p.chargeSum.overflow
  | .bool, "SS", a :: b :: _ => a.chargeSum.overflow || b.chargeSum.overflow
  | _, _, _ => false

/-- The value that the function of a name has for an object takes a charge out of range. -/
def FunctionLibrary.overflows {k : ReturnKind} {t : ObjectType} (l : FunctionLibrary k t) (name : String)
    (x : t.Record) : Bool :=
  if l.isNative name then Native.overflows k name (t.toParticle x) else l.compiler.overflows t x name

/-- The row of an object takes a charge out of range. -/
def LibrarySet.overflows {t : ObjectType} (s : LibrarySet t) (branches : BranchSet) (x : t.Record) : Bool :=
  branches.entries.any fun b => (s.library b.kind).overflows b.function x

end FlatNtuple
