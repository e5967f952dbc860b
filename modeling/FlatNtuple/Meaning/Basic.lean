import FlatNtuple.Expr.Printer
import FlatNtuple.Meaning.Builtin
import FlatNtuple.Meaning.Error
import FlatNtuple.Object.Accessor
/-!
# What expressions mean

The meaning of an expression over objects of a type is a function of the object to a number, a truth value or another
object.  It is `none` where the object lacks the data, and stays so through every operator that reads it; `&&`, `||` and
the conditional read an operand only if the ones before leave the result open.

`Expr.bind` gives a tree its meaning, or the fault that it has.  Types are settled there: a truth value counts as one or
zero where a number is wanted, a number as true where it is neither zero nor NaN, and nothing else is converted.
-/
namespace FlatNtuple

inductive Meaning (α : Type)
  | number (value : α → Option Float)
  | boolean (value : α → Option Bool)
  /-- A daughter, seen as a particle. -/
  | object (value : α → Option Particle)
  /-- A string literal, which is a key and has no value. -/
  | text

namespace Meaning

variable {α : Type}

def type : Meaning α → ValueType
  | number _ => .number
  | boolean _ => .boolean
  | object _ => .object
  | text => .text

def asNumber : Meaning α → Except Fault (α → Option Float)
  | number f => .ok f
  | boolean f => .ok fun x => (f x).map fun b => if b then 1 else 0
  | m => .error (.typeMismatch .number m.type)

def asBoolean : Meaning α → Except Fault (α → Option Bool)
  | boolean f => .ok f
  | number f => .ok fun x => (f x).map Binary.truth
  | m => .error (.typeMismatch .boolean m.type)

/-- A function of two values that are both there. -/
def lift₂ {β γ δ : Type} (op : β → γ → δ) (f : α → Option β) (g : α → Option γ) (x : α) : Option δ := do
  let a ← f x
  let b ← g x
  return op a b

def arithmetic (op : Float → Float → Float) (l r : Meaning α) : Except Fault (Meaning α) := do
  let f ← l.asNumber
  let g ← r.asNumber
  return number (lift₂ op f g)

def comparison (op : Float → Float → Bool) (l r : Meaning α) : Except Fault (Meaning α) := do
  let f ← l.asNumber
  let g ← r.asNumber
  return boolean (lift₂ op f g)

/-- Two truth values compare as such, anything else as numbers. -/
def equality (negate : Bool) : Meaning α → Meaning α → Except Fault (Meaning α)
  | boolean f, boolean g => .ok (boolean (lift₂ (fun a b => (a == b) != negate) f g))
  | l, r => comparison (fun a b => (a == b) != negate) l r

def conjunction (l r : Meaning α) : Except Fault (Meaning α) := do
  let f ← l.asBoolean
  let g ← r.asBoolean
  return boolean fun x => do if ← f x then g x else return false

def disjunction (l r : Meaning α) : Except Fault (Meaning α) := do
  let f ← l.asBoolean
  let g ← r.asBoolean
  return boolean fun x => do if ← f x then return true else g x

def binary : BinaryOp → Meaning α → Meaning α → Except Fault (Meaning α)
  | .add => arithmetic (· + ·)
  | .subtract => arithmetic (· - ·)
  | .multiply => arithmetic (· * ·)
  | .divide => arithmetic (· / ·)
  | .power => arithmetic Float.pow
  | .equal => equality false
  | .notEqual => equality true
  | .less => comparison fun a b => decide (a < b)
  | .lessEqual => comparison fun a b => decide (a ≤ b)
  | .greater => comparison fun a b => decide (b < a)
  | .greaterEqual => comparison fun a b => decide (b ≤ a)
  | .and => conjunction
  | .or => disjunction

def unary : UnaryOp → Meaning α → Except Fault (Meaning α)
  | .negate, m => do
    let f ← m.asNumber
    return number fun x => (f x).map fun a => -a
  | .not, m => do
    let f ← m.asBoolean
    return boolean fun x => (f x).map fun b => !b

/-- The value of one of two functions, as a condition says. -/
def select {β : Type} (c : α → Option Bool) (f g : α → Option β) (x : α) : Option β := do
  if ← c x then f x else g x

/-- A conditional is a truth value if both of its branches are, else a number. -/
def conditional (c : α → Option Bool) : Meaning α → Meaning α → Except Fault (Meaning α)
  | boolean f, boolean g => .ok (boolean (select c f g))
  | l, r => do
    let f ← l.asNumber
    let g ← r.asNumber
    return number (select c f g)

/-- What is indexed has to be a child. -/
def indexed (name : String) : Meaning α → Except Fault (Meaning α)
  | object f => .ok (object f)
  | _ => .error (.invalidArguments name .notIndexable)

end Meaning

namespace Accessor

/-- The type of what an accessor yields. -/
def type {α : Type} : Accessor α → ValueType
  | number _ | numberByKey _ => .number
  | boolean _ | booleanByKey _ => .boolean
  | daughter _ => .object

/-- No arguments. -/
def noArguments (name : String) : List Expr → Except Fault Unit
  | [] => .ok ()
  | args => .error (.invalidArguments name (.none args.length))

/-- A string literal. -/
def keyArgument (name : String) : List Expr → Except Fault String
  | [.literal (.string key)] => .ok key
  | _ => .error (.invalidArguments name .key)

/-- An integer literal that is not negative. -/
def indexArgument (name : String) : List Expr → Except Fault Nat
  | [.literal (.integer i)] => if i < 0 then .error (.invalidArguments name (.negativeIndex i)) else .ok i.toNat
  | _ => .error (.invalidArguments name .index)

/-- The quantity of the object that `get` reaches, if the arguments are the ones it takes. -/
def apply {α β : Type} (a : Accessor α) (get : β → Option α) (name : String) (args : List Expr) :
    Except Fault (Meaning β) :=
  match a with
  | number value => do
    noArguments name args
    return .number fun x => (get x).map value
  | boolean value => do
    noArguments name args
    return .boolean fun x => (get x).map value
  | numberByKey value => do
    let key ← keyArgument name args
    return .number fun x => (get x).bind fun y => value y key
  | booleanByKey value => do
    let key ← keyArgument name args
    return .boolean fun x => (get x).map fun y => value y key
  | daughter value => do
    let i ← indexArgument name args
    return .object fun x => (get x).bind fun y => value y i

end Accessor

/-- An accessor of the object itself. -/
def ObjectType.root (t : ObjectType) (name : String) (args : List Expr) : Except Fault (Meaning t.Record) :=
  match t.accessor? name with
  | some a => a.apply some name args
  | none => .error (.unknownAccessor t.kind name)

/-- An accessor of what a meaning stands for. -/
def Meaning.member {α : Type} (base : Meaning α) (name : String) (args : List Expr) : Except Fault (Meaning α) :=
  match base with
  | object get =>
    match Accessor.shared.lookup name with
    | some a => a.apply get name args
    | none => .error (.unknownAccessor .other name)
  | m => .error (.typeMismatch (.objectBefore name) m.type)

def Literal.meaning {α : Type} : Literal → Meaning α
  | bool b => .boolean fun _ => some b
  | integer i => .number fun _ => some (Binary.ofInt i)
  | float x => .number fun _ => some x
  | string _ => .text

/-- What is wrong with arguments that a builtin function does not take: they are counted before it looks for each. -/
def Builtin.misfit (f : Builtin) (found : Nat) : ArgumentFault :=
  if found = f.arity then .missing else .arity f.arity found

/-- The meaning of a tree over objects of a type. -/
def Expr.bind (t : ObjectType) : Expr → Except Fault (Meaning t.Record)
  | .literal l => .ok l.meaning
  | .name n => t.root n []
  | .call n args =>
    match Builtin.find? n, args with
    | none, args => t.root n args
    | some (.unary f), [a] => do
      let a ← (← a.bind t).asNumber
      return .number fun x => do return f (← a x)
    | some (.binary f), [a, b] => do
      let a ← (← a.bind t).asNumber
      let b ← (← b.bind t).asNumber
      return .number fun x => do return f (← a x) (← b x)
    | some (.quaternary f), [a, b, c, d] => do
      let a ← (← a.bind t).asNumber
      let b ← (← b.bind t).asNumber
      let c ← (← c.bind t).asNumber
      let d ← (← d.bind t).asNumber
      return .number fun x => do return f (← a x) (← b x) (← c x) (← d x)
    | some f, args => .error (.invalidArguments n (f.misfit args.length))
  | .member base n => do (← base.bind t).member n []
  | .memberCall base n args => do (← base.bind t).member n args
  | .index (.name n) i => do (← t.root n [i]).indexed n
  | .index (.member base n) i => do (← (← base.bind t).member n [i]).indexed n
  | .index base _ => .error (.invalidArguments base.text .notIndexable)
  | .binary op l r => do
    let l ← l.bind t
    let r ← r.bind t
    Meaning.binary op l r
  | .unary op e => do Meaning.unary op (← e.bind t)
  | .conditional c l r => do
    let c ← (← c.bind t).asBoolean
    let l ← l.bind t
    let r ← r.bind t
    Meaning.conditional c l r

end FlatNtuple
