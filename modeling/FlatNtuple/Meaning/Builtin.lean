import FlatNtuple.Kinematics.Angle
/-!
# Builtin functions
-/
namespace FlatNtuple

/-- A function of numbers that expressions know by name. -/
inductive Builtin
  | unary (f : Float → Float)
  | binary (f : Float → Float → Float)
  | quaternary (f : Float → Float → Float → Float → Float)

namespace Builtin

def arity : Builtin → Nat
  | unary _ => 1
  | binary _ => 2
  | quaternary _ => 4

/-- The greater of two numbers; a NaN gives way to the other. -/
def greater (x y : Float) : Float := if x.isNaN then y else if x < y then y else x

/-- The smaller of two numbers; a NaN gives way to the other. -/
def smaller (x y : Float) : Float := if x.isNaN then y else if y < x then y else x

def table : List (String × Builtin) :=
  [("abs", unary Float.abs),
   ("acos", unary Float.acos),
   ("asin", unary Float.asin),
   ("atan", unary Float.atan),
   ("cos", unary Float.cos),
   ("cosh", unary Float.cosh),
   ("exp", unary Float.exp),
   ("log", unary Float.log),
   ("log10", unary Float.log10),
   ("sin", unary Float.sin),
   ("sinh", unary FlatNtuple.sinh),
   ("sq", unary fun x => x * x),
   ("sqrt", unary Float.sqrt),
   ("tan", unary Float.tan),
   ("tanh", unary Float.tanh),
   ("atan2", binary Float.atan2),
   ("hypot", binary Binary.hypot),
   ("max", binary greater),
   ("min", binary smaller),
   ("pow", binary Float.pow),
   ("deltaPhi", binary deltaPhi),
   ("deltaR", quaternary deltaR)]

/-- The names of all builtins, in increasing order. -/
def names : List String := (table.map Prod.fst).mergeSort

def find? (name : String) : Option Builtin := table.lookup name

end Builtin
end FlatNtuple
