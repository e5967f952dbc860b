import FlatNtuple.Decimal.Layout
/-!
# Kinds of values

A column of an ntuple holds values of one `ReturnKind`.  Each kind has a carrier type, a value that stands for missing
data, and coercions from the two results an expression can have: a number is narrowed, or cut off and clamped to the
range of an integer kind, and is true when it is neither zero nor NaN.
-/
namespace FlatNtuple

inductive ReturnKind
  | float
  | bool
  | int
  | uint
  | ulong
  deriving DecidableEq, Repr, Inhabited

namespace ReturnKind

/-- All kinds, in the order in which their columns come. -/
def all : List ReturnKind := [float, bool, int, uint, ulong]

/-- The name of the columns of a kind. -/
def groupName : ReturnKind → String
  | float => "floats"
  | bool => "bools"
  | int => "ints"
  | uint => "uints"
  | ulong => "ulls"

def text : ReturnKind → String
  | float => "float"
  | bool => "bool"
  | int => "int"
  | uint => "unsigned"
  | ulong => "unsigned long long"

/-- The type of the values of a kind. -/
abbrev Carrier : ReturnKind → Type
  | float => Float32
  | bool => Bool
  | int => Int32
  | uint => UInt32
  | ulong => UInt64

/-- What stands for missing data. -/
def missing : (k : ReturnKind) → k.Carrier
  | float => Binary.narrowInt (-999)
  | bool => false
  | int => -999
  | uint => 0
  | ulong => 0

def ofNumber : (k : ReturnKind) → Float → k.Carrier
  | float => Binary.narrow
  | bool => Binary.truth
  | int => Binary.toInt32
  | uint => Binary.toUInt32
  | ulong => Binary.toUInt64

def ofBool : (k : ReturnKind) → Bool → k.Carrier
  | float => fun b => if b then 1 else 0
  | bool => id
  | int => fun b => if b then 1 else 0
  | uint => fun b => if b then 1 else 0
  | ulong => fun b => if b then 1 else 0

theorem mem_all (k : ReturnKind) : k ∈ all := by cases k <;> decide

end ReturnKind

/-- A value with its kind. -/
inductive Value
  | float (x : Float32)
  | bool (b : Bool)
  | int (i : Int32)
  | uint (n : UInt32)
  | ulong (n : UInt64)
  deriving Inhabited

namespace Value

def kind : Value → ReturnKind
  | float _ => .float
  | bool _ => .bool
  | int _ => .int
  | uint _ => .uint
  | ulong _ => .ulong

/-- The value of a kind that an element of its carrier is. -/
def of : (k : ReturnKind) → k.Carrier → Value
  | .float => float
  | .bool => bool
  | .int => int
  | .uint => uint
  | .ulong => ulong

def text : Value → String
  | float x => Decimal.plain.float32 x
  | bool b => if b then "true" else "false"
  | int i => toString i.toInt
  | uint n => toString n.toNat
  | ulong n => toString n.toNat

/-- The value as a number; truth values count as one and zero. -/
def toFloat : Value → Float
  | float x => Binary.widen x
  | bool b => if b then 1 else 0
  | int i => Binary.ofInt i.toInt
  | uint n => Binary.ofInt n.toNat
  | ulong n => Binary.ofInt n.toNat

theorem kind_of (k : ReturnKind) (x : k.Carrier) : (of k x).kind = k := by cases k <;> rfl

end Value
end FlatNtuple
