import FlatNtuple.Binary.Format
/-!
# Conversions of floating-point numbers

Narrowing to 32 bits rounds to nearest, widening is exact, and a conversion to an integer type drops the fraction and
stops at the ends of the type.  NaN becomes zero as an integer and false as a truth value.
-/
namespace FlatNtuple
namespace Binary

attribute [local instance] corePow

def infinity : Float := 1 / 0

def nan : Float := 0 / 0

def ofFloat (x : Float) : Decoded := binary64.decode x.toBits.toNat

def ofFloat32 (x : Float32) : Decoded := binary32.decode x.toBits.toNat

/-- The 32-bit number nearest to `x`. -/
def narrow (x : Float) : Float32 := Float32.ofBits (UInt32.ofNat (binary32.encode (ofFloat x)))

/-- The same number in 64 bits. -/
def widen (x : Float32) : Float := Float.ofBits (UInt64.ofNat (binary64.encode (ofFloat32 x)))

/-- The 32-bit number nearest to an integer. -/
def narrowInt (i : Int) : Float32 :=
  Float32.ofBits (UInt32.ofNat (binary32.encode (.finite (decide (i < 0)) i.natAbs 0)))

/-- The 64-bit number nearest to an integer. -/
def ofInt (i : Int) : Float :=
  Float.ofBits (UInt64.ofNat (binary64.encode (.finite (decide (i < 0)) i.natAbs 0)))

/-- The integer part of a number between `lo` and `hi`; beyond them, the nearer of the two.  NaN counts as zero. -/
def truncate (lo hi : Int) : Decoded → Int
  | .nan => 0
  | .infinite negative => if negative then lo else hi
  | .finite negative m e =>
    let whole : Int := if 0 ≤ e then m * 2 ^ e.toNat else (m / 2 ^ (-e).toNat : Nat)
    max lo (min hi (if negative then -whole else whole))

def toInt32 (x : Float) : Int32 := Int32.ofInt (truncate Int32.minValue.toInt Int32.maxValue.toInt (ofFloat x))

def toUInt32 (x : Float) : UInt32 := UInt32.ofNat (truncate 0 (UInt32.size - 1) (ofFloat x)).toNat

def toUInt64 (x : Float) : UInt64 := UInt64.ofNat (truncate 0 (UInt64.size - 1) (ofFloat x)).toNat

/-- A number counts as true when it is neither zero nor NaN. -/
def truth (x : Float) : Bool := x != 0 && !x.isNaN

/-- A rank of the numbers that puts negative ones first, `-0.0` before `0.0`, and grows with the number. -/
def totalRank (x : Float) : Int :=
  let bits := x.toBits.toNat
  if bits < binary64.signWeight then bits else binary64.signWeight - 1 - (bits : Int)

theorem truncate_mem {lo hi : Int} (h : lo ≤ 0) (h' : 0 ≤ hi) (d : Decoded) :
    lo ≤ truncate lo hi d ∧ truncate lo hi d ≤ hi := by
  cases d with
  | nan => exact ⟨h, h'⟩
  | infinite s => cases s <;> simp only [truncate, Bool.false_eq_true, if_true, if_false] <;> omega
  | finite s m e => simp only [truncate]; omega

end Binary
end FlatNtuple
