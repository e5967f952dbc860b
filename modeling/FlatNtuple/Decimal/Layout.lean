import FlatNtuple.Decimal.Shortest
import FlatNtuple.Binary.Convert
/-!
# Written forms of decimals

A `Layout` says when a number is written positionally, what marks an integral one, and how an exponent and the special
values look.  The layouts of this library are records of this one type, each in the module that writes the output.
-/
namespace FlatNtuple
namespace Decimal

attribute [local instance] corePow

structure Layout where
  /-- The exponents of the leading digit that are written positionally; `none` for all of them. -/
  positional : Option (Int × Int)
  /-- Integral numbers in positional form end in `.0`. -/
  pointZero : Bool
  /-- Exponents carry a sign even if they are positive. -/
  plusSign : Bool
  tie : Tie
  nan : String
  infinity : String

def zeros (n : Nat) : List Char := List.replicate n '0'

def digitsOf (n : Nat) : List Char := Nat.toDigits 10 n

def exponentText (plusSign : Bool) (e : Int) : List Char :=
  'e' :: (if e < 0 then ['-'] else if plusSign then ['+'] else []) ++ digitsOf e.natAbs

/-- One digit, the rest after a point, and the exponent of the first. -/
def scientificText (plusSign : Bool) (d : Decimal) : List Char :=
  let mantissa := match digitsOf d.digits with
    | [] => []
    | [c] => [c]
    | c :: cs => c :: '.' :: cs
  mantissa ++ exponentText plusSign d.leading

/-- All digits around a point, with zeros up to it or down to it where the digits do not reach. -/
def positionalText (pointZero : Bool) (d : Decimal) : List Char :=
  let ds := digitsOf d.digits
  if 0 ≤ d.exponent then ds ++ zeros d.exponent.toNat ++ (if pointZero then ['.', '0'] else [])
  else
    let after := (-d.exponent).toNat
    if after < ds.length then ds.take (ds.length - after) ++ '.' :: ds.drop (ds.length - after)
    else '0' :: '.' :: zeros (after - ds.length) ++ ds

namespace Layout

def magnitudeText (l : Layout) (d : Decimal) : List Char :=
  match l.positional with
  | none => positionalText l.pointZero d
  | some (least, most) =>
    if d.digits = 0 ∨ (least ≤ d.leading ∧ d.leading ≤ most) then positionalText l.pointZero d
    else scientificText l.plusSign d

/-- Writes a number with the fewest digits that read back. -/
def write (l : Layout) (F : Binary.Format) : Binary.Decoded → String
  | .nan => l.nan
  | .infinite negative => (if negative then "-" else "") ++ l.infinity
  | .finite negative m e =>
    let d : Decimal := if m = 0 then ⟨0, 0⟩ else shortest l.tie F m e
    String.ofList ((if negative then ['-'] else []) ++ l.magnitudeText d)

def float (l : Layout) (x : Float) : String := l.write Binary.binary64 (Binary.ofFloat x)

def float32 (l : Layout) (x : Float32) : String := l.write Binary.binary32 (Binary.ofFloat32 x)

end Layout

/-- Plain numbers: positional whatever their size, and integral ones without a point. -/
def plain : Layout := ⟨none, false, false, .up, "NaN", "inf"⟩

/-- A number in scientific form with a fixed count of significant digits. -/
def fixedScientific (count : Nat) (x : Float) : String :=
  match Binary.ofFloat x with
  | .nan => "nan"
  | .infinite negative => if negative then "-inf" else "inf"
  | .finite negative m e =>
    let d := if 0 ≤ e then significant count (m * 2 ^ e.toNat) 1 else significant count m (2 ^ (-e).toNat)
    let text := match padded count d.digits with
      | [] => []
      | [c] => [c]
      | c :: cs => c :: '.' :: cs
    String.ofList ((if negative then ['-'] else []) ++ text ++
      exponentText false (if d.digits = 0 then 0 else d.leading))
where
  padded (count n : Nat) : List Char := zeros (count - width n) ++ digitsOf n

end Decimal
end FlatNtuple
