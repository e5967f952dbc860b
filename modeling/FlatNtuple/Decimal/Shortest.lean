import FlatNtuple.Binary.Format
/-!
# Decimal digits of binary numbers

A decimal is `digits · 10 ^ exponent`.  `shortest` picks, among the decimals that read back as a given binary number,
one with the fewest digits and of those the nearest, a tie going as the caller says; `significant` rounds the number
itself to a fixed count of digits, a half to the even neighbour.  Both compare exact quotients of naturals.
-/
namespace FlatNtuple

/-- Which of two equally near decimals is taken: the greater one, or the one with the even last digit. -/
inductive Tie
  | up
  | toEven
  deriving DecidableEq, Repr

/-- The number `digits · 10 ^ exponent`. -/
structure Decimal where
  digits : Nat
  exponent : Int
  deriving DecidableEq, Repr

namespace Decimal

attribute [local instance] corePow

open Binary (Format roundHalfEven)

/-- How many digits a natural is written with. -/
def width (n : Nat) : Nat := (Nat.toDigits 10 n).length

/-- The exponent of the leading digit. -/
def leading (d : Decimal) : Int := d.exponent + width d.digits - 1

/-- The greatest `k` with `10 ^ k ≤ num / den`, for a positive quotient. -/
def magnitude (num den : Nat) : Int :=
  let guess : Int := (width num : Int) - width den
  let tooLarge := if 0 ≤ guess then num < den * 10 ^ guess.toNat else num * 10 ^ (-guess).toNat < den
  if tooLarge then guess - 1 else guess

/-- The quotient measured in units of `10 ^ k`. -/
def inUnits (num den : Nat) (k : Int) : Nat × Nat :=
  if 0 ≤ k then (num, den * 10 ^ k.toNat) else (num * 10 ^ (-k).toNat, den)

/-- A positive number with the ends of the interval of reals that round to it, all over one denominator. -/
structure Interval where
  low : Nat
  value : Nat
  high : Nat
  den : Nat
  /-- The ends themselves round to the number. -/
  closed : Bool

namespace Interval

/-- The interval of `mantissa · 2 ^ exponent`: half a unit up, and half a unit of the next lower binade down. -/
def ofBinary (F : Format) (mantissa : Nat) (exponent : Int) : Interval :=
  let down := if mantissa = 2 ^ F.fractionBits ∧ F.leastExponent < exponent then 1 else 2
  let scale := if 0 ≤ exponent then 2 ^ exponent.toNat else 1
  { low := (4 * mantissa - down) * scale
    value := 4 * mantissa * scale
    high := (4 * mantissa + 2) * scale
    den := if 0 ≤ exponent then 4 else 4 * 2 ^ (-exponent).toNat
    closed := mantissa % 2 = 0 }

/-- Whether `n · 10 ^ k` lies in the interval. -/
def holds (i : Interval) (k : Int) (n : Nat) : Bool :=
  let num := if 0 ≤ k then n * 10 ^ k.toNat * i.den else n * i.den
  let unit := if 0 ≤ k then 1 else 10 ^ (-k).toNat
  if i.closed then decide (i.low * unit ≤ num ∧ num ≤ i.high * unit)
  else decide (i.low * unit < num ∧ num < i.high * unit)

/-- The nearer of the number's two neighbours among the multiples of `10 ^ k`, if the interval holds one of them. -/
def neighbour (i : Interval) (tie : Tie) (k : Int) : Option Nat :=
  let (num, den) := inUnits i.value i.den k
  let below := num / den
  match i.holds k below, i.holds k (below + 1) with
  | true, true =>
    let stay := 2 * (num % den) < den ∨ (2 * (num % den) = den ∧ tie = .toEven ∧ below % 2 = 0)
    some (if stay then below else below + 1)
  | true, false => some below
  | false, true => some (below + 1)
  | false, false => none

/-- The first of the grids `10 ^ k`, `10 ^ (k - 1)`, … that has a point in the interval, and that point. -/
def search (i : Interval) (tie : Tie) : Nat → Int → Option Decimal
  | 0, _ => none
  | fuel + 1, k => match i.neighbour tie k with
    | some n => some ⟨n, k⟩
    | none => i.search tie fuel (k - 1)

end Interval

/-- Drops the zeros at the end of the digits. -/
def trim : Nat → Decimal → Decimal
  | 0, d => d
  | fuel + 1, d => if d.digits % 10 = 0 ∧ d.digits ≠ 0 then trim fuel ⟨d.digits / 10, d.exponent + 1⟩ else d

/-- Seventeen digits tell any two numbers of 64 bits apart. -/
def mostDigits : Nat := 17

/-- The shortest decimal that reads back as the positive number `mantissa · 2 ^ exponent`. -/
def shortest (tie : Tie) (F : Format) (mantissa : Nat) (exponent : Int) : Decimal :=
  let i := Interval.ofBinary F mantissa exponent
  match i.search tie mostDigits (magnitude i.value i.den) with
  | some d => trim mostDigits d
  | none => ⟨0, 0⟩

/-- The quotient rounded to `count` significant digits, zeros at the end kept. -/
def significant (count num den : Nat) : Decimal :=
  if num = 0 then ⟨0, 1 - count⟩ else
    let k := magnitude num den + 1 - count
    let (n, d) := inUnits num den k
    let digits := roundHalfEven n d
    if digits = 10 ^ count then ⟨10 ^ (count - 1), k + 1⟩ else ⟨digits, k⟩

end Decimal
end FlatNtuple
