/-!
# Binary floating-point formats

A finite binary number is a sign and a magnitude `mantissa · 2 ^ exponent`.  `Format.decode` reads that form off a bit
pattern and `Format.nearest` goes back: it is the pattern of the number nearest to a quotient of naturals, a tie going
to the even mantissa.  Both work in exact natural-number arithmetic, so a conversion between two formats rounds once.
-/
namespace FlatNtuple

/-- The power of the core library.  Modules that write powers make it a local instance, so that they read the same beside
libraries with a power of their own. -/
@[reducible] def corePow {α : Type} [NatPow α] : Pow α Nat := instPowNat

namespace Binary

attribute [local instance] corePow

/-- The quotient `num / den` rounded to the nearest natural, a half to the even neighbour. -/
def roundHalfEven (num den : Nat) : Nat :=
  let q := num / den
  let twice := 2 * (num % den)
  if twice > den ∨ (twice = den ∧ q % 2 = 1) then q + 1 else q

/-- An interchange format, by the widths of its fraction and exponent fields. -/
structure Format where
  fractionBits : Nat
  exponentBits : Nat

def binary64 : Format := ⟨52, 11⟩
def binary32 : Format := ⟨23, 8⟩

/-- What a bit pattern stands for. -/
inductive Decoded
  | nan
  | infinite (negative : Bool)
  | finite (negative : Bool) (mantissa : Nat) (exponent : Int)
  deriving DecidableEq, Repr

namespace Format
variable (F : Format)

def bias : Nat := 2 ^ (F.exponentBits - 1) - 1

/-- The exponent of the least subnormal number. -/
def leastExponent : Int := 1 - (F.bias : Int) - F.fractionBits

/-- The exponent field of infinities and NaNs. -/
def topField : Nat := 2 ^ F.exponentBits - 1

def signWeight : Nat := 2 ^ (F.fractionBits + F.exponentBits)

def decode (bits : Nat) : Decoded :=
  let negative := decide (bits / F.signWeight % 2 = 1)
  let field := bits / 2 ^ F.fractionBits % 2 ^ F.exponentBits
  let fraction := bits % 2 ^ F.fractionBits
  if field = F.topField then
    if fraction = 0 then .infinite negative else .nan
  else if field = 0 then .finite negative fraction F.leastExponent
  else .finite negative (2 ^ F.fractionBits + fraction) (F.leastExponent + (field - 1))

/-- The exponent of the mantissas that the quotient `num / den` is rounded to: the one that leaves `fractionBits + 1`
bits before the point, or the least one. -/
def exponentOf (num den : Nat) : Int :=
  let guess : Int := (num.log2 : Int) - den.log2
  let below := if 0 ≤ guess then num < den * 2 ^ guess.toNat else num * 2 ^ (-guess).toNat < den
  max ((if below then guess - 1 else guess) - F.fractionBits) F.leastExponent

/-- The magnitude bits of the number nearest to `num / den`; what is too large becomes infinity. -/
def nearest (num den : Nat) : Nat :=
  if num = 0 then 0 else
    let e := F.exponentOf num den
    let m := if 0 ≤ e then roundHalfEven num (den * 2 ^ e.toNat) else roundHalfEven (num * 2 ^ (-e).toNat) den
    -- the hidden bit of a normal mantissa adds one to the field, as does a carry out of it
    min ((e - F.leastExponent).toNat * 2 ^ F.fractionBits + m) (F.topField * 2 ^ F.fractionBits)

def withSign (negative : Bool) (magnitude : Nat) : Nat :=
  if negative then F.signWeight + magnitude else magnitude

/-- The pattern of a decoded number in this format, rounded if it has to be. -/
def encode : Decoded → Nat
  | .nan => F.topField * 2 ^ F.fractionBits + 2 ^ (F.fractionBits - 1)
  | .infinite s => F.withSign s (F.topField * 2 ^ F.fractionBits)
  | .finite s m e => F.withSign s (if 0 ≤ e then F.nearest (m * 2 ^ e.toNat) 1 else F.nearest m (2 ^ (-e).toNat))

end Format

end Binary
end FlatNtuple
