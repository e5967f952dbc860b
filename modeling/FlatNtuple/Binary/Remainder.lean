import FlatNtuple.Binary.Convert
/-!
# Exact remainders

The remainder of a division of binary numbers is itself a binary number, whatever the quotient: with both brought to the
smaller exponent it is a remainder of naturals.  `remainder` has the sign of the dividend, `residue` is never negative.
-/
namespace FlatNtuple
namespace Binary

attribute [local instance] corePow

def remainder (x y : Float) : Float :=
  match ofFloat x, ofFloat y with
  | .finite s m e, .finite _ m' e' =>
    if m' = 0 then nan else
      let low := min e e'
      Float.ofBits (UInt64.ofNat (binary64.encode
        (.finite s (m * 2 ^ (e - low).toNat % (m' * 2 ^ (e' - low).toNat)) low)))
  | .finite .., .infinite _ => x
  | _, _ => nan

/-- The remainder brought to the range from zero up to the size of the divisor. -/
def residue (x y : Float) : Float :=
  let r := remainder x y
  if r < 0 then r + y.abs else r

end Binary
end FlatNtuple
