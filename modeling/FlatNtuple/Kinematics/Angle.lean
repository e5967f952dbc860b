import FlatNtuple.Binary.Convert
import FlatNtuple.Binary.Hypot
import FlatNtuple.Binary.Remainder
/-!
# Angles and angular distances
-/
namespace FlatNtuple

def pi : Float := 3.141592653589793

/-- The hyperbolic sine; beyond 711 it leaves the range of the numbers. -/
def sinh (x : Float) : Float := if x.abs > 711 then x * Binary.infinity else x.sinh

/-- The difference of two azimuthal angles, brought to the half-open turn from `-π` (exclusive) to `π`.  Angles whose
difference is not finite have none. -/
def deltaPhi (phi₁ phi₂ : Float) : Float :=
  let d := phi₁ - phi₂
  if d.isFinite then
    let folded := Binary.residue d (2 * pi)
    if folded > pi then folded - 2 * pi else folded
  else Binary.nan

/-- The distance of two directions in the plane of pseudorapidity and azimuth. -/
def deltaR (eta₁ phi₁ eta₂ phi₂ : Float) : Float :=
  Binary.hypot (eta₁ - eta₂) (deltaPhi phi₁ phi₂)

end FlatNtuple
