import FlatNtuple.Binary.Hypot
/-!
# Points and tracks

Impact parameters are distances of closest approach of a track, taken as straight, to a point: `dxy` in the plane across
the beam and `dz` along it.
-/
namespace FlatNtuple

/-- A place in the detector, in cm. -/
structure Point where
  x : Float := 0
  y : Float := 0
  z : Float := 0
  deriving Inhabited

/-- The distance from the beam line. -/
def Point.rho (p : Point) : Float := Binary.hypot p.x p.y

/-- A charged track, by its reference point and its momentum there. -/
structure Track where
  vx : Float := 0
  vy : Float := 0
  vz : Float := 0
  px : Float := 0
  py : Float := 0
  pz : Float := 0
  /-- The hits missing before the first valid one. -/
  missingInnerHits : UInt32 := 0
  deriving Inhabited

namespace Track

def pt (t : Track) : Float := Binary.hypot t.px t.py

/-- The transverse impact parameter; a track along the beam has none. -/
def dxy (t : Track) (p : Point) : Float :=
  let pt := t.pt
  if pt == 0 then 0 else (-(t.vx - p.x) * t.py + (t.vy - p.y) * t.px) / pt

/-- The longitudinal impact parameter. -/
def dz (t : Track) (p : Point) : Float :=
  let pt := t.pt
  if pt == 0 then t.vz - p.z
  else
    let transverse := (t.vx - p.x) * t.px + (t.vy - p.y) * t.py
    (t.vz - p.z) - transverse / pt * (t.pz / pt)

end Track
end FlatNtuple
