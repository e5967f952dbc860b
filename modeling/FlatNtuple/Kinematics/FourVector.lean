import FlatNtuple.Kinematics.Angle
/-!
# Four-momenta

A `FourVector` is a momentum and an energy in GeV, in cartesian components with the beam along `z`.

A momentum without a transverse part points forward or backward along the beam, and does so even where `pz` is not a
number: such a `pz` counts as backward if it was given with a minus sign or if an operation on numbers yields it, as
`0 * ∞` does, and as forward otherwise.  Further operations keep the way that it points.
-/
namespace FlatNtuple

structure FourVector where
  px : Float := 0
  py : Float := 0
  pz : Float := 0
  energy : Float := 0
  /-- A `pz` that is not a number points backward. -/
  nanBackward : Bool := false
  deriving Inhabited

namespace FourVector

def zero : FourVector := {}

/-- The pseudorapidity of a momentum along the beam, up to its sign. -/
def etaAlongBeam : Float := 1.0e10

/-- A vector by its polar components; `etaBackward` says which way an `eta` that is not a number points. -/
def ofPolar (etaBackward : Bool) (pt eta phi mass : Float) : FourVector :=
  let px := pt * phi.cos
  let py := pt * phi.sin
  let pz := pt * sinh eta
  { px, py, pz
    energy := (px * px + py * py + pz * pz + mass * mass).sqrt
    nanBackward := pz.isNaN && if pt.isNaN then false else if eta.isNaN then etaBackward else true }

/-- Which way a sum or a difference along the beam points if it is not a number: the way of the first operand that is
none. -/
def nanBackwardOf (a b : FourVector) : Bool :=
  if a.pz.isNaN then a.nanBackward else if b.pz.isNaN then b.nanBackward else true

def add (a b : FourVector) : FourVector where
  px := a.px + b.px
  py := a.py + b.py
  pz := a.pz + b.pz
  energy := a.energy + b.energy
  nanBackward := (a.pz + b.pz).isNaN && nanBackwardOf a b

def sub (a b : FourVector) : FourVector where
  px := a.px - b.px
  py := a.py - b.py
  pz := a.pz - b.pz
  energy := a.energy - b.energy
  nanBackward := (a.pz - b.pz).isNaN && nanBackwardOf a b

instance : Add FourVector := ⟨add⟩

instance : Sub FourVector := ⟨sub⟩

/-- The sum from left to right, starting at zero. -/
def sum (l : List FourVector) : FourVector := l.foldl add zero

variable (v : FourVector)

/-- The transverse momentum. -/
def pt : Float := Binary.hypot v.px v.py

/-- The size of the momentum. -/
def p : Float := (v.px * v.px + v.py * v.py + v.pz * v.pz).sqrt

/-- The azimuthal angle. -/
def phi : Float := if v.px == 0 && v.py == 0 then 0 else Float.atan2 v.py v.px

def isBackward : Bool := decide (v.pz < 0) || v.pz.isNaN && v.nanBackward

/-- The pseudorapidity.  That of a finite ratio is finite, also where twice the ratio leaves the range. -/
def eta : Float :=
  let pt := v.pt
  if pt == 0 then
    if v.pz == 0 then 0 else if v.isBackward then -etaAlongBeam else etaAlongBeam
  else (v.pz / pt).asinh

/-- The polar angle. -/
def theta : Float := if v.pt == 0 && v.pz == 0 then 0 else Float.atan2 v.pt v.pz

def massSquared : Float := v.energy * v.energy - v.p * v.p

/-- The invariant mass, negative where its square is. -/
def mass : Float :=
  let m := v.massSquared
  if m < 0 then -(-m).sqrt else m.sqrt

/-- The transverse energy. -/
def et : Float :=
  let p := v.p
  if p == 0 then 0 else v.energy * v.pt / p

/-- The rapidity, zero where it is not defined. -/
def rapidity : Float :=
  let minus := v.energy - v.pz
  let plus := v.energy + v.pz
  if minus ≤ 0 || plus ≤ 0 then 0 else 0.5 * (plus / minus).log

/-- The vector of the same direction and mass with its transverse momentum multiplied. -/
def scalePt (factor : Float) : FourVector :=
  ofPolar (!v.pz.isNaN || v.nanBackward) (v.pt * factor) v.eta v.phi v.mass

def deltaR (a b : FourVector) : Float := FlatNtuple.deltaR a.eta a.phi b.eta b.phi

end FourVector
end FlatNtuple
