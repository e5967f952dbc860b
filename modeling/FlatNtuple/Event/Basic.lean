import FlatNtuple.Object.Particle
/-!
# Events

What a named function may read besides the object itself.  The first vertex is the primary one and jets come in order of
decreasing transverse momentum.
-/
namespace FlatNtuple

structure EventId where
  run : UInt32 := 0
  lumi : UInt32 := 0
  event : UInt64 := 0
  deriving DecidableEq, Inhabited

structure Vertex where
  position : Point
  ndof : Float := 0
  isValid : Bool := true
  isFake : Bool := false
  deriving Inhabited

/-- The simulated pileup of one bunch crossing, counted from the one that was triggered. -/
structure Pileup where
  bunchCrossing : Int32
  trueInteractions : Float32
  deriving Inhabited

structure Event where
  id : EventId := {}
  vertices : List Vertex := []
  /-- The missing transverse momentum. -/
  met : FourVector := {}
  jets : List Jet := []
  /-- The momenta of the generated jets. -/
  genJets : List FourVector := []
  pileup : Option (List Pileup) := none
  /-- The generator's weight of the event. -/
  genWeight : Option Float := none
  deriving Inhabited

namespace Event

def primaryVertex? (e : Event) : Option Vertex := e.vertices.head?

/-- The mean number of interactions in the bunch crossing that was triggered. -/
def trueInteractions? (e : Event) : Option Float32 :=
  (e.pileup.getD []).find? (fun p => p.bunchCrossing = 0) |>.map Pileup.trueInteractions

end Event
end FlatNtuple
