import FlatNtuple.Kinematics.FourVector
import FlatNtuple.Kinematics.Track
import FlatNtuple.Object.UserData
/-!
# Reconstructed objects

Electrons, muons and jets carry their own four-momentum; a composite candidate is built from daughters, which are
particles of any sort, and from photons radiated in the final state.  A `Particle` is any of the four, and all that the
objects have in common is defined on it.

`p4WithoutFsr` leaves the radiated photons out at every level.

Charges are integers of 32 bits.  A sum of them that does not fit is no charge but an error, and so is one that has left
the range on the way (`Composite.charge`).
-/
namespace FlatNtuple

structure Electron where
  p4 : FourVector := {}
  charge : Int32 := 0
  user : UserData := {}
  /-- The supercluster lies in the barrel. -/
  isBarrel : Bool := false
  /-- The supercluster lies in an endcap. -/
  isEndcap : Bool := false
  sigmaIetaIeta : Float := 0
  hcalOverEcal : Float := 0
  deltaEtaIn : Float := 0
  deltaPhiIn : Float := 0
  superClusterOverP : Float := 0
  ecalEnergy : Float := 0
  ecalIso : Float := 0
  hcalIso : Float := 0
  trackIso : Float := 0
  passConversionVeto : Bool := false
  /-- The impact parameter in space. -/
  ip : Float := 0
  /-- The uncertainty of the impact parameter. -/
  ipError : Float := 0
  track : Track := {}
  deriving Inhabited

/-- The size of `1/E - 1/p`, from the energy and its ratio to the momentum. -/
def Electron.inverseDifference (e : Electron) : Float :=
  if e.ecalEnergy == 0 then 0 else ((1 - e.superClusterOverP) / e.ecalEnergy).abs

/-- Which fit gave a muon its best track. -/
inductive TrackFit
  | none
  | inner
  | outer
  | combined
  | tpfms
  | picky
  | dyt
  deriving DecidableEq, Repr, Inhabited

/-- The number of a fit in ntuples. -/
def TrackFit.code : TrackFit → UInt32
  | none => 0
  | inner => 1
  | outer => 2
  | combined => 3
  | tpfms => 4
  | picky => 5
  | dyt => 6

structure Muon where
  p4 : FourVector := {}
  charge : Int32 := 0
  user : UserData := {}
  isPF : Bool := false
  isGlobal : Bool := false
  isTracker : Bool := false
  bestTrack : Option Track := none
  bestTrackFit : TrackFit := .none
  matchedStations : UInt32 := 0
  /-- The impact parameter in space. -/
  ip : Float := 0
  /-- The uncertainty of the impact parameter. -/
  ipError : Float := 0
  deriving Inhabited

structure Jet where
  p4 : FourVector := {}
  user : UserData := {}
  deriving Inhabited

mutual

inductive Particle
  | electron (e : Electron)
  | muon (m : Muon)
  | jet (j : Jet)
  | composite (c : Composite)

structure Composite where
  daughters : List Particle
  /-- The photons attached to this candidate. -/
  photons : List FourVector
  pdgId : Int32
  user : UserData

end

instance : Inhabited Particle := ⟨.jet default⟩

instance : Inhabited Composite := ⟨⟨[], [], 0, {}⟩⟩

/-- A composite of daughters without photons. -/
def Composite.ofDaughters (pdgId : Int32) (daughters : List Particle) : Composite := ⟨daughters, [], pdgId, {}⟩

def Composite.addPhoton (c : Composite) (photon : FourVector) : Composite := { c with photons := c.photons ++ [photon] }

mutual

/-- The four-momentum; that of a composite is the sum of its daughters' plus the sum of its photons'. -/
def Particle.p4 : Particle → FourVector
  | .electron e => e.p4
  | .muon m => m.p4
  | .jet j => j.p4
  | .composite c => c.p4

def Composite.p4 : Composite → FourVector
  | ⟨daughters, photons, _, _⟩ => .sum (Particle.momenta daughters) + .sum photons

def Particle.momenta : List Particle → List FourVector
  | [] => []
  | d :: rest => d.p4 :: Particle.momenta rest

end

mutual

/-- The four-momentum without the photons of any composite. -/
def Particle.p4WithoutFsr : Particle → FourVector
  | .electron e => e.p4
  | .muon m => m.p4
  | .jet j => j.p4
  | .composite c => c.p4WithoutFsr

def Composite.p4WithoutFsr : Composite → FourVector
  | ⟨daughters, _, _, _⟩ => .sum (Particle.momentaWithoutFsr daughters)

def Particle.momentaWithoutFsr : List Particle → List FourVector
  | [] => []
  | d :: rest => d.p4WithoutFsr :: Particle.momentaWithoutFsr rest

end

/-- A sum of charges as far as it has been taken. -/
structure ChargeSum where
  /-- The sum in 32 bits. -/
  value : Int32 := 0
  /-- An addition has left the 32 bits. -/
  overflow : Bool := false
  deriving DecidableEq, Repr

inductive ChargeError
  | overflow
  deriving DecidableEq, Repr

namespace ChargeSum

/-- The sum with another one added to it. -/
def add (s c : ChargeSum) : ChargeSum where
  value := s.value + c.value
  overflow := s.overflow || c.overflow || (s.value + c.value).toInt != s.value.toInt + c.value.toInt

/-- The charge that has been summed up, unless an addition has left the 32 bits. -/
def charge (s : ChargeSum) : Except ChargeError Int32 := if s.overflow then .error .overflow else .ok s.value

end ChargeSum

mutual

/-- The electric charge as it is summed up, daughter by daughter from the first. -/
def Particle.chargeSum : Particle → ChargeSum
  | .electron e => { value := e.charge }
  | .muon m => { value := m.charge }
  | .jet _ => {}
  | .composite c => c.chargeSum

def Composite.chargeSum : Composite → ChargeSum
  | ⟨daughters, _, _, _⟩ => Particle.addCharges {} daughters

def Particle.addCharges (s : ChargeSum) : List Particle → ChargeSum
  | [] => s
  | d :: rest => Particle.addCharges (s.add d.chargeSum) rest

end

/-- The electric charge; that of a composite is the sum of its daughters'. -/
def Particle.charge (p : Particle) : Except ChargeError Int32 := p.chargeSum.charge

@[inherit_doc Particle.charge]
def Composite.charge (c : Composite) : Except ChargeError Int32 := c.chargeSum.charge

/-- The negative one of a pair of leptons has the positive id. -/
def leptonId (id : Int32) (charge : Int32) : Int32 := if charge < 0 then id else -id

namespace Particle

/-- The id in the numbering scheme of the Particle Data Group. -/
def pdgId : Particle → Int32
  | .electron e => leptonId 11 e.charge
  | .muon m => leptonId 13 m.charge
  | .jet _ => 0
  | .composite c => c.pdgId

def user : Particle → UserData
  | .electron e => e.user
  | .muon m => m.user
  | .jet j => j.user
  | .composite c => c.user

def daughters : Particle → List Particle
  | .composite c => c.daughters
  | _ => []

def daughter? (p : Particle) (i : Nat) : Option Particle := p.daughters[i]?

end Particle
end FlatNtuple
