import FlatNtuple.Json.Decode
import FlatNtuple.Object.Type
/-!
# Objects in documents

How documents write the objects of an event.  Most fields may be left out; then they are zero, false or empty.

Particles say of which sort they are in a field `type`.  Since that field may stand anywhere, a particle is read as a
whole before its sort is known, so no part of it may be unreadable, not even one that is of no use.  What stands inside
a particle has more ways to be written: the sort by its number, and a name as the key of an empty object.
-/
namespace FlatNtuple

open Json (Decoder FieldReader)
open Json.Decoder Json.FieldReader

def FourVector.decode : Decoder FourVector := record do
  return {
    px := ← required "px" float
    py := ← required "py" float
    pz := ← required "pz" float
    energy := ← required "e" float }

def Point.decode : Decoder Point := record do
  return ⟨← required "x" float, ← required "y" float, ← required "z" float⟩

def Track.decode : Decoder Track := record do
  return {
    vx := ← required "vx" float
    vy := ← required "vy" float
    vz := ← required "vz" float
    px := ← required "px" float
    py := ← required "py" float
    pz := ← required "pz" float
    missingInnerHits := ← withDefault "missing_inner_hits" nat32 0 }

def UserData.decode : Decoder UserData := record do
  return ⟨← withDefault "floats" (dictionary float32) ∅, ← withDefault "ints" (dictionary int32) ∅⟩

def Electron.decode : Decoder Electron := record do
  return {
    p4 := ← withDefault "p4" FourVector.decode {}
    charge := ← withDefault "charge" int32 0
    user := ← withDefault "user" UserData.decode {}
    isBarrel := ← withDefault "is_eb" bool false
    isEndcap := ← withDefault "is_ee" bool false
    sigmaIetaIeta := ← withDefault "sigma_ieta_ieta" float 0
    hcalOverEcal := ← withDefault "hcal_over_ecal" float 0
    deltaEtaIn := ← withDefault "delta_eta_sc_trk_at_vtx" float 0
    deltaPhiIn := ← withDefault "delta_phi_sc_trk_at_vtx" float 0
    superClusterOverP := ← withDefault "e_sc_over_p" float 0
    ecalEnergy := ← withDefault "ecal_energy" float 0
    ecalIso := ← withDefault "ecal_pf_cluster_iso" float 0
    hcalIso := ← withDefault "hcal_pf_cluster_iso" float 0
    trackIso := ← withDefault "dr03_tk_sum_pt" float 0
    passConversionVeto := ← withDefault "pass_conversion_veto" bool false
    ip := ← withDefault "db_3d" float 0
    ipError := ← withDefault "edb_3d" float 0
    track := ← withDefault "gsf_track" Track.decode {} }

def TrackFit.names : List (String × TrackFit) :=
  [("none", .none), ("inner_track", .inner), ("outer_track", .outer), ("combined_track", .combined),
   ("tpfms", .tpfms), ("picky", .picky), ("dyt", .dyt)]

/-- A muon whose track fit is read by `fit`. -/
def Muon.decodeWith (fit : Decoder TrackFit) : Decoder Muon := record do
  return {
    p4 := ← withDefault "p4" FourVector.decode {}
    charge := ← withDefault "charge" int32 0
    user := ← withDefault "user" UserData.decode {}
    isPF := ← withDefault "is_pf" bool false
    isGlobal := ← withDefault "is_global" bool false
    isTracker := ← withDefault "is_tracker" bool false
    bestTrack := ← withDefault "best_track" (optional Track.decode) none
    bestTrackFit := ← withDefault "best_track_type" fit .none
    matchedStations := ← withDefault "matched_stations" nat32 0
    ip := ← withDefault "db_3d" float 0
    ipError := ← withDefault "edb_3d" float 0 }

def Muon.decode : Decoder Muon := Muon.decodeWith (name TrackFit.names)

def Jet.decode : Decoder Jet := record do
  return ⟨← withDefault "p4" FourVector.decode {}, ← withDefault "user" UserData.decode {}⟩

/-- A composite whose daughters are read by `particle`. -/
def Composite.decodeWith (particle : Decoder Particle) : Decoder Composite := record do
  return {
    daughters := ← withDefault "daughters" (list particle) []
    photons := ← withDefault "fsr_photons" (list FourVector.decode) []
    pdgId := ← withDefault "pdg_id" int32 0
    user := ← withDefault "user" UserData.decode {} }

/-- The sorts of particles, in the order of their numbers. -/
inductive ParticleSort
  | electron
  | muon
  | jet
  | composite
  deriving DecidableEq, Repr

namespace ParticleSort

def all : List ParticleSort := [electron, muon, jet, composite]

def text : ParticleSort → String
  | electron => "electron"
  | muon => "muon"
  | jet => "jet"
  | composite => "composite"

/-- A sort by its name. -/
def decode : Decoder ParticleSort
  | .string s => all.find? fun sort => sort.text = s
  | _ => none

/-- A sort inside a particle, by its name or its number. -/
def decodeInside : Decoder ParticleSort
  | .integer i => if 0 ≤ i then all[i.toNat]? else none
  | j => decode j

end ParticleSort

namespace Particle

/-- What says of which sort a particle is, and the document without it. -/
def splitSort : Json → Option (Json × Json)
  | .object members =>
    match members.filter fun m => m.1 = "type" with
    | [(_, sort)] => some (sort, .object (members.filter fun m => m.1 ≠ "type"))
    | _ => none
  | .array (sort :: items) => some (sort, .array items)
  | _ => none

/-- A particle whose sort is read by `sort`, and in which composites nest at most so many levels. -/
def decodeWithin : Nat → Decoder ParticleSort → Decoder Particle
  | 0, _, _ => none
  | levels + 1, sort, j => do
    let (s, rest) ← splitSort j
    match ← sort s with
    | .electron => return .electron (← Electron.decode rest)
    | .muon => return .muon (← Muon.decodeWith (nameOrKey TrackFit.names) rest)
    | .jet => return .jet (← Jet.decode rest)
    | .composite =>
      return .composite (← Composite.decodeWith (decodeWithin levels ParticleSort.decodeInside) rest)

/-- Composites nest no more levels than the document does. -/
def decode : Decoder Particle := fun j =>
  if j.isReadable then decodeWithin (j.depth + 1) ParticleSort.decode j else none

end Particle

def Composite.decode : Decoder Composite := Composite.decodeWith Particle.decode

/-- A record of an object type. -/
def ObjectType.decode : (t : ObjectType) → Decoder t.Record
  | electron => Electron.decode
  | muon => Muon.decode
  | composite => Composite.decode
  | jet => Jet.decode
  | particle => Particle.decode

end FlatNtuple
