import FlatNtuple.Binary.Convert
import FlatNtuple.Object.Candidate
/-!
# Accessors

The quantities of an object that expressions know by name.  All objects share the names of `Accessor.ofCandidate`;
electrons and muons have accessors of their own besides, which come first.  A daughter is seen as a particle, so it has
the shared ones only.
-/
namespace FlatNtuple

/-- A named quantity of objects of a type, with the arguments it takes. -/
inductive Accessor (α : Type)
  | number (value : α → Float)
  | boolean (value : α → Bool)
  /-- A number looked up by a key, which may be absent. -/
  | numberByKey (value : α → String → Option Float)
  | booleanByKey (value : α → String → Bool)
  /-- A daughter by its index, which may be out of range. -/
  | daughter (value : α → Nat → Option Particle)

namespace Accessor

/-- The same quantity of objects of another type. -/
def comap {α β : Type} (f : β → α) : Accessor α → Accessor β
  | number value => .number fun x => value (f x)
  | boolean value => .boolean fun x => value (f x)
  | numberByKey value => .numberByKey fun x => value (f x)
  | booleanByKey value => .booleanByKey fun x => value (f x)
  | daughter value => .daughter fun x => value (f x)

/-- The names of a list of accessors, in increasing order. -/
def names {α : Type} (l : List (String × Accessor α)) : List String := (l.map Prod.fst).mergeSort

/-- The accessors of every object. -/
def ofCandidate {α : Type} (c : Candidate α) : List (String × Accessor α) :=
  [("pt", .number fun x => (c.p4 x).pt),
   ("eta", .number fun x => (c.p4 x).eta),
   ("phi", .number fun x => (c.p4 x).phi),
   ("mass", .number fun x => (c.p4 x).mass),
   ("energy", .number fun x => (c.p4 x).energy),
   ("et", .number fun x => (c.p4 x).et),
   ("px", .number fun x => (c.p4 x).px),
   ("py", .number fun x => (c.p4 x).py),
   ("pz", .number fun x => (c.p4 x).pz),
   ("p", .number fun x => (c.p4 x).p),
   ("rapidity", .number fun x => (c.p4 x).rapidity),
   ("y", .number fun x => (c.p4 x).rapidity),
   ("theta", .number fun x => (c.p4 x).theta),
   ("charge", .number fun x => Binary.ofInt (c.chargeSum x).value.toInt),
   ("pdgId", .number fun x => Binary.ofInt (c.pdgId x).toInt),
   ("numberOfDaughters", .number fun x => Binary.ofInt (c.daughterCount x)),
   ("daughter", .daughter c.daughter?),
   ("userFloat", .numberByKey fun x key => ((c.user x).floats.get? key).map Binary.widen),
   ("userInt", .numberByKey fun x key => ((c.user x).ints.get? key).map fun i => Binary.ofInt i.toInt),
   ("hasUserFloat", .booleanByKey fun x key => (c.user x).floats.contains key),
   ("hasUserInt", .booleanByKey fun x key => (c.user x).ints.contains key)]

/-- The accessors of a particle. -/
def shared : List (String × Accessor Particle) := ofCandidate Particle.candidate

theorem ofCandidate_comap {α β : Type} (c : Candidate α) (f : β → α) :
    ofCandidate (c.comap f) = (ofCandidate c).map fun e => (e.1, e.2.comap f) := rfl

def ofElectron : List (String × Accessor Electron) :=
  [("isEB", .boolean Electron.isBarrel),
   ("isEE", .boolean Electron.isEndcap),
   ("sigmaIetaIeta", .number Electron.sigmaIetaIeta),
   ("hcalOverEcal", .number Electron.hcalOverEcal),
   ("deltaEtaSuperClusterTrackAtVtx", .number Electron.deltaEtaIn),
   ("deltaPhiSuperClusterTrackAtVtx", .number Electron.deltaPhiIn),
   ("eSuperClusterOverP", .number Electron.superClusterOverP),
   ("ecalEnergy", .number Electron.ecalEnergy),
   ("ecalPFClusterIso", .number Electron.ecalIso),
   ("hcalPFClusterIso", .number Electron.hcalIso),
   ("dr03TkSumPt", .number Electron.trackIso),
   ("passConversionVeto", .boolean Electron.passConversionVeto),
   ("dB", .number Electron.ip),
   ("edB", .number Electron.ipError),
   ("missingInnerHits", .number fun e => Binary.ofInt e.track.missingInnerHits.toNat)]

def ofMuon : List (String × Accessor Muon) :=
  [("isPFMuon", .boolean Muon.isPF),
   ("isGlobalMuon", .boolean Muon.isGlobal),
   ("isTrackerMuon", .boolean Muon.isTracker),
   ("numberOfMatchedStations", .number fun m => Binary.ofInt m.matchedStations.toNat),
   ("muonBestTrackType", .number fun m => Binary.ofInt m.bestTrackFit.code.toNat),
   ("dB", .number Muon.ip),
   ("edB", .number Muon.ipError)]

end Accessor

/-- The accessors that objects of a type have besides the shared ones. -/
def ObjectType.own : (t : ObjectType) → List (String × Accessor t.Record)
  | .electron => Accessor.ofElectron
  | .muon => Accessor.ofMuon
  | _ => []

/-- The accessor that a name stands for on objects of a type. -/
def ObjectType.accessor? (t : ObjectType) (name : String) : Option (Accessor t.Record) :=
  match t.own.lookup name with
  | some a => some a
  | none => (Accessor.ofCandidate t.candidate).lookup name

/-- What the records of a type share with all objects, they share with the particles that they are seen as. -/
theorem ObjectType.lookup_ofCandidate (t : ObjectType) (name : String) :
    (Accessor.ofCandidate t.candidate).lookup name =
      (Accessor.shared.lookup name).map (Accessor.comap t.toParticle) := by
  rw [t.candidate_eq, Accessor.ofCandidate_comap, lookup_map_snd, Accessor.shared]

end FlatNtuple
