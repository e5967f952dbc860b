import FlatNtuple.Object.Type
/-!
# What all objects have in common

Every object has a four-momentum, a charge, an id and user data, and a composite has daughters.  A `Candidate` says how
the records of one type answer these questions: electrons, muons, jets and composites each in their own way, and a
particle as the object that it is.  So a record and the particle that it is seen as answer alike (`candidate_eq`).
-/
namespace FlatNtuple

/-- How the records of a type answer what every object can be asked. -/
structure Candidate (α : Type) where
  p4 : α → FourVector
  /-- The charge as it is summed up.  Where it is out of range, functions go on with its value in 32 bits. -/
  chargeSum : α → ChargeSum
  pdgId : α → Int32
  user : α → UserData
  daughterCount : α → Nat := fun _ => 0
  /-- A daughter by its index, which may be out of range. -/
  daughter? : α → Nat → Option Particle := fun _ _ => none

/-- The answers of the records that others are seen as. -/
def Candidate.comap {α β : Type} (f : β → α) (c : Candidate α) : Candidate β where
  p4 x := c.p4 (f x)
  chargeSum x := c.chargeSum (f x)
  pdgId x := c.pdgId (f x)
  user x := c.user (f x)
  daughterCount x := c.daughterCount (f x)
  daughter? x := c.daughter? (f x)

def Electron.candidate : Candidate Electron where
  p4 := Electron.p4
  chargeSum e := { value := e.charge }
  pdgId e := leptonId 11 e.charge
  user := Electron.user

def Muon.candidate : Candidate Muon where
  p4 := Muon.p4
  chargeSum m := { value := m.charge }
  pdgId m := leptonId 13 m.charge
  user := Muon.user

def Jet.candidate : Candidate Jet where
  p4 := Jet.p4
  chargeSum _ := {}
  pdgId _ := 0
  user := Jet.user

def Composite.candidate : Candidate Composite where
  p4 := Composite.p4
  chargeSum := Composite.chargeSum
  pdgId := Composite.pdgId
  user := Composite.user
  daughterCount c := c.daughters.length
  daughter? c i := c.daughters[i]?

def Particle.candidate : Candidate Particle where
  p4 := Particle.p4
  chargeSum := Particle.chargeSum
  pdgId := Particle.pdgId
  user := Particle.user
  daughterCount p := p.daughters.length
  daughter? := Particle.daughter?

namespace ObjectType

def candidate : (t : ObjectType) → Candidate t.Record
  | electron => Electron.candidate
  | muon => Muon.candidate
  | composite => Composite.candidate
  | jet => Jet.candidate
  | particle => Particle.candidate

/-- **A record answers as the particle that it is seen as.** -/
theorem candidate_eq (t : ObjectType) : t.candidate = Particle.candidate.comap t.toParticle := by
  cases t <;> rfl

end ObjectType
end FlatNtuple
