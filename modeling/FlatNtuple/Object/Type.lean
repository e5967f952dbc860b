import FlatNtuple.Object.Particle
/-!
# Types of objects

The five types of records that functions are defined over.  Whatever its type, a record can be seen as a `Particle`;
what depends on the type is on `ObjectType`, and what messages call it is its `ObjectKind`.
-/
namespace FlatNtuple

/-- What an object is called.  Jets and particles of any sort go by the general name. -/
inductive ObjectKind
  | electron
  | muon
  | composite
  | other
  deriving DecidableEq, Repr, Inhabited

def ObjectKind.text : ObjectKind → String
  | electron => "electron"
  | muon => "muon"
  | composite => "composite candidate"
  | other => "candidate"

inductive ObjectType
  | electron
  | muon
  | composite
  | jet
  | particle
  deriving DecidableEq, Repr, Inhabited

namespace ObjectType

def kind : ObjectType → ObjectKind
  | electron => .electron
  | muon => .muon
  | composite => .composite
  | jet => .other
  | particle => .other

abbrev Record : ObjectType → Type
  | electron => Electron
  | muon => Muon
  | composite => Composite
  | jet => Jet
  | particle => Particle

def toParticle : (t : ObjectType) → t.Record → Particle
  | electron => .electron
  | muon => .muon
  | composite => .composite
  | jet => .jet
  | particle => id

end ObjectType
end FlatNtuple
