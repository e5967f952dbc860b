import FlatNtuple.Jet.Uncertainty
import FlatNtuple.Object.Document
/-!
# Shifted jets

The systematic uncertainty of the jet energy scale, as two copies of the jets of an event: the transverse momentum of
each is scaled up and down by its relative uncertainty, with direction and mass kept.
-/
namespace FlatNtuple

/-- A relative uncertainty by pseudorapidity and transverse momentum. -/
abbrev UncertaintySource := Float → Float → Float

namespace UncertaintySource

def constant (u : Float) : UncertaintySource := fun _ _ => u

end UncertaintySource

inductive ShiftError
  | unknownJetType (jetType : String)
  deriving DecidableEq, Repr

def ShiftError.message : ShiftError → String
  | unknownJetType jetType => "No jet energy uncertainty available for jet type '" ++ jetType ++ "'"

/-- Tables by the type of jets they are for. -/
abbrev UncertaintyRecord := OrderedMap UncertaintyTable

namespace UncertaintyRecord

def decode : Json.Decoder UncertaintyRecord := Json.Decoder.dictionary UncertaintyTable.decode

def defaultJetType : String := "AK4PFchs"

/-- The uncertainties of one type of jets. -/
def source (r : UncertaintyRecord) (jetType : String) : Except ShiftError UncertaintySource :=
  match r.get? jetType with
  | some t => .ok t.uncertainty
  | none => .error (.unknownJetType jetType)

end UncertaintyRecord

structure ShiftedJets where
  up : List Jet
  down : List Jet

def Jet.scale (j : Jet) (factor : Float) : Jet := { j with p4 := j.p4.scalePt factor }

def UncertaintySource.relative (s : UncertaintySource) (j : Jet) : Float := s j.p4.eta j.p4.pt

def UncertaintySource.shift (s : UncertaintySource) (jets : List Jet) : ShiftedJets where
  up := jets.map fun j => j.scale (1 + s.relative j)
  down := jets.map fun j => j.scale (1 - s.relative j)

end FlatNtuple
