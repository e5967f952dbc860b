import FlatNtuple.Event.Basic
import FlatNtuple.Object.Document
/-!
# Events in documents

Every part of an event may be left out, but what is given has to be complete.  Pileup and the generator's information
may also be `null`.
-/
namespace FlatNtuple

open Json (Decoder FieldReader)
open Json.Decoder Json.FieldReader

def EventId.decode : Decoder EventId := record do
  return ⟨← required "run" nat32, ← required "lumi" nat32, ← required "event" nat64⟩

def Vertex.decode : Decoder Vertex := record do
  return {
    position := ← required "position" Point.decode
    ndof := ← withDefault "ndof" float 0
    isValid := ← withDefault "is_valid" bool true
    isFake := ← withDefault "is_fake" bool false }

def Pileup.decode : Decoder Pileup := record do
  return ⟨← required "bunch_crossing" int32, ← required "true_num_interactions" float32⟩

/-- A momentum as the only field of a record. -/
def FourVector.decodeField : Decoder FourVector := record (required "p4" FourVector.decode)

def Event.decode : Decoder Event := record do
  return {
    id := ← withDefault "id" EventId.decode {}
    vertices := ← withDefault "vertices" (list Vertex.decode) []
    met := ← withDefault "met" FourVector.decodeField {}
    jets := ← withDefault "jets" (list Jet.decode) []
    genJets := ← withDefault "gen_jets" (list FourVector.decodeField) []
    pileup := ← withDefault "pileup" (optional (list Pileup.decode)) none
    genWeight := ← withDefault "gen_info" (optional (record (required "weight" float))) none }

end FlatNtuple
