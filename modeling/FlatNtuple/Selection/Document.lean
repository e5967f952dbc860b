import FlatNtuple.Event.Document
import FlatNtuple.Selection.LooseElectron
/-!
# Selections in documents
-/
namespace FlatNtuple

open Json (Decoder FieldReader)
open Json.Decoder Json.FieldReader

/-- An embedder, with the usual names where the document has none. -/
def Embedder.decode : Decoder Embedder := record do
  return {
    flags := ← withDefault "pog_id_names" (list string) ({} : Embedder).flags
    label := ← withDefault "label" string ({} : Embedder).label
    suffix := ← withDefault "suffix" string ({} : Embedder).suffix }

end FlatNtuple
