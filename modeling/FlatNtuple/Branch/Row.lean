import FlatNtuple.Json.Decode
import FlatNtuple.Json.Quoted
import FlatNtuple.Json.Reader
import FlatNtuple.OrderedMap
import FlatNtuple.Value
/-!
# Rows

A row of an ntuple holds a value for each of its branches, in the order of the branches.  As a document it is an object
without any mark of the kinds, so a row that is read back has of each value the narrowest kind that fits.
-/
namespace FlatNtuple

abbrev Row := OrderedMap Value

/-- Numbers in documents have a point or an exponent; from `1e13` and below `1e-6` they have a signed exponent. -/
def Value.documentLayout : Decimal.Layout := ⟨some (-6, 12), true, true, .toEven, "null", "null"⟩

/-- The value as a document: numbers that are not finite have none. -/
def Value.document : Value → String
  | float x => if x.isFinite then documentLayout.float32 x else "null"
  | v => v.text

/-- The narrowest kind that a document fits: truth values, then integers with and without a sign, then floats. -/
def Value.decode : Json.Decoder Value
  | .bool b => some (.bool b)
  | .integer i =>
    if Int32.minValue.toInt ≤ i ∧ i ≤ Int32.maxValue.toInt then some (.int (Int32.ofInt i))
    else if 0 ≤ i ∧ i < UInt32.size then some (.uint (UInt32.ofNat i.toNat))
    else if 0 ≤ i ∧ i < UInt64.size then some (.ulong (UInt64.ofNat i.toNat))
    else some (.float (Binary.narrowInt i))
  | .real x => some (.float (Binary.narrow x))
  | _ => none

namespace Row

/-- The members of a row, with a comma between two of them. -/
def members : List (String × Value) → String
  | [] => ""
  | [(name, v)] => Json.quote name ++ ":" ++ v.document
  | (name, v) :: rest => Json.quote name ++ ":" ++ v.document ++ "," ++ members rest

/-- The row as a document. -/
def document (r : Row) : String := "\x7b" ++ members r.entries ++ "\x7d"

def decode : Json.Decoder Row := Json.Decoder.dictionary Value.decode

/-- The row that a text is. -/
def read (text : String) : Option Row := (Json.read text).bind decode

end Row
end FlatNtuple
