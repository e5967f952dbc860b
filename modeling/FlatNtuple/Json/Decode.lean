import FlatNtuple.Json.Basic
import FlatNtuple.OrderedMap
import FlatNtuple.Binary.Convert
/-!
# Typed views of documents

A `Decoder` reads a value of a type off a document, or says that the document does not fit.  Integers fit wherever a
number is wanted, other numbers do not fit an integer type, `null` fits an optional value only, and what is unreadable
fits nothing.

A record is written as an object, in which every field of the record occurs at most once, or as the list of its fields
in their order.  `required` and `withDefault` take one field after the other off either form.
-/
namespace FlatNtuple
namespace Json

abbrev Decoder (α : Type) := Json → Option α

namespace Decoder

variable {α : Type}

def bool : Decoder Bool
  | .bool b => some b
  | _ => none

def string : Decoder String
  | .string s => some s
  | _ => none

def float : Decoder Float
  | .integer i => some (Binary.ofInt i)
  | .real x => some x
  | _ => none

def float32 : Decoder Float32
  | .integer i => some (Binary.narrowInt i)
  | .real x => some (Binary.narrow x)
  | _ => none

/-- An integer between two bounds. -/
def between (lo hi : Int) : Decoder Int
  | .integer i => if lo ≤ i ∧ i ≤ hi then some i else none
  | _ => none

def int32 : Decoder Int32 := fun j => (between Int32.minValue.toInt Int32.maxValue.toInt j).map Int32.ofInt

def nat32 : Decoder UInt32 := fun j => (between 0 (UInt32.size - 1) j).map fun i => UInt32.ofNat i.toNat

def nat64 : Decoder UInt64 := fun j => (between 0 (UInt64.size - 1) j).map fun i => UInt64.ofNat i.toNat

def list (item : Decoder α) : Decoder (List α)
  | .array items => items.mapM item
  | _ => none

def optional (value : Decoder α) : Decoder (Option α)
  | .null => some none
  | j => (value j).map some

/-- Keyed values; of a key that occurs twice the last value counts. -/
def dictionary (value : Decoder α) : Decoder (OrderedMap α)
  | .object members => (members.mapM fun m : String × Json => (value m.2).map fun v => (m.1, v)).map OrderedMap.ofList
  | _ => none

/-- One of some names, alone or as the only key of an object with the value `null`. -/
def name (names : List (String × α)) : Decoder α
  | .string s => names.lookup s
  | .object [(s, .null)] => names.lookup s
  | _ => none

/-- One of some names, for which the value of the only key may also be an empty object. -/
def nameOrKey (names : List (String × α)) : Decoder α
  | .object [(s, .object [])] => names.lookup s
  | j => name names j

end Decoder

/-- The fields of a record that have not been taken yet. -/
inductive Fields
  | named (members : List (String × Json))
  | listed (items : List Json)

abbrev FieldReader := StateT Fields Option

namespace FieldReader

variable {α : Type}

/-- Takes the field of a name, or the next one of a list. -/
def take (name : String) : FieldReader (Option Json)
  | .named members =>
    match members.filter fun m => m.1 = name with
    | [] => some (none, .named members)
    | [(_, j)] => some (some j, .named (members.filter fun m => m.1 ≠ name))
    | _ => none
  | .listed [] => some (none, .listed [])
  | .listed (j :: rest) => some (some j, .listed rest)

def required (name : String) (value : Decoder α) : FieldReader α := do
  match ← take name with
  | some j => fun s => (value j).map fun v => (v, s)
  | none => fun _ => none

def withDefault (name : String) (value : Decoder α) (default : α) : FieldReader α := do
  match ← take name with
  | some j => fun s => (value j).map fun v => (v, s)
  | none => return default

end FieldReader

namespace Decoder

variable {α : Type}

/-- A record whose object may have further members. -/
def record (fields : FieldReader α) : Decoder α
  | .object members => (fields (.named members)).map Prod.fst
  | .array items =>
    match fields (.listed items) with
    | some (v, .listed []) => some v
    | _ => none
  | _ => none

/-- A record whose object has no other members. -/
def strictRecord (fields : FieldReader α) : Decoder α
  | .object members =>
    match fields (.named members) with
    | some (v, .named []) => some v
    | _ => none
  | j => record fields j

end Decoder

mutual

/-- The document with one member for each key of an object: the first one's place, the last one's value. -/
def merged : Json → Json
  | .array items => .array (mergedItems items)
  | .object members => .object (mergedMembers [] members)
  | j => j

def mergedItems : List Json → List Json
  | [] => []
  | j :: rest => merged j :: mergedItems rest

def mergedMembers (done : List (String × Json)) : List (String × Json) → List (String × Json)
  | [] => done
  | (k, j) :: rest => mergedMembers (OrderedMap.put k (merged j) done) rest

end

end Json
end FlatNtuple
