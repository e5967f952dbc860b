/-!
# Documents

A document is a value built from numbers, strings, arrays and objects.  Objects keep their members in the order of the
text, and every member of a key that occurs twice.

A text may hold what is well formed but has no value: a number out of range, a string with half a surrogate pair, an
array too deep inside others.  It is `unreadable`, which does no harm where nobody reads it.
-/
namespace FlatNtuple

inductive Json
  | null
  | bool (value : Bool)
  /-- A number without a fraction or an exponent that fits 64 bits, signed or unsigned. -/
  | integer (value : Int)
  /-- Any other number. -/
  | real (value : Float)
  | string (value : String)
  | array (items : List Json)
  | object (members : List (String × Json))
  /-- Something well formed that has no value. -/
  | unreadable

namespace Json

/-- The integers that are kept as integers. -/
def leastInteger : Int := Int64.minValue.toInt

def greatestInteger : Int := UInt64.size - 1

instance : Inhabited Json := ⟨.null⟩

mutual

/-- How deeply arrays and objects nest. -/
def depth : Json → Nat
  | .array items => depthOfItems items + 1
  | .object members => depthOfMembers members + 1
  | _ => 0

def depthOfItems : List Json → Nat
  | [] => 0
  | j :: rest => max (depth j) (depthOfItems rest)

def depthOfMembers : List (String × Json) → Nat
  | [] => 0
  | (_, j) :: rest => max (depth j) (depthOfMembers rest)

end

mutual

/-- Every part has a value. -/
def isReadable : Json → Bool
  | .unreadable => false
  | .array items => itemsReadable items
  | .object members => membersReadable members
  | _ => true

def itemsReadable : List Json → Bool
  | [] => true
  | j :: rest => isReadable j && itemsReadable rest

def membersReadable : List (String × Json) → Bool
  | [] => true
  | (_, j) :: rest => isReadable j && membersReadable rest

end

mutual

/-- The document with what nests deeper than so many levels made unreadable. -/
def within : (levels : Nat) → Json → Json
  | 0, .array _ => .unreadable
  | 0, .object _ => .unreadable
  | levels + 1, .array items => .array (itemsWithin levels items)
  | levels + 1, .object members => .object (membersWithin levels members)
  | _, j => j

def itemsWithin (levels : Nat) : List Json → List Json
  | [] => []
  | j :: rest => within levels j :: itemsWithin levels rest

def membersWithin (levels : Nat) : List (String × Json) → List (String × Json)
  | [] => []
  | (k, j) :: rest => (k, within levels j) :: membersWithin levels rest

end

end Json
end FlatNtuple
