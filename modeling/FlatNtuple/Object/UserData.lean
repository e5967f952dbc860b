import FlatNtuple.OrderedMap
/-!
# User data

Numbers attached to an object under keys of one's own, floating-point ones and integers apart.
-/
namespace FlatNtuple

structure UserData where
  floats : OrderedMap Float32 := ∅
  ints : OrderedMap Int32 := ∅
  deriving Inhabited

namespace UserData

def addFloat (u : UserData) (key : String) (value : Float32) : UserData :=
  { u with floats := u.floats.insert key value }

def addInt (u : UserData) (key : String) (value : Int32) : UserData :=
  { u with ints := u.ints.insert key value }

end UserData
end FlatNtuple
