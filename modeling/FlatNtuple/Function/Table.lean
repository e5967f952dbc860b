import FlatNtuple.Function.Basic
import FlatNtuple.SortedMap
/-!
# Tables of native functions

A table is filled in two layers.  A function of one object type shadows the shared one of its name, whichever comes
first; otherwise a name that is taken is refused.
-/
namespace FlatNtuple

/-- A name that is registered twice. -/
structure DuplicateFunction where
  name : String
  kind : ReturnKind
  objectKind : ObjectKind
  deriving DecidableEq, Repr

def DuplicateFunction.message (e : DuplicateFunction) : String :=
  "Native " ++ e.kind.text ++ " function '" ++ e.name ++ "' for " ++ e.objectKind.text ++ " is registered twice"

structure NativeTable (k : ReturnKind) (t : ObjectType) where
  functions : SortedMap (NamedFunction k t) := ∅

namespace NativeTable

variable {k : ReturnKind} {t : ObjectType}

def empty : NativeTable k t := {}

def get? (n : NativeTable k t) (name : String) : Option (NamedFunction k t) := n.functions.get? name

def contains (n : NativeTable k t) (name : String) : Bool := n.functions.contains name

/-- The names in increasing order. -/
def names (n : NativeTable k t) : List String := n.functions.keys

def size (n : NativeTable k t) : Nat := n.functions.size

/-- The table with a function under its own name, whatever stood there. -/
def put (n : NativeTable k t) (f : NamedFunction k t) : NativeTable k t := ⟨n.functions.insert f.name f⟩

/-- Registers a function under its own name: the answer, and the table afterwards.  A function that is shadowed is left
out, and one that is refused leaves the table as it is. -/
def insert (n : NativeTable k t) (f : NamedFunction k t) : Except DuplicateFunction Unit × NativeTable k t :=
  match n.get? f.name with
  | none => (.ok (), n.put f)
  | some g =>
    match g.origin, f.origin with
    | .shared, .object => (.ok (), n.put f)
    | .object, .shared => (.ok (), n)
    | _, _ => (.error ⟨f.name, k, t.kind⟩, n)

/-- The table with a function registered, unless the function is refused. -/
def register (n : NativeTable k t) (f : NamedFunction k t) : Except DuplicateFunction (NativeTable k t) :=
  let (answer, n) := n.insert f
  answer.map fun _ => n

/-- The table of two layers, in which no name occurs twice. -/
def ofLayers (shared object : List (NamedFunction k t)) : NativeTable k t := object.foldl put (shared.foldl put empty)

theorem get?_put (n : NativeTable k t) (f : NamedFunction k t) (name : String) :
    (n.put f).get? name = if name = f.name then some f else n.get? name :=
  SortedMap.get?_insert _ _ _ _

end NativeTable
end FlatNtuple
