import FlatNtuple.Event.Basic
import FlatNtuple.Meaning.Compiled
/-!
# Named functions

A named function takes an object and the event it belongs to, to a value of one kind.  A compiled expression is one that
does not look at the event.
-/
namespace FlatNtuple

/-- Where a named function comes from: the quantities of all objects, those of one type, or an expression. -/
inductive Origin
  | shared
  | object
  | compiled
  deriving DecidableEq, Repr

structure NamedFunction (k : ReturnKind) (t : ObjectType) where
  name : String
  origin : Origin
  call : t.Record → Event → k.Carrier

def Compiled.toFunction {k : ReturnKind} {t : ObjectType} (c : Compiled k t) : NamedFunction k t :=
  ⟨c.source, .compiled, fun x _ => c.evaluate x⟩

/-- A named function with its kind. -/
structure AnyFunction (t : ObjectType) where
  kind : ReturnKind
  function : NamedFunction kind t

namespace AnyFunction

variable {t : ObjectType}

def name (f : AnyFunction t) : String := f.function.name

def call (f : AnyFunction t) (x : t.Record) (e : Event) : Value := .of f.kind (f.function.call x e)

theorem kind_call (f : AnyFunction t) (x : t.Record) (e : Event) : (f.call x e).kind = f.kind := Value.kind_of _ _

end AnyFunction
end FlatNtuple
