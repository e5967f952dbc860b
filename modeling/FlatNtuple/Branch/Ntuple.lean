import FlatNtuple.Branch.Config
import FlatNtuple.Branch.Row
import FlatNtuple.Function.Library
/-!
# Ntuples

An ntuple over objects of one type is a list of columns, each with the function that fills it.  All functions are found
before the first row is filled, so a bad name or expression shows at once.
-/
namespace FlatNtuple

inductive NtupleError
  /-- There are no records of objects of this kind. -/
  | unsupportedKind (kind : ObjectKind)
  | branch (error : BranchError)
  | library (error : LibraryError)
  deriving DecidableEq, Repr

def NtupleError.message : NtupleError → String
  | unsupportedKind kind => "Object kind '" ++ kind.text ++ "' cannot be ntuplized directly"
  | branch e => e.message
  | library e => e.message

structure Ntuple (t : ObjectType) where
  columns : List (String × AnyFunction t)

/-- The columns of some branches, or why the first one that has no function has none, and the libraries afterwards. -/
def LibrarySet.columns {t : ObjectType} (s : LibrarySet t) :
    List Branch → Except LibraryError (List (String × AnyFunction t)) × LibrarySet t
  | [] => (.ok [], s)
  | b :: rest =>
    match s.get b.kind b.function with
    | (.error e, s) => (.error e, s)
    | (.ok f, s) =>
      let (answer, s) := s.columns rest
      (answer.map fun cs => (b.name, f) :: cs, s)

namespace Ntuple

variable {t : ObjectType}

/-- The ntuple of some branches, with functions from libraries that it may share with other ntuples. -/
def ofBranches (branches : BranchSet) (s : LibrarySet t) : Except LibraryError (Ntuple t) × LibrarySet t :=
  let (answer, s) := s.columns branches.entries
  (answer.map Ntuple.mk, s)

/-- The ntuple of a configuration, with libraries of its own. -/
def ofConfig (t : ObjectType) (c : NtupleConfig) : Except NtupleError (Ntuple t) :=
  if c.object ≠ t.kind then .error (.unsupportedKind c.object)
  else match c.resolvedBranches with
    | .error e => .error (.branch e)
    | .ok branches =>
      match (ofBranches branches (.ofCompiler c.compiler)).1 with
      | .error e => .error (.library e)
      | .ok n => .ok n

def branchNames (n : Ntuple t) : List String := n.columns.map Prod.fst

/-- The row of an object. -/
def fill (n : Ntuple t) (x : t.Record) (e : Event) : Row :=
  .ofList (n.columns.map fun c => (c.1, c.2.call x e))

/-- The rows of the objects of an event. -/
def fillAll (n : Ntuple t) (xs : List t.Record) (e : Event) : List Row := xs.map fun x => n.fill x e

end Ntuple
end FlatNtuple
