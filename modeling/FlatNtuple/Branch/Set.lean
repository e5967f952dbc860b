import FlatNtuple.OrderedMap
import FlatNtuple.Value
/-!
# Sets of branches

A branch is a column of an ntuple: a name, the function that fills it, and the kind of its values.  A set keeps the
branches of each kind in order of insertion; `entries` lists them kind by kind.
-/
namespace FlatNtuple

structure Branch where
  kind : ReturnKind
  name : String
  /-- The name of a native function, or an expression. -/
  function : String
  deriving DecidableEq, Repr

inductive BranchError
  /-- A name that is no identifier. -/
  | invalidName (name : String)
  | duplicate (name : String)
  deriving DecidableEq, Repr

def BranchError.message : BranchError → String
  | invalidName name => "Invalid branch name '" ++ name ++ "'"
  | duplicate name => "Branch '" ++ name ++ "' is defined more than once"

namespace Branch

def isNameStart (c : Char) : Bool := c.isAlpha || c = '_'

def isNameChar (c : Char) : Bool := c.isAlphanum || c = '_'

/-- Letters, digits and underscores, and no digit first. -/
def isName (s : String) : Bool :=
  match s.toList with
  | [] => false
  | c :: cs => isNameStart c && cs.all isNameChar

end Branch

/-- The functions of the branches of each kind, by branch name. -/
structure BranchSet where
  group : ReturnKind → OrderedMap String

namespace BranchSet

def empty : BranchSet := ⟨fun _ => ∅⟩

instance : EmptyCollection BranchSet := ⟨empty⟩

instance : Inhabited BranchSet := ⟨empty⟩

/-- Adds a branch, or gives a branch of the same kind and name a new function. -/
def insert (s : BranchSet) (b : Branch) : BranchSet :=
  ⟨fun k => if k = b.kind then (s.group k).insert b.name b.function else s.group k⟩

/-- The branches of a kind, in order of insertion. -/
def entriesOf (s : BranchSet) (k : ReturnKind) : List Branch := (s.group k).entries.map fun e => ⟨k, e.1, e.2⟩

/-- All branches, kind by kind. -/
def entries (s : BranchSet) : List Branch := ReturnKind.all.flatMap s.entriesOf

def size (s : BranchSet) : Nat := ReturnKind.all.foldl (fun n k => n + (s.group k).size) 0

def insertAll (s : BranchSet) (l : List Branch) : BranchSet := l.foldl insert s

/-- The branches of both sets, with the functions of the second where they share a branch. -/
def merge (s s' : BranchSet) : BranchSet := s.insertAll s'.entries

/-- The first fault of a list of branches, after those named so far. -/
def check (seen : List String) : List Branch → Except BranchError Unit
  | [] => .ok ()
  | b :: rest =>
    if !Branch.isName b.name then .error (.invalidName b.name)
    else if b.name ∈ seen then .error (.duplicate b.name)
    else check (b.name :: seen) rest

/-- All names are identifiers, and none occurs in two kinds. -/
def validate (s : BranchSet) : Except BranchError Unit := check [] s.entries

/-- Branches that are called what their functions are called. -/
def named (k : ReturnKind) (names : List String) : List Branch := names.map fun n => ⟨k, n, n⟩

/-- The usual branches of an event. -/
def event : BranchSet := empty.insertAll
  (named .float ["pvndof", "pvZ", "pvRho", "type1_pfMETEt", "type1_pfMETPhi"] ++
   named .bool ["pvIsValid", "pvIsFake"] ++
   named .uint ["lumi", "run", "nvtx", "nJets"] ++
   named .ulong ["evt"])

/-- The usual branches of a simulated event. -/
def generator : BranchSet := empty.insertAll (named .float ["genWeight", "nTruePU"])

@[simp] theorem group_empty (k : ReturnKind) : empty.group k = ∅ := rfl

theorem group_insert (s : BranchSet) (b : Branch) (k : ReturnKind) :
    (s.insert b).group k = if k = b.kind then (s.group k).insert b.name b.function else s.group k := rfl

end BranchSet
end FlatNtuple
