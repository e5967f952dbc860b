import FlatNtuple.Branch.Set
import FlatNtuple.Json.Decode
import FlatNtuple.Json.Reader
import FlatNtuple.Meaning.Compiled
/-!
# Configurations of ntuples

A configuration says which objects fill the rows and which branches the columns are: the usual ones of the event and of
the simulation if they are included, then its own.  A branch of its own takes the place of a usual one of its kind and
name.
-/
namespace FlatNtuple

structure NtupleConfig where
  object : ObjectKind
  branches : BranchSet := ∅
  includeEvent : Bool := false
  includeGenerator : Bool := false
  compiler : CompilerConfig := {}

open Json (Decoder FieldReader)
open Json.Decoder Json.FieldReader

def ObjectKind.decode : Decoder ObjectKind := name
  [("electron", .electron), ("muon", .muon), ("composite", .composite), ("other", .other)]

/-- Groups of branches by the names of their kinds, and nothing else. -/
def BranchSet.decode : Decoder BranchSet := strictRecord do
  let floats ← withDefault "floats" (dictionary string) ∅
  let bools ← withDefault "bools" (dictionary string) ∅
  let ints ← withDefault "ints" (dictionary string) ∅
  let uints ← withDefault "uints" (dictionary string) ∅
  let ulongs ← withDefault "ulls" (dictionary string) ∅
  return ⟨fun
    | .float => floats
    | .bool => bools
    | .int => ints
    | .uint => uints
    | .ulong => ulongs⟩

def CompilerConfig.decode : Decoder CompilerConfig := record do
  return ⟨← withDefault "max_depth" (fun j => (nat64 j).map UInt64.toNat) ({} : CompilerConfig).maxDepth⟩

namespace NtupleConfig

def decode : Decoder NtupleConfig := strictRecord do
  return {
    object := ← required "object" ObjectKind.decode
    branches := ← withDefault "branches" BranchSet.decode ∅
    includeEvent := ← withDefault "include_event" bool false
    includeGenerator := ← withDefault "include_gen" bool false
    compiler := ← withDefault "compiler" CompilerConfig.decode {} }

/-- The configuration that a text is. -/
def read (text : String) : Option NtupleConfig := (Json.read text).bind decode

/-- The branches before they are checked. -/
def allBranches (c : NtupleConfig) : BranchSet :=
  let usual := if c.includeEvent then BranchSet.empty.merge .event else .empty
  let usual := if c.includeGenerator then usual.merge .generator else usual
  usual.merge c.branches

/-- The branches of the ntuple, unless a name is no identifier or stands for two of them. -/
def resolvedBranches (c : NtupleConfig) : Except BranchError BranchSet := do
  c.allBranches.validate
  return c.allBranches

end NtupleConfig
end FlatNtuple
