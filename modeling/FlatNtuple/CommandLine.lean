import FlatNtuple.Event.Document
import FlatNtuple.Function.Overflow
/-!
# The command line

`parse` writes an expression with all its parentheses, `check` resolves the branches of a configuration, and `run` fills
the rows of the events of a file.  What a command prints and how it ends is a function of its arguments and of the files
it can read.
-/
namespace FlatNtuple
namespace CommandLine

inductive Command
  | parse (expression : String)
  | check (config : String)
  | run (config events : String)
  | version
  deriving DecidableEq, Repr

/-- How a command ends: with its output, with a failure that is reported, or refused as wrong usage. -/
inductive Outcome
  | output (text : String)
  | failure (message : String)
  | usage
  /-- Stopped by a charge out of range, with the output until then. -/
  | overflow (text : String)
  deriving DecidableEq, Repr

/-- The exit status. -/
def Outcome.code : Outcome → Nat
  | output _ => 0
  | failure _ => 1
  | usage => 2
  | overflow _ => 101

def versionText : String := "ntuplize 0.1.0\n"

/-- An argument that starts with a dash is an option; a dash alone is none. -/
def isOption (arg : String) : Bool :=
  match arg.toList with
  | '-' :: _ :: _ => true
  | _ => false

/-- The positional arguments: what follows `--` is one whatever it starts with. -/
def positionals : List String → Option (List String)
  | [] => some []
  | arg :: rest =>
    if arg = "--" then some rest
    else if isOption arg then none
    else (positionals rest).map (arg :: ·)

/-- Asks for the version; of a short option only the first letter counts. -/
def isVersion (arg : String) : Bool := arg = "--version" || arg.startsWith "-V"

/-- An empty argument names no file. -/
def isPath (arg : String) : Bool := !arg.isEmpty

/-- The command that arguments spell. -/
def Command.ofArguments (args : List String) : Option Command :=
  match args with
  | [] => none
  | name :: rest =>
    if isVersion name then some .version
    else match name, positionals rest with
      | "parse", some [expression] => some (.parse expression)
      | "check", some [config] => if isPath config then some (.check config) else none
      | "run", some [config, events] => if isPath config && isPath events then some (.run config events) else none
      | _, _ => none

/-- The contents of files by their paths. -/
abbrev Files := String → Option String

/-- The object type whose records the rows of a configuration are filled from. -/
def objectType : ObjectKind → Option ObjectType
  | .electron => some .electron
  | .muon => some .muon
  | .composite => some .composite
  | .other => none

def loadConfig (files : Files) (path : String) : Except String NtupleConfig :=
  match files path with
  | none => .error ("Cannot read configuration " ++ path)
  | some text =>
    match NtupleConfig.read text with
    | none => .error ("Invalid configuration " ++ path)
    | some c => .ok c

def typeOf (c : NtupleConfig) : Except String ObjectType :=
  match objectType c.object with
  | some t => .ok t
  | none => .error (NtupleError.unsupportedKind c.object).message

def build (t : ObjectType) (c : NtupleConfig) : Except String (Ntuple t) :=
  match Ntuple.ofConfig t c with
  | .ok n => .ok n
  | .error _ => .error "Cannot resolve branches"

open Json (Decoder FieldReader)
open Json.Decoder Json.FieldReader

/-- An event with the objects of one type in it. -/
def decodeRecord (t : ObjectType) : Decoder (Event × List t.Record) := record do
  return (← required "event" Event.decode, ← withDefault "objects" (list t.decode) [])

def readRecords (t : ObjectType) (text : String) : Except String (List (Event × List t.Record)) :=
  match (Json.read text).bind (list (decodeRecord t)) with
  | some records => .ok records
  | none => .error "Events must be a JSON array of \x7bevent, objects\x7d"

def check (files : Files) (path : String) : Except String String := do
  let c ← loadConfig files path
  let t ← typeOf c
  let n ← build t c
  return "OK: " ++ toString n.branchNames.length ++ " branches for " ++ c.object.text ++ "\n"

/-- The rows of some events, up to the first event with a charge out of range. -/
def write {t : ObjectType} (n : Ntuple t) (overflows : t.Record → Bool) (records : List (Event × List t.Record)) :
    Outcome :=
  let complete := records.takeWhile fun r => !r.2.any overflows
  let text := String.join (complete.flatMap fun r => (n.fillAll r.2 r.1).map fun row => row.document ++ "\n")
  if complete.length = records.length then .output text else .overflow text

def run (files : Files) (config events : String) : Except String Outcome := do
  let c ← loadConfig files config
  match files events with
  | none => .error ("Cannot read events from " ++ events)
  | some text =>
    let t ← typeOf c
    let n ← build t c
    let records ← readRecords t text
    return write n ((LibrarySet.ofCompiler c.compiler).overflows c.allBranches) records

def parse (text : String) : Except String String :=
  match Expr.parse text Expr.defaultLimit with
  | .ok e => .ok (e.text ++ "\n")
  | .error _ => .error ("Cannot parse '" ++ text ++ "'")

def Command.execute (files : Files) : Command → Except String Outcome
  | .parse text => (CommandLine.parse text).map .output
  | .check config => (CommandLine.check files config).map .output
  | .run config events => CommandLine.run files config events
  | .version => .ok (.output versionText)

/-- What comes of some arguments. -/
def outcome (files : Files) (args : List String) : Outcome :=
  match Command.ofArguments args with
  | none => .usage
  | some command =>
    match command.execute files with
    | .ok outcome => outcome
    | .error message => .failure ("Error: " ++ message)

end CommandLine
end FlatNtuple
