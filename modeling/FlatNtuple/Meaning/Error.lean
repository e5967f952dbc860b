import FlatNtuple.Expr.Error
import FlatNtuple.Object.Type
/-!
# Errors of compilation

A `Fault` is what can be wrong with a tree over the accessors of an object type.  A `CompileError` is why a text does
not compile, together with the text.
-/
namespace FlatNtuple

/-- The type of a subexpression. -/
inductive ValueType
  | number
  | boolean
  | object
  | text
  deriving DecidableEq, Repr

def ValueType.name : ValueType → String
  | number => "number"
  | boolean => "boolean"
  | object => ObjectKind.other.text ++ " object"
  | text => "string"

/-- What a subexpression has to be where it stands. -/
inductive Required
  | number
  | boolean
  | objectBefore (member : String)
  /-- The result of a whole expression. -/
  | result
  deriving DecidableEq, Repr

def Required.text : Required → String
  | number => "a number"
  | boolean => "a boolean"
  | objectBefore member => "an object before '." ++ member ++ "'"
  | result => "a number or boolean result"

inductive ArgumentFault
  | none (found : Nat)
  | key
  | index
  | negativeIndex (index : Int)
  | arity (expected found : Nat)
  /-- An argument that a builtin function has not got although there are as many as it takes. -/
  | missing
  /-- Something other than a child is indexed. -/
  | notIndexable
  deriving DecidableEq, Repr

def ArgumentFault.text : ArgumentFault → String
  | none found => "takes no arguments, found " ++ toString found
  | key => "expects a single string literal key"
  | index => "expects a single non-negative integer literal index"
  | negativeIndex i => "index " ++ toString i ++ " is negative"
  | arity expected found => "expects " ++ toString expected ++ " arguments, found " ++ toString found
  | missing => "missing argument"
  | notIndexable => "only child accessors such as 'daughter' can be indexed"

inductive Fault
  /-- A name that objects of the kind have no accessor for. -/
  | unknownAccessor (kind : ObjectKind) (name : String)
  | invalidArguments (name : String) (fault : ArgumentFault)
  | typeMismatch (required : Required) (found : ValueType)
  deriving DecidableEq, Repr

namespace CompileError

inductive Cause
  | syntaxError (error : ParseError)
  | tooDeep (limit : Nat)
  | fault (fault : Fault)
  deriving DecidableEq, Repr

end CompileError

/-- Why an expression does not compile. -/
structure CompileError where
  expression : String
  cause : CompileError.Cause
  deriving DecidableEq, Repr

/-- The cause that a syntax error is: nesting too deep is told apart from the rest. -/
def CompileError.Cause.ofParseError : ParseError → Cause
  | .tooDeep limit _ => .tooDeep limit
  | e => .syntaxError e

def CompileError.message (e : CompileError) : String :=
  match e.cause with
  | .syntaxError source => "Cannot parse expression '" ++ e.expression ++ "': " ++ source.message
  | .tooDeep limit => "Expression '" ++ e.expression ++ "' nests deeper than the limit of " ++ toString limit
  | .fault (.unknownAccessor kind name) =>
    "Unknown accessor '" ++ name ++ "' for " ++ kind.text ++ " in expression '" ++ e.expression ++ "'"
  | .fault (.invalidArguments name fault) =>
    "Invalid arguments to '" ++ name ++ "' in expression '" ++ e.expression ++ "': " ++ fault.text
  | .fault (.typeMismatch required found) =>
    "Type mismatch in expression '" ++ e.expression ++ "': expected " ++ required.text ++ ", found " ++ found.name

end FlatNtuple
