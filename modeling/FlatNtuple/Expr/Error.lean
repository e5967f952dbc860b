import FlatNtuple.Expr.Token
/-!
# Syntax errors

Why a text is no expression, and where: positions count bytes of the text's UTF-8 form.
-/
namespace FlatNtuple

/-- What would have to stand where something else does. -/
inductive Expected
  | token (token : Token)
  | accessorName
  | argumentEnd
  deriving DecidableEq, Repr

inductive ParseError
  /-- A character that starts no token. -/
  | invalidCharacter (char : Char) (position : Nat)
  | unexpectedToken (token : Token) (position : Nat)
  | expected (what : Expected) (position : Nat)
  | unexpectedEnd (position : Nat)
  /-- A string literal that is never closed, by the position of its opening quote. -/
  | unclosedString (position : Nat)
  /-- An integer literal beyond the greatest integer. -/
  | invalidNumber (literal : String) (position : Nat)
  | tooDeep (limit position : Nat)
  | empty
  deriving DecidableEq, Repr

def Expected.text : Expected → String
  | token t => "'" ++ t.describe ++ "'"
  | accessorName => "accessor name after '.'"
  | argumentEnd => "',' or ')'"

namespace ParseError

def position? : ParseError → Option Nat
  | invalidCharacter _ p | unexpectedToken _ p | expected _ p | unexpectedEnd p | unclosedString p
  | invalidNumber _ p | tooDeep _ p => some p
  | empty => none

def message : ParseError → String
  | invalidCharacter c p => "Invalid character '" ++ String.singleton c ++ "' at position " ++ toString p
  | unexpectedToken t p => "Unexpected token '" ++ t.describe ++ "' at position " ++ toString p
  | expected what p => "Expected " ++ what.text ++ " at position " ++ toString p
  | unexpectedEnd p => "Unexpected end of input at position " ++ toString p
  | unclosedString p => "Unclosed string literal starting at position " ++ toString p
  | invalidNumber literal p => "Invalid number '" ++ literal ++ "' at position " ++ toString p
  | tooDeep limit p =>
    "Expression nests deeper than " ++ toString limit ++ " levels at position " ++ toString p
  | empty => "Empty expression"

end ParseError
end FlatNtuple
