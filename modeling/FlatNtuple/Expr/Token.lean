import FlatNtuple.Expr.Operator
import FlatNtuple.Decimal.Numeral
/-!
# Tokens of expressions
-/
namespace FlatNtuple

inductive Token
  | integer (value : Nat)
  /-- A numeral with a fraction or an exponent. -/
  | decimal (numeral : Numeral)
  /-- A string literal, by what stands between its quotes. -/
  | string (raw : String)
  | bool (value : Bool)
  | identifier (name : String)
  | operator (op : BinaryOp)
  | not
  | question
  | colon
  | leftParen
  | rightParen
  | leftBracket
  | rightBracket
  | dot
  | comma
  deriving DecidableEq, Repr

namespace Token

/-- The token as messages show it. -/
def describe : Token → String
  | integer n => toString n
  | decimal n => n.text
  | string raw => "\"" ++ raw ++ "\""
  | bool b => if b then "true" else "false"
  | identifier name => name
  | operator op => op.symbol
  | not => "!"
  | question => "?"
  | colon => ":"
  | leftParen => "("
  | rightParen => ")"
  | leftBracket => "["
  | rightBracket => "]"
  | dot => "."
  | comma => ","

/-- The greatest integer that a literal may stand for. -/
def greatestInteger : Nat := Int64.maxValue.toNatClampNeg

/-- The token of a word: an operator or a truth value if it is a keyword, else a name. -/
def ofWord (word : String) : Token :=
  if word = "and" then operator .and
  else if word = "or" then operator .or
  else if word = "not" then not
  else if word = "true" then bool true
  else if word = "false" then bool false
  else identifier word

/-- The token that a character starts, and whether it takes the next character along. -/
def ofSymbol : Char → Option Char → Option (Token × Bool)
  | '.', _ => some (dot, false)
  | '(', _ => some (leftParen, false)
  | ')', _ => some (rightParen, false)
  | '[', _ => some (leftBracket, false)
  | ']', _ => some (rightBracket, false)
  | ',', _ => some (comma, false)
  | '+', _ => some (operator .add, false)
  | '-', _ => some (operator .subtract, false)
  | '*', _ => some (operator .multiply, false)
  | '/', _ => some (operator .divide, false)
  | '^', _ => some (operator .power, false)
  | '?', _ => some (question, false)
  | ':', _ => some (colon, false)
  | '<', next => if next = some '=' then some (operator .lessEqual, true) else some (operator .less, false)
  | '>', next => if next = some '=' then some (operator .greaterEqual, true) else some (operator .greater, false)
  | '=', next => some (operator .equal, next = some '=')
  | '!', next => if next = some '=' then some (operator .notEqual, true) else some (not, false)
  | '&', next => if next = some '&' then some (operator .and, true) else none
  | '|', next => if next = some '|' then some (operator .or, true) else none
  | _, _ => none

end Token
end FlatNtuple
