/-!
# Operators of expressions

The infix and prefix operators with their symbols, and the levels of precedence at which infix operators bind.
-/
namespace FlatNtuple

inductive BinaryOp
  | add
  | subtract
  | multiply
  | divide
  | power
  | equal
  | notEqual
  | less
  | lessEqual
  | greater
  | greaterEqual
  | and
  | or
  deriving DecidableEq, Repr

inductive UnaryOp
  | negate
  | not
  deriving DecidableEq, Repr

def BinaryOp.symbol : BinaryOp → String
  | add => "+"
  | subtract => "-"
  | multiply => "*"
  | divide => "/"
  | power => "^"
  | equal => "=="
  | notEqual => "!="
  | less => "<"
  | lessEqual => "<="
  | greater => ">"
  | greaterEqual => ">="
  | and => "&&"
  | or => "||"

def UnaryOp.symbol : UnaryOp → String
  | negate => "-"
  | not => "!"

/-- What an operator works on: numbers to a number, values to a truth value, or truth values to a truth value. -/
inductive BinaryOp.Family
  | arithmetic
  | comparison
  | logical
  deriving DecidableEq, Repr

def BinaryOp.family : BinaryOp → BinaryOp.Family
  | add | subtract | multiply | divide | power => .arithmetic
  | equal | notEqual | less | lessEqual | greater | greaterEqual => .comparison
  | and | or => .logical

/-- How tightly something binds, from the conditional up to the operands of `^`. -/
inductive Level
  | conditional
  | or
  | and
  | equality
  | comparison
  | additive
  | multiplicative
  | unary
  | power
  | invocation
  deriving DecidableEq, Repr

namespace Level

def rank : Level → Nat
  | conditional => 1
  | or => 2
  | and => 3
  | equality => 4
  | comparison => 5
  | additive => 6
  | multiplicative => 7
  | unary => 8
  | power => 9
  | invocation => 10

/-- The next tighter level. -/
def next : Level → Level
  | conditional => or
  | or => and
  | and => equality
  | equality => comparison
  | comparison => additive
  | additive => multiplicative
  | multiplicative => unary
  | unary => power
  | power => invocation
  | invocation => invocation

theorem rank_next (l : Level) : l.next.rank = min (l.rank + 1) 10 := by cases l <;> rfl

end Level

namespace BinaryOp

def level : BinaryOp → Level
  | or => .or
  | and => .and
  | equal | notEqual => .equality
  | less | lessEqual | greater | greaterEqual => .comparison
  | add | subtract => .additive
  | multiply | divide => .multiplicative
  | power => .power

/-- The level of the right operand: a chain of powers groups to the right, any other chain to the left. -/
def rightLevel (op : BinaryOp) : Level := if op = power then .power else op.level.next

end BinaryOp
end FlatNtuple
