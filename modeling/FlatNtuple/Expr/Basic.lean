import FlatNtuple.Expr.Operator
/-!
# Expression trees

An expression is a formula over the accessors of an object: literals, names, calls, members and indexed children of
other expressions, operators and conditionals.  Parentheses and unary plus leave no trace in the tree.
-/
namespace FlatNtuple

inductive Literal
  | bool (value : Bool)
  | integer (value : Int)
  | float (value : Float)
  /-- A string, of use only as the key of an accessor. -/
  | string (value : String)

inductive Expr
  | literal (value : Literal)
  /-- An accessor of the object itself. -/
  | name (name : String)
  /-- An accessor of what another expression stands for. -/
  | member (base : Expr) (name : String)
  /-- A builtin function, or an accessor of the object, with arguments. -/
  | call (name : String) (args : List Expr)
  | memberCall (base : Expr) (name : String) (args : List Expr)
  | index (base i : Expr)
  | binary (op : BinaryOp) (left right : Expr)
  | unary (op : UnaryOp) (operand : Expr)
  | conditional (condition thenExpr elseExpr : Expr)

namespace Expr

instance : Inhabited Expr := ⟨.name ""⟩

mutual

/-- The number of nodes on the longest way down. -/
def depth : Expr → Nat
  | .literal _ => 1
  | .name _ => 1
  | .member base _ => base.depth + 1
  | .call _ args => depthOfArgs args + 1
  | .memberCall base _ args => max base.depth (depthOfArgs args) + 1
  | .index base i => max base.depth i.depth + 1
  | .binary _ left right => max left.depth right.depth + 1
  | .unary _ operand => operand.depth + 1
  | .conditional condition thenExpr elseExpr =>
    max (max condition.depth thenExpr.depth) elseExpr.depth + 1

/-- The depth of the deepest argument. -/
def depthOfArgs : List Expr → Nat
  | [] => 0
  | e :: rest => max e.depth (depthOfArgs rest)

end

theorem depth_pos (e : Expr) : 0 < e.depth := by cases e <;> simp [depth]

end Expr
end FlatNtuple
