import FlatNtuple.Expr.Basic
import FlatNtuple.Decimal.Layout
/-!
# Writing expressions

The written form of a tree puts parentheses around every operator and conditional, so that it says how the tree is built
without any rule of precedence.
-/
namespace FlatNtuple

/-- Numbers in expressions have a point or an exponent; beyond `1e16` and below `1e-4` they have an exponent. -/
def Literal.floatLayout : Decimal.Layout := ⟨some (-4, 15), true, false, .up, "NaN", "inf"⟩

def Literal.text : Literal → String
  | bool b => if b then "true" else "false"
  | integer i => toString i
  | float x => floatLayout.float x
  | string s => "\"" ++ s ++ "\""

namespace Expr

mutual

def text : Expr → String
  | .literal l => l.text
  | .name n => n
  | .member base n => base.text ++ "." ++ n
  | .call n args => n ++ "(" ++ textOfArgs args ++ ")"
  | .memberCall base n args => base.text ++ "." ++ n ++ "(" ++ textOfArgs args ++ ")"
  | .index base i => base.text ++ "[" ++ i.text ++ "]"
  | .binary op left right => "(" ++ left.text ++ " " ++ op.symbol ++ " " ++ right.text ++ ")"
  | .unary op operand => "(" ++ op.symbol ++ operand.text ++ ")"
  | .conditional condition thenExpr elseExpr =>
    "(" ++ condition.text ++ " ? " ++ thenExpr.text ++ " : " ++ elseExpr.text ++ ")"

/-- Arguments with a comma and a blank between two of them. -/
def textOfArgs : List Expr → String
  | [] => ""
  | [e] => e.text
  | e :: rest => e.text ++ ", " ++ textOfArgs rest

end

end Expr
end FlatNtuple
