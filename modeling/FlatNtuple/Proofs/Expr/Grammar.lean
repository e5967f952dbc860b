import Mathlib
import FlatNtuple.Expr.Parser
/-!
# The grammar of expressions

The stratified grammar that the readers of `FlatNtuple.Expr.Parser` are measured against, one symbol for each level of
precedence.  It is written without their levels and ranks: each symbol says which operators stand on its level.

A `Derivation` is a derivation of the grammar, as data.  What it derives are its `tokens`, what it means is its `tree`;
its `nesting` is how many subexpressions stand within one another around its innermost token.
-/
namespace FlatNtuple
namespace Grammar

/-- The levels of operators that group to the left, from the loosest. -/
inductive Chain
  | or
  | and
  | equality
  | comparison
  | additive
  | multiplicative
  deriving DecidableEq

/-- The symbols that stand for an expression. -/
inductive Symbol
  | cond
  | chain (c : Chain)
  | un
  | pow
  | post
  | prim

def Chain.operators : Chain → List BinaryOp
  | or => [.or]
  | and => [.and]
  | equality => [.equal, .notEqual]
  | comparison => [.less, .lessEqual, .greater, .greaterEqual]
  | additive => [.add, .subtract]
  | multiplicative => [.multiply, .divide]

/-- What stands between the operators of a level. -/
def Chain.operand : Chain → Symbol
  | or => .chain .and
  | and => .chain .equality
  | equality => .chain .comparison
  | comparison => .chain .additive
  | additive => .chain .multiplicative
  | multiplicative => .un

/-- The token that a prefix operator is written with. -/
def signToken : UnaryOp → Token
  | .negate => .operator .subtract
  | .not => .not

mutual

inductive Derivation : Symbol → Type
  /-- `cond ::= or` -/
  | condition (c : Derivation (.chain .or)) : Derivation .cond
  /-- `cond ::= or '?' cond ':' cond` -/
  | conditional (c : Derivation (.chain .or)) (x y : Derivation .cond) : Derivation .cond
  /-- `or ::= and`, …, `mul ::= un` -/
  | operand {c : Chain} (x : Derivation c.operand) : Derivation (.chain c)
  /-- `or ::= or '||' and`, …, `mul ::= mul ('*' | '/') un` -/
  | binary {c : Chain} (l : Derivation (.chain c)) (op : BinaryOp) (h : op ∈ c.operators) (r : Derivation c.operand) :
    Derivation (.chain c)
  /-- `un ::= ('-' | '!') un` -/
  | signed (op : UnaryOp) (x : Derivation .un) : Derivation .un
  /-- `un ::= '+' un` -/
  | plus (x : Derivation .un) : Derivation .un
  /-- `un ::= pow` -/
  | unsigned (x : Derivation .pow) : Derivation .un
  /-- `pow ::= post` -/
  | base (x : Derivation .post) : Derivation .pow
  /-- `pow ::= post '^' un` -/
  | power (x : Derivation .post) (y : Derivation .un) : Derivation .pow
  /-- `post ::= prim` -/
  | primary (x : Derivation .prim) : Derivation .post
  /-- `post ::= post suffix` -/
  | access (x : Derivation .post) (s : Suffix) : Derivation .post
  /-- `prim ::= ident` -/
  | name (n : String) : Derivation .prim
  /-- `prim ::= ident args` -/
  | call (n : String) (args : List (Derivation .cond)) : Derivation .prim
  | integer (n : Nat) : Derivation .prim
  | decimal (n : Numeral) : Derivation .prim
  | string (raw : String) : Derivation .prim
  | bool (b : Bool) : Derivation .prim
  /-- `prim ::= '(' cond ')'` -/
  | group (x : Derivation .cond) : Derivation .prim

inductive Suffix : Type
  /-- `suffix ::= '.' ident` -/
  | member (n : String) : Suffix
  /-- `suffix ::= '.' ident args` -/
  | memberCall (n : String) (args : List (Derivation .cond)) : Suffix
  /-- `suffix ::= '[' cond ']'` -/
  | index (i : Derivation .cond) : Suffix

end

mutual

/-- The tokens that are derived. -/
def Derivation.tokens {a : Symbol} : Derivation a → List Token
  | .condition c => c.tokens
  | .conditional c x y => c.tokens ++ .question :: (x.tokens ++ .colon :: y.tokens)
  | .operand x => x.tokens
  | .binary l op _ r => l.tokens ++ .operator op :: r.tokens
  | .signed op x => signToken op :: x.tokens
  | .plus x => .operator .add :: x.tokens
  | .unsigned x => x.tokens
  | .base x => x.tokens
  | .power x y => x.tokens ++ .operator .power :: y.tokens
  | .primary x => x.tokens
  | .access x s => x.tokens ++ s.tokens
  | .name n => [.identifier n]
  | .call n args => .identifier n :: .leftParen :: (tokensOfArgs args ++ [.rightParen])
  | .integer n => [.integer n]
  | .decimal n => [.decimal n]
  | .string raw => [.string raw]
  | .bool b => [.bool b]
  | .group x => .leftParen :: (x.tokens ++ [.rightParen])

def Suffix.tokens : Suffix → List Token
  | .member n => [.dot, .identifier n]
  | .memberCall n args => .dot :: .identifier n :: .leftParen :: (tokensOfArgs args ++ [.rightParen])
  | .index i => .leftBracket :: (i.tokens ++ [.rightBracket])

/-- `args ::= '(' ')' | '(' cond (',' cond)* ')'`, without the parentheses. -/
def tokensOfArgs : List (Derivation .cond) → List Token
  | [] => []
  | [x] => x.tokens
  | x :: rest => x.tokens ++ .comma :: tokensOfArgs rest

end

mutual

/-- The tree of the expression.  Unary plus and parentheses leave nothing behind. -/
def Derivation.tree {a : Symbol} : Derivation a → Expr
  | .condition c => c.tree
  | .conditional c x y => .conditional c.tree x.tree y.tree
  | .operand x => x.tree
  | .binary l op _ r => .binary op l.tree r.tree
  | .signed op x => .unary op x.tree
  | .plus x => x.tree
  | .unsigned x => x.tree
  | .base x => x.tree
  | .power x y => .binary .power x.tree y.tree
  | .primary x => x.tree
  | .access x s => s.tree x.tree
  | .name n => .name n
  | .call n args => .call n (treesOfArgs args)
  | .integer n => .literal (.integer n)
  | .decimal n => .literal (.float n.toFloat)
  | .string raw => .literal (.string (String.ofList (Parser.unescape raw.toList)))
  | .bool b => .literal (.bool b)
  | .group x => x.tree

def Suffix.tree : Suffix → Expr → Expr
  | .member n, base => .member base n
  | .memberCall n args, base => .memberCall base n (treesOfArgs args)
  | .index i, base => .index base i.tree

def treesOfArgs : List (Derivation .cond) → List Expr
  | [] => []
  | x :: rest => x.tree :: treesOfArgs rest

end

mutual

/-- How many subexpressions stand within one another inside the phrase.  A subexpression is what follows an operator or
stands between brackets, commas or the marks of a conditional. -/
def Derivation.nesting {a : Symbol} : Derivation a → Nat
  | .condition c => c.nesting
  | .conditional c x y => max c.nesting (max x.nesting y.nesting + 1)
  | .operand x => x.nesting
  | .binary l _ _ r => max l.nesting (r.nesting + 1)
  | .signed _ x => x.nesting + 1
  | .plus x => x.nesting + 1
  | .unsigned x => x.nesting
  | .base x => x.nesting
  | .power x y => max x.nesting (y.nesting + 1)
  | .primary x => x.nesting
  | .access x s => max x.nesting s.nesting
  | .name _ => 0
  | .call _ args => nestingOfArgs args
  | .integer _ => 0
  | .decimal _ => 0
  | .string _ => 0
  | .bool _ => 0
  | .group x => x.nesting + 1

def Suffix.nesting : Suffix → Nat
  | .member _ => 0
  | .memberCall _ args => nestingOfArgs args
  | .index i => i.nesting + 1

def nestingOfArgs : List (Derivation .cond) → Nat
  | [] => 0
  | x :: rest => max (x.nesting + 1) (nestingOfArgs rest)

end

theorem tokensOfArgs_cons_cons (x y : Derivation .cond) (rest : List (Derivation .cond)) :
    tokensOfArgs (x :: y :: rest) = x.tokens ++ .comma :: tokensOfArgs (y :: rest) := by
  rw [tokensOfArgs]
  exact List.cons_ne_nil y rest

/-! ## Sizes -/

mutual

theorem Derivation.nesting_lt {a : Symbol} : (d : Derivation a) → d.nesting < d.tokens.length
  | .condition c => c.nesting_lt
  | .conditional c x y => by
    have := c.nesting_lt; have := x.nesting_lt; have := y.nesting_lt
    simp only [Derivation.nesting, Derivation.tokens, List.length_append, List.length_cons]; omega
  | .operand x => x.nesting_lt
  | .binary l _ _ r => by
    have := l.nesting_lt; have := r.nesting_lt
    simp only [Derivation.nesting, Derivation.tokens, List.length_append, List.length_cons]; omega
  | .signed _ x => Nat.succ_lt_succ x.nesting_lt
  | .plus x => Nat.succ_lt_succ x.nesting_lt
  | .unsigned x => x.nesting_lt
  | .base x => x.nesting_lt
  | .power x y => by
    have := x.nesting_lt; have := y.nesting_lt
    simp only [Derivation.nesting, Derivation.tokens, List.length_append, List.length_cons]; omega
  | .primary x => x.nesting_lt
  | .access x s => by
    have := x.nesting_lt; have := s.nesting_lt
    simp only [Derivation.nesting, Derivation.tokens, List.length_append]; omega
  | .call _ args => by
    have := nestingOfArgs_le args
    simp only [Derivation.nesting, Derivation.tokens, List.length_append, List.length_cons]; omega
  | .group x => by
    have := x.nesting_lt
    simp only [Derivation.nesting, Derivation.tokens, List.length_append, List.length_cons]; omega
  | .name _ | .integer _ | .decimal _ | .string _ | .bool _ => Nat.one_pos

theorem Suffix.nesting_lt : (s : Suffix) → s.nesting < s.tokens.length
  | .member _ => Nat.two_pos
  | .memberCall _ args => by
    have := nestingOfArgs_le args
    simp only [Suffix.nesting, Suffix.tokens, List.length_append, List.length_cons]; omega
  | .index i => by
    have := i.nesting_lt
    simp only [Suffix.nesting, Suffix.tokens, List.length_append, List.length_cons]; omega

theorem nestingOfArgs_le : (args : List (Derivation .cond)) → nestingOfArgs args ≤ (tokensOfArgs args).length
  | [] => Nat.zero_le _
  | [x] => by
    have := x.nesting_lt
    simp only [nestingOfArgs, tokensOfArgs]; omega
  | x :: y :: rest => by
    have := x.nesting_lt; have := nestingOfArgs_le (y :: rest)
    simp only [nestingOfArgs, tokensOfArgs, List.length_append, List.length_cons] at *; omega

end

mutual

theorem Derivation.depth_le {a : Symbol} : (d : Derivation a) → d.tree.depth ≤ d.tokens.length
  | .condition c => c.depth_le
  | .conditional c x y => by
    have := c.depth_le; have := x.depth_le; have := y.depth_le
    simp only [Derivation.tree, Derivation.tokens, Expr.depth, List.length_append, List.length_cons]; omega
  | .operand x => x.depth_le
  | .binary l _ _ r => by
    have := l.depth_le; have := r.depth_le
    simp only [Derivation.tree, Derivation.tokens, Expr.depth, List.length_append, List.length_cons]; omega
  | .signed _ x => Nat.succ_le_succ x.depth_le
  | .plus x => Nat.le_succ_of_le x.depth_le
  | .unsigned x => x.depth_le
  | .base x => x.depth_le
  | .power x y => by
    have := x.depth_le; have := y.depth_le
    simp only [Derivation.tree, Derivation.tokens, Expr.depth, List.length_append, List.length_cons]; omega
  | .primary x => x.depth_le
  | .access x s => by
    have := x.depth_le; have := s.depth_le x.tree
    simp only [Derivation.tree, Derivation.tokens, List.length_append]; omega
  | .call _ args => by
    have := depthOfArgs_le args
    simp only [Derivation.tree, Derivation.tokens, Expr.depth, List.length_append, List.length_cons]; omega
  | .group x => by
    have := x.depth_le
    simp only [Derivation.tree, Derivation.tokens, List.length_append, List.length_cons]; omega
  | .name _ | .integer _ | .decimal _ | .string _ | .bool _ => by
    simp [Derivation.tree, Derivation.tokens, Expr.depth]

theorem Suffix.depth_le : (s : Suffix) → (base : Expr) → (s.tree base).depth ≤ base.depth + s.tokens.length
  | .member _, base => by simp [Suffix.tree, Suffix.tokens, Expr.depth]
  | .memberCall _ args, base => by
    have := depthOfArgs_le args
    simp only [Suffix.tree, Suffix.tokens, Expr.depth, List.length_append, List.length_cons]; omega
  | .index i, base => by
    have := i.depth_le
    simp only [Suffix.tree, Suffix.tokens, Expr.depth, List.length_append, List.length_cons]; omega

theorem depthOfArgs_le : (args : List (Derivation .cond)) →
    Expr.depthOfArgs (treesOfArgs args) ≤ (tokensOfArgs args).length
  | [] => Nat.zero_le _
  | [x] => by
    have := x.depth_le
    simp only [treesOfArgs, tokensOfArgs, Expr.depthOfArgs]; omega
  | x :: y :: rest => by
    have := x.depth_le; have := depthOfArgs_le (y :: rest)
    simp only [treesOfArgs, tokensOfArgs, Expr.depthOfArgs, List.length_append, List.length_cons] at *; omega

end

end Grammar
end FlatNtuple
