import FlatNtuple.Expr.Basic
import FlatNtuple.Expr.Lexer
/-!
# From lexemes to trees

A subexpression is read in the context of a level of precedence: a prefix operator or a primary with its members and
indices, followed by all infix operators that bind at least as tightly as the level.  `expression n` is the reader of
subexpressions that nest at most `n` deep, built from `expression (n - 1)` for what stands inside them; what it hands on
is shorter than its input, so each of its loops ends.

The depth of the tree is limited as well.  It is checked after every node built, at the lexeme that follows.
-/
namespace FlatNtuple
namespace Parser

/-- A tree with its depth and the lexemes after it. -/
structure Parsed where
  tree : Expr
  depth : Nat
  rest : List Lexeme

/-- What all readers of one text know: how the run of its lexemes ends, and how deep a tree may be. -/
structure Setting where
  ending : Ending
  limit : Nat

abbrev Result (α : Type) := Except ParseError α

/-- A tree that took at least one lexeme. -/
abbrev Shorter (ls : List Lexeme) := { p : Parsed // p.rest.length < ls.length }

/-- A tree to which some lexemes may have been added. -/
abbrev NotLonger (ls : List Lexeme) := { p : Parsed // p.rest.length ≤ ls.length }

/-- A reader of subexpressions. -/
abbrev Reader := Level → (ls : List Lexeme) → Result (Shorter ls)

namespace Setting

variable (s : Setting)

/-- The position of the next lexeme, or the end of the text. -/
def position : List Lexeme → Nat
  | l :: _ => l.start
  | [] =>
    match s.ending with
    | .finished stop => stop
    | .failed e => e.position?.getD 0

/-- Going on to the next lexeme: where there is none because of an error, it is raised. -/
def arrive (ls : List Lexeme) : Result Unit :=
  match ls, s.ending with
  | [], .failed e => .error e
  | _, _ => .ok ()

def checkDepth (depth : Nat) (ls : List Lexeme) : Result Unit :=
  if s.limit < depth then .error (.tooDeep s.limit (s.position ls)) else .ok ()

/-- The complaint about a lexeme that fits nowhere. -/
def unexpected : List Lexeme → ParseError
  | l :: _ => .unexpectedToken l.token l.start
  | [] => .unexpectedEnd (s.position [])

/-- Goes past one particular token. -/
def expect (t : Token) (ls : List Lexeme) : Result { rest : List Lexeme // rest.length < ls.length } :=
  match ls with
  | l :: rest =>
    if l.token = t then do
      s.arrive rest
      return ⟨rest, Nat.lt_succ_self _⟩
    else .error (.expected (.token t) l.start)
  | [] => .error (.unexpectedEnd (s.position []))

end Setting

/-- The string that the raw contents of a literal stand for: a backslash gives way to the character behind it. -/
def unescape : List Char → List Char
  | [] => []
  | '\\' :: [] => []
  | '\\' :: c :: cs => c :: unescape cs
  | c :: cs => c :: unescape cs

variable (s : Setting) (sub : Reader)

/-- The arguments up to the closing parenthesis, at least one, with the depth of the deepest. -/
def arguments (ls : List Lexeme) : Result ((List Expr × Nat) × { rest : List Lexeme // rest.length < ls.length }) :=
  match sub .conditional ls with
  | .error e => .error e
  | .ok ⟨arg, h⟩ =>
    match hr : arg.rest with
    | ⟨.comma, _, _⟩ :: rest =>
      have hlt : rest.length < ls.length := by rw [hr, List.length_cons] at h; omega
      do
        s.arrive rest
        let ((args, depth), ⟨r, hr⟩) ← arguments rest
        return ((arg.tree :: args, max arg.depth depth), ⟨r, Nat.lt_trans hr hlt⟩)
    | ⟨.rightParen, _, _⟩ :: rest => do
      s.arrive rest
      return (([arg.tree], arg.depth), ⟨rest, by rw [hr, List.length_cons] at h; omega⟩)
    | l :: _ => .error (.expected .argumentEnd l.start)
    | [] => .error (.unexpectedEnd (s.position []))
termination_by ls.length

/-- The argument list behind an opening parenthesis, which may be empty. -/
def argumentList (ls : List Lexeme) : Result ((List Expr × Nat) × { rest : List Lexeme // rest.length < ls.length }) :=
  match ls with
  | ⟨.rightParen, _, _⟩ :: rest => do
    s.arrive rest
    return (([], 0), ⟨rest, Nat.lt_succ_self _⟩)
  | ls => arguments s sub ls

/-- Literals, names, calls, and expressions in parentheses. -/
def primary (ls : List Lexeme) : Result (Shorter ls) :=
  match ls with
  | ⟨.identifier name, _, _⟩ :: ⟨.leftParen, _, _⟩ :: rest => do
    s.arrive rest
    let ((args, depth), ⟨r, hr⟩) ← argumentList s sub rest
    s.checkDepth (depth + 1) r
    return ⟨⟨.call name args, depth + 1, r⟩, by simp only [List.length_cons]; omega⟩
  | ⟨.identifier name, _, _⟩ :: rest => leaf (.name name) rest
  | ⟨.integer n, _, _⟩ :: rest => leaf (.literal (.integer n)) rest
  | ⟨.decimal n, _, _⟩ :: rest => leaf (.literal (.float n.toFloat)) rest
  | ⟨.string raw, _, _⟩ :: rest => leaf (.literal (.string (String.ofList (unescape raw.toList)))) rest
  | ⟨.bool b, _, _⟩ :: rest => leaf (.literal (.bool b)) rest
  | ⟨.leftParen, _, _⟩ :: rest => do
    s.arrive rest
    let ⟨inner, hi⟩ ← sub .conditional rest
    let ⟨r, hr⟩ ← s.expect .rightParen inner.rest
    return ⟨⟨inner.tree, inner.depth, r⟩, by simp only [List.length_cons]; omega⟩
  | ls => .error (s.unexpected ls)
where
  leaf (tree : Expr) {l : Lexeme} (rest : List Lexeme) : Result (Shorter (l :: rest)) := do
    s.arrive rest
    return ⟨⟨tree, 1, rest⟩, Nat.lt_succ_self _⟩

/-- The members and indices behind a tree, from left to right. -/
def postfixes (tree : Expr) (depth : Nat) (ls : List Lexeme) : Result (NotLonger ls) :=
  match ls with
  | ⟨.dot, _, _⟩ :: ⟨.identifier name, _, _⟩ :: ⟨.leftParen, _, _⟩ :: rest => do
    s.arrive rest
    let ((args, argDepth), ⟨r, hr⟩) ← argumentList s sub rest
    let depth := max depth argDepth + 1
    s.checkDepth depth r
    let ⟨p, hp⟩ ← postfixes (.memberCall tree name args) depth r
    return ⟨p, by simp only [List.length_cons]; omega⟩
  | ⟨.dot, _, _⟩ :: ⟨.identifier name, _, _⟩ :: rest => do
    s.arrive rest
    s.checkDepth (depth + 1) rest
    let ⟨p, hp⟩ ← postfixes (.member tree name) (depth + 1) rest
    return ⟨p, by simp only [List.length_cons]; omega⟩
  | ⟨.dot, _, _⟩ :: rest => do
    s.arrive rest
    .error (.expected .accessorName (s.position rest))
  | ⟨.leftBracket, _, _⟩ :: rest => do
    s.arrive rest
    let ⟨index, hi⟩ ← sub .conditional rest
    let ⟨r, hr⟩ ← s.expect .rightBracket index.rest
    let depth := max depth index.depth + 1
    s.checkDepth depth r
    let ⟨p, hp⟩ ← postfixes (.index tree index.tree) depth r
    return ⟨p, by simp only [List.length_cons]; omega⟩
  | ls => .ok ⟨⟨tree, depth, ls⟩, Nat.le_refl _⟩
termination_by ls.length

/-- A prefix operator with its operand, or a primary with its members and indices.  Prefix operators bind looser than
`^` and unary plus leaves no node. -/
def operand (ls : List Lexeme) : Result (Shorter ls) :=
  match ls with
  | ⟨.operator .subtract, _, _⟩ :: rest => signed .negate rest
  | ⟨.not, _, _⟩ :: rest => signed .not rest
  | ⟨.operator .add, _, _⟩ :: rest => do
    s.arrive rest
    let ⟨p, hp⟩ ← sub .unary rest
    return ⟨p, by simp only [List.length_cons]; omega⟩
  | ls => do
    let ⟨p, hp⟩ ← primary s sub ls
    let ⟨q, hq⟩ ← postfixes s sub p.tree p.depth p.rest
    return ⟨q, Nat.lt_of_le_of_lt hq hp⟩
where
  signed (op : UnaryOp) {l : Lexeme} (rest : List Lexeme) : Result (Shorter (l :: rest)) := do
    s.arrive rest
    let ⟨p, hp⟩ ← sub .unary rest
    s.checkDepth (p.depth + 1) p.rest
    return ⟨⟨.unary op p.tree, p.depth + 1, p.rest⟩, by simp only [List.length_cons]; omega⟩

/-- The infix operators and conditionals behind a tree that bind at least as tightly as `level`. -/
def infixes (level : Level) (tree : Expr) (depth : Nat) (ls : List Lexeme) : Result (NotLonger ls) :=
  match ls with
  | ⟨.question, start, stop⟩ :: rest =>
    if Level.conditional.rank < level.rank then .ok ⟨⟨tree, depth, ⟨.question, start, stop⟩ :: rest⟩, Nat.le_refl _⟩
    else do
      s.arrive rest
      let ⟨thenPart, ht⟩ ← sub .conditional rest
      let ⟨r, hr⟩ ← s.expect .colon thenPart.rest
      let ⟨elsePart, he⟩ ← sub .conditional r
      let depth := max (max depth thenPart.depth) elsePart.depth + 1
      s.checkDepth depth elsePart.rest
      let ⟨p, hp⟩ ← infixes level (.conditional tree thenPart.tree elsePart.tree) depth elsePart.rest
      return ⟨p, by simp only [List.length_cons]; omega⟩
  | ⟨.operator op, start, stop⟩ :: rest =>
    if op.level.rank < level.rank then .ok ⟨⟨tree, depth, ⟨.operator op, start, stop⟩ :: rest⟩, Nat.le_refl _⟩
    else do
      s.arrive rest
      let ⟨right, hr⟩ ← sub op.rightLevel rest
      let depth := max depth right.depth + 1
      s.checkDepth depth right.rest
      let ⟨p, hp⟩ ← infixes level (.binary op tree right.tree) depth right.rest
      return ⟨p, by simp only [List.length_cons]; omega⟩
  | ls => .ok ⟨⟨tree, depth, ls⟩, Nat.le_refl _⟩
termination_by ls.length

/-- The reader of subexpressions that nest at most `nesting` deep. -/
def expression : (nesting : Nat) → Reader
  | 0, _, ls => .error (.tooDeep s.limit (s.position ls))
  | nesting + 1, level, ls => do
    let ⟨p, hp⟩ ← operand s (expression nesting) ls
    let ⟨q, hq⟩ ← infixes s (expression nesting) level p.tree p.depth p.rest
    return ⟨q, Nat.lt_of_le_of_lt hq hp⟩

/-- The tree that a run of lexemes is, as a whole. -/
def whole (lexed : Lexed) (limit : Nat) : Result Expr :=
  let s : Setting := ⟨lexed.ending, limit⟩
  match lexed.lexemes with
  | [] => do
    s.arrive []
    .error .empty
  | ls => do
    let ⟨p, _⟩ ← expression s limit .conditional ls
    match p.rest with
    | [] => return p.tree
    | rest => .error (s.unexpected rest)

end Parser

/-- The tree of a text, if it is an expression no deeper than the limit. -/
def Expr.parse (text : String) (limit : Nat) : Except ParseError Expr := Parser.whole (lex text) limit

/-- How deep expressions are if nothing else is said. -/
def Expr.defaultLimit : Nat := 256

end FlatNtuple
