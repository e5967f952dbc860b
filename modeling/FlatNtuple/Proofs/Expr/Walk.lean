import Mathlib
import FlatNtuple.Expr.Parser
/-!
# Readers as walks

A reader is a walk over lexemes: it looks at the next one, goes past it, checks a depth, gives up, or has another reader
walk on.  The equations of this module take each reader apart into such steps, without the proofs that its results
carry, so that what holds of every step can be shown of whole readers.  No walk looks further than one lexeme ahead.
-/
namespace FlatNtuple
namespace Parser

/-- What takes lexemes off the front and leaves the rest. -/
abbrev Walk := StateT (List Lexeme) (Except ParseError)

namespace Walk

variable {α β : Type}

/-- The token that comes next. -/
def peek : Walk (Option Token) := fun ls => .ok (ls.head?.map Lexeme.token, ls)

/-- Goes past the next lexeme. -/
def skip (s : Setting) : Walk Unit := fun ls => do
  s.arrive ls.tail
  return ((), ls.tail)

def check (s : Setting) (depth : Nat) : Walk Unit := fun ls => do
  s.checkDepth depth ls
  return ((), ls)

/-- Gives up because of the next lexeme. -/
def unexpected (s : Setting) : Walk α := fun ls => .error (s.unexpected ls)

/-- Gives up for want of something. -/
def missing (s : Setting) (what : Expected) : Walk α := fun ls => .error (.expected what (s.position ls))

/-- Goes past one particular token. -/
def expect (s : Setting) (t : Token) : Walk Unit := do
  match ← peek with
  | some t' => if t' = t then skip s else missing s (.token t)
  | none => unexpected s

/-- The walk of a reader of trees. -/
def parsed {P : Parsed → Prop} (r : Result { p : Parsed // P p }) : Result ((Expr × Nat) × List Lexeme) :=
  (fun p => ((p.1.tree, p.1.depth), p.1.rest)) <$> r

def listed {P : List Lexeme → Prop} (r : Result ((List Expr × Nat) × { ls : List Lexeme // P ls })) :
    Result ((List Expr × Nat) × List Lexeme) := (fun x => (x.1, x.2.1)) <$> r

def read (sub : Reader) (level : Level) : Walk (Expr × Nat) := fun ls => parsed (sub level ls)

variable (s : Setting) (sub : Reader)

def arguments : Walk (List Expr × Nat) := fun ls => listed (Parser.arguments s sub ls)

def argumentList : Walk (List Expr × Nat) := fun ls => listed (Parser.argumentList s sub ls)

def primary : Walk (Expr × Nat) := fun ls => parsed (Parser.primary s sub ls)

def postfixes (tree : Expr) (depth : Nat) : Walk (Expr × Nat) := fun ls => parsed (Parser.postfixes s sub tree depth ls)

def operand : Walk (Expr × Nat) := fun ls => parsed (Parser.operand s sub ls)

def infixes (level : Level) (tree : Expr) (depth : Nat) : Walk (Expr × Nat) :=
  fun ls => parsed (Parser.infixes s sub level tree depth ls)

/-- Goes past a literal. -/
def leaf (tree : Expr) : Walk (Expr × Nat) := do
  skip s
  return (tree, 1)

/-! ## What follows a token -/

/-- Behind the name of a value or of a function. -/
def afterName (name : String) : Walk (Expr × Nat) := do
  match ← peek with
  | some .leftParen => do
    skip s
    let (args, depth) ← argumentList s sub
    check s (depth + 1)
    return (.call name args, depth + 1)
  | _ => return (.name name, 1)

/-- Behind the parenthesis that opens a group. -/
def afterParen : Walk (Expr × Nat) := do
  let tree ← read sub .conditional
  expect s .rightParen
  return tree

/-- Behind the name of an accessor. -/
def afterAccessor (name : String) (tree : Expr) (depth : Nat) : Walk (Expr × Nat) := do
  match ← peek with
  | some .leftParen => do
    skip s
    let (args, deepest) ← argumentList s sub
    check s (max depth deepest + 1)
    postfixes s sub (.memberCall tree name args) (max depth deepest + 1)
  | _ => do
    check s (depth + 1)
    postfixes s sub (.member tree name) (depth + 1)

def afterDot (tree : Expr) (depth : Nat) : Walk (Expr × Nat) := do
  match ← peek with
  | some (.identifier name) => do
    skip s
    afterAccessor s sub name tree depth
  | _ => missing s .accessorName

def afterBracket (tree : Expr) (depth : Nat) : Walk (Expr × Nat) := do
  let (index, indexDepth) ← read sub .conditional
  expect s .rightBracket
  check s (max depth indexDepth + 1)
  postfixes s sub (.index tree index) (max depth indexDepth + 1)

/-- Behind a prefix operator that leaves a node. -/
def afterSign (op : UnaryOp) : Walk (Expr × Nat) := do
  let (tree, depth) ← read sub .unary
  check s (depth + 1)
  return (.unary op tree, depth + 1)

def afterQuestion (level : Level) (tree : Expr) (depth : Nat) : Walk (Expr × Nat) := do
  let (x, xDepth) ← read sub .conditional
  expect s .colon
  let (y, yDepth) ← read sub .conditional
  check s (max (max depth xDepth) yDepth + 1)
  infixes s sub level (.conditional tree x y) (max (max depth xDepth) yDepth + 1)

def afterOperator (level : Level) (op : BinaryOp) (tree : Expr) (depth : Nat) : Walk (Expr × Nat) := do
  let (right, rightDepth) ← read sub op.rightLevel
  check s (max depth rightDepth + 1)
  infixes s sub level (.binary op tree right) (max depth rightDepth + 1)

/-! ## Steps -/

theorem bind_apply (f : Walk α) (g : α → Walk β) (ls : List Lexeme) : (f >>= g) ls = f ls >>= fun x => g x.1 x.2 := rfl

theorem ok_bind (a : α) (f : α → Result β) : (Except.ok a >>= f) = f a := rfl

theorem peek_bind_apply (f : Option Token → Walk α) (l : Lexeme) (ls : List Lexeme) :
    (peek >>= f) (l :: ls) = f (some l.token) (l :: ls) := rfl

theorem peek_bind_nil (f : Option Token → Walk α) : (peek >>= f) [] = f none [] := rfl

theorem skip_bind_apply (f : Unit → Walk α) (l : Lexeme) (ls : List Lexeme) :
    (skip s >>= f) (l :: ls) = s.arrive ls >>= fun _ => f () ls := by
  rw [bind_apply, skip, List.tail_cons]
  cases s.arrive ls <;> rfl

theorem check_bind_apply (depth : Nat) (f : Unit → Walk α) (ls : List Lexeme) :
    (check s depth >>= f) ls = s.checkDepth depth ls >>= fun _ => f () ls := by
  rw [bind_apply, check]
  cases s.checkDepth depth ls <;> rfl

theorem expect_bind_apply (t : Token) (f : Unit → Walk α) (ls : List Lexeme) :
    (expect s t >>= f) ls = s.expect t ls >>= fun r => f () r.1 := by
  cases ls with
  | nil => rfl
  | cons l ls =>
    change ((if l.token = t then skip s else missing s (.token t)) (l :: ls) >>= fun x => f x.1 x.2) = _
    rw [Setting.expect]
    split
    · rw [skip, List.tail_cons]
      cases s.arrive ls <;> rfl
    · rfl

theorem parsed_bind {P : Parsed → Prop} {x : Result α} {f : α → Result { p : Parsed // P p }} :
    parsed (x >>= f) = x >>= fun a => parsed (f a) := by cases x <;> rfl

theorem listed_bind {P : List Lexeme → Prop} {x : Result α}
    {f : α → Result ((List Expr × Nat) × { ls : List Lexeme // P ls })} :
    listed (x >>= f) = x >>= fun a => listed (f a) := by cases x <;> rfl

section
variable {P : List Lexeme → Parsed → Prop} {Q : List Lexeme → List Lexeme → Prop}

theorem parsed_bind_apply (r : (ls : List Lexeme) → Result { p : Parsed // P ls p }) (f : Expr × Nat → Walk α)
    (ls : List Lexeme) :
    ((fun ls => parsed (r ls) : Walk (Expr × Nat)) >>= f) ls = r ls >>= fun p => f (p.1.tree, p.1.depth) p.1.rest := by
  rw [bind_apply]
  cases r ls <;> rfl

theorem listed_bind_apply (r : (ls : List Lexeme) → Result ((List Expr × Nat) × { rest : List Lexeme // Q ls rest }))
    (f : List Expr × Nat → Walk α) (ls : List Lexeme) :
    ((fun ls => listed (r ls) : Walk (List Expr × Nat)) >>= f) ls = r ls >>= fun x => f x.1 x.2.1 := by
  rw [bind_apply]
  cases r ls <;> rfl

end

theorem read_bind_apply (level : Level) (f : Expr × Nat → Walk α) (ls : List Lexeme) :
    (read sub level >>= f) ls = sub level ls >>= fun p => f (p.1.tree, p.1.depth) p.1.rest :=
  parsed_bind_apply (sub level) f ls

theorem argumentList_bind_apply (f : List Expr × Nat → Walk α) (ls : List Lexeme) :
    (argumentList s sub >>= f) ls = Parser.argumentList s sub ls >>= fun x => f x.1 x.2.1 :=
  listed_bind_apply (Parser.argumentList s sub) f ls

theorem arguments_bind_apply (f : List Expr × Nat → Walk α) (ls : List Lexeme) :
    (arguments s sub >>= f) ls = Parser.arguments s sub ls >>= fun x => f x.1 x.2.1 :=
  listed_bind_apply (Parser.arguments s sub) f ls

theorem primary_bind_apply (f : Expr × Nat → Walk α) (ls : List Lexeme) :
    (primary s sub >>= f) ls = Parser.primary s sub ls >>= fun p => f (p.1.tree, p.1.depth) p.1.rest :=
  parsed_bind_apply (Parser.primary s sub) f ls

theorem operand_bind_apply (f : Expr × Nat → Walk α) (ls : List Lexeme) :
    (operand s sub >>= f) ls = Parser.operand s sub ls >>= fun p => f (p.1.tree, p.1.depth) p.1.rest :=
  parsed_bind_apply (Parser.operand s sub) f ls

/-! ## The readers, step by step -/

theorem arguments_eq : arguments s sub = (do
    let (x, depth) ← read sub .conditional
    match ← peek with
    | some .comma => do
      skip s
      let (xs, deepest) ← arguments s sub
      return (x :: xs, max depth deepest)
    | some .rightParen => do
      skip s
      return ([x], depth)
    | some _ => missing s .argumentEnd
    | none => unexpected s) := by
  funext ls
  rw [read_bind_apply, arguments, Parser.arguments]
  cases sub .conditional ls with
  | error e => rfl
  | ok x =>
    obtain ⟨⟨x, depth, rest⟩, hlt⟩ := x
    match rest with
    | [] => rfl
    | ⟨token, start, stop⟩ :: rest =>
      cases token with
      | comma =>
        simp only [ok_bind, listed_bind, peek_bind_apply, skip_bind_apply,
          arguments_bind_apply]
        rfl
      | rightParen =>
        simp only [ok_bind, listed_bind, peek_bind_apply, skip_bind_apply]
        rfl
      | _ => rfl

theorem argumentList_eq : argumentList s sub = (do
    match ← peek with
    | some .rightParen => do
      skip s
      return ([], 0)
    | _ => arguments s sub) := by
  funext ls
  match ls with
  | [] => rfl
  | ⟨token, start, stop⟩ :: rest =>
    cases token with
    | rightParen =>
      simp only [argumentList, Parser.argumentList, listed_bind, peek_bind_apply, skip_bind_apply]
      rfl
    | _ => rfl

theorem primary_eq : primary s sub = (do
    match ← peek with
    | some (.identifier name) => do
      skip s
      afterName s sub name
    | some (.integer n) => leaf s (.literal (.integer n))
    | some (.decimal n) => leaf s (.literal (.float n.toFloat))
    | some (.string raw) => leaf s (.literal (.string (String.ofList (unescape raw.toList))))
    | some (.bool b) => leaf s (.literal (.bool b))
    | some .leftParen => do
      skip s
      afterParen s sub
    | _ => unexpected s) := by
  funext ls
  match ls with
  | [] => rfl
  | ⟨token, start, stop⟩ :: rest =>
    cases token with
    | identifier name =>
      match rest with
      | [] =>
        simp only [primary, Parser.primary, primary.leaf, parsed_bind, peek_bind_apply, skip_bind_apply]
        rfl
      | ⟨token, start, stop⟩ :: rest =>
        cases token with
        | leftParen =>
          simp only [primary, Parser.primary, afterName, parsed_bind, peek_bind_apply, skip_bind_apply,
            argumentList_bind_apply, check_bind_apply]
          rfl
        | _ => rfl
    | integer | decimal | string | bool =>
      simp only [primary, Parser.primary, primary.leaf, leaf, parsed_bind, peek_bind_apply, skip_bind_apply]
      rfl
    | leftParen =>
      simp only [primary, Parser.primary, afterParen, parsed_bind, peek_bind_apply, skip_bind_apply, read_bind_apply,
        expect_bind_apply]
      rfl
    | _ => rfl

theorem postfixes_eq (tree : Expr) (depth : Nat) : postfixes s sub tree depth = (do
    match ← peek with
    | some .dot => do
      skip s
      afterDot s sub tree depth
    | some .leftBracket => do
      skip s
      afterBracket s sub tree depth
    | _ => return (tree, depth)) := by
  funext ls
  rw [postfixes, Parser.postfixes.eq_def]
  match ls with
  | [] => rfl
  | ⟨token, start, stop⟩ :: rest =>
    cases token with
    | dot =>
      match rest with
      | [] =>
        simp only [parsed_bind, peek_bind_apply, skip_bind_apply]
        rfl
      | ⟨token, start, stop⟩ :: rest =>
        cases token with
        | identifier name =>
          match rest with
          | [] =>
            simp only [afterDot, afterAccessor, parsed_bind, peek_bind_apply, peek_bind_nil, skip_bind_apply,
              check_bind_apply]
            rfl
          | ⟨token, start, stop⟩ :: rest =>
            cases token with
            | leftParen =>
              simp only [afterDot, afterAccessor, parsed_bind, peek_bind_apply, skip_bind_apply,
                argumentList_bind_apply, check_bind_apply]
              rfl
            | _ =>
              simp only [afterDot, afterAccessor, parsed_bind, peek_bind_apply, skip_bind_apply, check_bind_apply]
              rfl
        | _ => rfl
    | leftBracket =>
      simp only [afterBracket, parsed_bind, peek_bind_apply, skip_bind_apply, read_bind_apply, expect_bind_apply,
        check_bind_apply]
      rfl
    | _ => rfl

/-- A primary with its members and indices. -/
def postfixed : Walk (Expr × Nat) := do
  let (tree, depth) ← primary s sub
  postfixes s sub tree depth

theorem operand_eq : operand s sub = (do
    match ← peek with
    | some (.operator .subtract) => do
      skip s
      afterSign s sub .negate
    | some .not => do
      skip s
      afterSign s sub .not
    | some (.operator .add) => do
      skip s
      read sub .unary
    | _ => postfixed s sub) := by
  funext ls
  have hpostfixed : parsed (Parser.primary s sub ls >>= fun p =>
      Parser.postfixes s sub p.1.tree p.1.depth p.1.rest >>= fun q =>
      return ⟨q.1, Nat.lt_of_le_of_lt q.2 p.2⟩ : Result (Shorter ls)) = postfixed s sub ls := by
    simp only [postfixed, parsed_bind, primary_bind_apply]
    rfl
  match ls with
  | [] => exact hpostfixed
  | ⟨token, start, stop⟩ :: rest =>
    cases token with
    | operator op =>
      cases op with
      | subtract | add =>
        simp only [operand, Parser.operand, Parser.operand.signed, afterSign, parsed_bind, peek_bind_apply,
          skip_bind_apply, read_bind_apply, check_bind_apply]
        rfl
      | _ => exact hpostfixed
    | not =>
      simp only [operand, Parser.operand, Parser.operand.signed, afterSign, parsed_bind, peek_bind_apply,
        skip_bind_apply, read_bind_apply, check_bind_apply]
      rfl
    | _ => exact hpostfixed

theorem infixes_eq (level : Level) (tree : Expr) (depth : Nat) : infixes s sub level tree depth = (do
    match ← peek with
    | some .question =>
      if Level.conditional.rank < level.rank then return (tree, depth)
      else do
        skip s
        afterQuestion s sub level tree depth
    | some (.operator op) =>
      if op.level.rank < level.rank then return (tree, depth)
      else do
        skip s
        afterOperator s sub level op tree depth
    | _ => return (tree, depth)) := by
  funext ls
  rw [infixes, Parser.infixes.eq_def]
  match ls with
  | [] => rfl
  | ⟨token, start, stop⟩ :: rest =>
    cases token with
    | question =>
      simp only [peek_bind_apply]
      split
      · rfl
      · simp only [afterQuestion, parsed_bind, skip_bind_apply, read_bind_apply, expect_bind_apply, check_bind_apply]
        rfl
    | operator op =>
      simp only [peek_bind_apply]
      split
      · rfl
      · simp only [afterOperator, parsed_bind, skip_bind_apply, read_bind_apply, check_bind_apply]
        rfl
    | _ => rfl

theorem expression_eq (n : Nat) (level : Level) : read (Parser.expression s (n + 1)) level = (do
    let (tree, depth) ← operand s (Parser.expression s n)
    infixes s (Parser.expression s n) level tree depth) := by
  funext ls
  rw [operand_bind_apply, read, Parser.expression]
  simp only [parsed_bind]
  rfl

end Walk
end Parser
end FlatNtuple
