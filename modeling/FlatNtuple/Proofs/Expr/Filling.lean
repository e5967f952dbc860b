import FlatNtuple.Proofs.Expr.Completeness
/-!
# Strings in the place of names

A string literal can stand wherever a name stands for a value: the tree is the one with the name, but for the literal in
its place (`whole_fill`).  The names of functions and accessors are no such names; what tells them apart are the
parenthesis behind the one and the dot in front of the other (`Standalone`).
-/
namespace FlatNtuple

namespace Expr

mutual

/-- The tree with a literal in the place of a name. -/
def fill (hole : String) (l : Literal) : Expr → Expr
  | .literal l' => .literal l'
  | .name n => if n = hole then .literal l else .name n
  | .member base n => .member (base.fill hole l) n
  | .call n args => .call n (fillArgs hole l args)
  | .memberCall base n args => .memberCall (base.fill hole l) n (fillArgs hole l args)
  | .index base i => .index (base.fill hole l) (i.fill hole l)
  | .binary op x y => .binary op (x.fill hole l) (y.fill hole l)
  | .unary op e => .unary op (e.fill hole l)
  | .conditional c x y => .conditional (c.fill hole l) (x.fill hole l) (y.fill hole l)

def fillArgs (hole : String) (l : Literal) : List Expr → List Expr
  | [] => []
  | e :: rest => e.fill hole l :: fillArgs hole l rest

end

variable {hole : String} {l : Literal}

mutual

/-- A literal in the place of a name leaves the depth as it is. -/
theorem depth_fill : (e : Expr) → (e.fill hole l).depth = e.depth
  | .literal _ => by rw [fill]
  | .name n => by
    rw [fill]
    split <;> rfl
  | .member base _ => by rw [fill, depth, depth, depth_fill base]
  | .call _ args => by rw [fill, depth, depth, depthOfArgs_fillArgs args]
  | .memberCall base _ args => by rw [fill, depth, depth, depth_fill base, depthOfArgs_fillArgs args]
  | .index base i => by rw [fill, depth, depth, depth_fill base, depth_fill i]
  | .binary _ x y => by rw [fill, depth, depth, depth_fill x, depth_fill y]
  | .unary _ e => by rw [fill, depth, depth, depth_fill e]
  | .conditional c x y => by rw [fill, depth, depth, depth_fill c, depth_fill x, depth_fill y]

theorem depthOfArgs_fillArgs (args : List Expr) : depthOfArgs (fillArgs hole l args) = depthOfArgs args := by
  cases args with
  | nil => rw [fillArgs]
  | cons e rest => rw [fillArgs, depthOfArgs, depthOfArgs, depth_fill e, depthOfArgs_fillArgs rest]

end

end Expr

namespace Grammar

/-- The name is nowhere that of a function or of an accessor. -/
structure Standalone (hole : String) (ts : List Token) : Prop where
  not_called : ¬ [Token.identifier hole, .leftParen] <:+: ts
  not_accessed : ¬ [Token.dot, .identifier hole] <:+: ts

section
variable {hole : String} {u v : List Token} {t : Token}

theorem Standalone.mono (h : Standalone hole v) (hu : u <:+: v) : Standalone hole u :=
  ⟨fun hcalled => h.not_called (hcalled.trans hu), fun haccessed => h.not_accessed (haccessed.trans hu)⟩

theorem Standalone.left (h : Standalone hole (u ++ v)) : Standalone hole u := h.mono (List.prefix_append u v).isInfix

theorem Standalone.right (h : Standalone hole (u ++ v)) : Standalone hole v := h.mono (List.suffix_append u v).isInfix

theorem Standalone.tail (h : Standalone hole (t :: v)) : Standalone hole v := h.mono (List.suffix_cons t v).isInfix

theorem Standalone.ne_of_call {n : String} (h : Standalone hole (.identifier n :: .leftParen :: v)) : n ≠ hole := by
  rintro rfl
  exact h.not_called (List.prefix_append [Token.identifier n, .leftParen] v).isInfix

theorem Standalone.ne_of_dot {n : String} (h : Standalone hole (.dot :: .identifier n :: v)) : n ≠ hole := by
  rintro rfl
  exact h.not_accessed (List.prefix_append [Token.dot, .identifier n] v).isInfix

/-- A name that stands once in some tokens, neither behind a dot nor in front of a parenthesis. -/
theorem standalone_of_fresh (hu : Token.identifier hole ∉ u) (hv : Token.identifier hole ∉ v)
    (hlast : u.getLast? ≠ some .dot) (hhead : v.head? ≠ some .leftParen) :
    Standalone hole (u ++ .identifier hole :: v) := by
  constructor
  · rintro ⟨pre, post, h⟩
    obtain ⟨-, -, rfl⟩ := (List.append_cons_inj_of_notMem hu hv).1
      (show u ++ .identifier hole :: v = pre ++ .identifier hole :: (.leftParen :: post) by simpa using h.symm)
    exact hhead rfl
  · rintro ⟨pre, post, h⟩
    obtain ⟨rfl, -, -⟩ := (List.append_cons_inj_of_notMem hu hv).1
      (show u ++ .identifier hole :: v = (pre ++ [Token.dot]) ++ .identifier hole :: post by simpa using h.symm)
    exact hlast List.getLast?_concat

end

/-- The token that a string literal in the place of a name leaves of a token. -/
def fillToken (hole raw : String) : Token → Token
  | .identifier n => if n = hole then .string raw else .identifier n
  | t => t

theorem fillToken_of_ne {hole raw n : String} (h : n ≠ hole) : fillToken hole raw (.identifier n) = .identifier n :=
  if_neg h

theorem map_fillToken_of_fresh {hole raw : String} {ts : List Token} (h : Token.identifier hole ∉ ts) :
    ts.map (fillToken hole raw) = ts := by
  conv_rhs => rw [← List.map_id ts]
  refine List.map_congr_left fun t ht => ?_
  cases t with
  | identifier n => exact fillToken_of_ne (by rintro rfl; exact h ht)
  | _ => rfl

mutual

/-- The derivation with a string literal in the place of a name. -/
def Derivation.fill (hole raw : String) {a : Symbol} : Derivation a → Derivation a
  | .condition c => .condition (c.fill hole raw)
  | .conditional c x y => .conditional (c.fill hole raw) (x.fill hole raw) (y.fill hole raw)
  | .operand x => .operand (x.fill hole raw)
  | .binary l op h r => .binary (l.fill hole raw) op h (r.fill hole raw)
  | .signed op x => .signed op (x.fill hole raw)
  | .plus x => .plus (x.fill hole raw)
  | .unsigned x => .unsigned (x.fill hole raw)
  | .base x => .base (x.fill hole raw)
  | .power x y => .power (x.fill hole raw) (y.fill hole raw)
  | .primary x => .primary (x.fill hole raw)
  | .access x s => .access (x.fill hole raw) (s.fill hole raw)
  | .name n => if n = hole then .string raw else .name n
  | .call n args => .call n (fillArgs hole raw args)
  | .integer n => .integer n
  | .decimal n => .decimal n
  | .string raw => .string raw
  | .bool b => .bool b
  | .group x => .group (x.fill hole raw)

def Suffix.fill (hole raw : String) : Suffix → Suffix
  | .member n => .member n
  | .memberCall n args => .memberCall n (fillArgs hole raw args)
  | .index i => .index (i.fill hole raw)

def fillArgs (hole raw : String) : List (Derivation .cond) → List (Derivation .cond)
  | [] => []
  | x :: rest => x.fill hole raw :: fillArgs hole raw rest

end

variable {hole raw : String}

mutual

theorem Derivation.tokens_fill {a : Symbol} : (d : Derivation a) → Standalone hole d.tokens →
    (d.fill hole raw).tokens = d.tokens.map (fillToken hole raw)
  | .condition c, h => c.tokens_fill h
  | .conditional c x y, h => by
    simp only [Derivation.fill, Derivation.tokens, List.map_append, List.map_cons, c.tokens_fill h.left,
      x.tokens_fill h.right.tail.left, y.tokens_fill h.right.tail.right.tail]
    rfl
  | .operand x, h => x.tokens_fill h
  | .binary l _ _ r, h => by
    simp only [Derivation.fill, Derivation.tokens, List.map_append, List.map_cons, l.tokens_fill h.left,
      r.tokens_fill h.right.tail]
    rfl
  | .signed op x, h => by
    have hsign : fillToken hole raw (signToken op) = signToken op := by cases op <;> rfl
    rw [Derivation.fill, Derivation.tokens, Derivation.tokens, List.map_cons, hsign, x.tokens_fill h.tail]
  | .plus x, h => congrArg (Token.operator .add :: ·) (x.tokens_fill h.tail)
  | .unsigned x, h => x.tokens_fill h
  | .base x, h => x.tokens_fill h
  | .power x y, h => by
    simp only [Derivation.fill, Derivation.tokens, List.map_append, List.map_cons, x.tokens_fill h.left,
      y.tokens_fill h.right.tail]
    rfl
  | .primary x, h => x.tokens_fill h
  | .access x s, h => by
    simp only [Derivation.fill, Derivation.tokens, List.map_append, x.tokens_fill h.left, s.tokens_fill h.right]
  | .name n, _ => by
    rw [Derivation.fill, Derivation.tokens, List.map_singleton, fillToken]
    split <;> rfl
  | .call n args, h => by
    simp only [Derivation.fill, Derivation.tokens, List.map_append, List.map_cons, fillToken_of_ne h.ne_of_call,
      tokensOfArgs_fillArgs args h.tail.tail.left]
    rfl
  | .integer _, _ | .decimal _, _ | .string _, _ | .bool _, _ => rfl
  | .group x, h => by
    simp only [Derivation.fill, Derivation.tokens, List.map_append, List.map_cons, x.tokens_fill h.tail.left]
    rfl

theorem Suffix.tokens_fill : (s : Suffix) → Standalone hole s.tokens →
    (s.fill hole raw).tokens = s.tokens.map (fillToken hole raw)
  | .member n, h => by
    simp only [Suffix.fill, Suffix.tokens, List.map_cons, fillToken_of_ne h.ne_of_dot]
    rfl
  | .memberCall n args, h => by
    simp only [Suffix.fill, Suffix.tokens, List.map_append, List.map_cons, fillToken_of_ne h.ne_of_dot,
      tokensOfArgs_fillArgs args h.tail.tail.tail.left]
    rfl
  | .index i, h => by
    simp only [Suffix.fill, Suffix.tokens, List.map_append, List.map_cons, i.tokens_fill h.tail.left]
    rfl

theorem tokensOfArgs_fillArgs : (args : List (Derivation .cond)) → Standalone hole (tokensOfArgs args) →
    tokensOfArgs (fillArgs hole raw args) = (tokensOfArgs args).map (fillToken hole raw)
  | [], _ => rfl
  | [x], h => x.tokens_fill h
  | x :: y :: rest, h => by
    rw [tokensOfArgs_cons_cons] at h ⊢
    have hrest := tokensOfArgs_fillArgs (y :: rest) h.right.tail
    rw [fillArgs] at hrest
    rw [fillArgs, fillArgs, tokensOfArgs_cons_cons, x.tokens_fill h.left, hrest, List.map_append, List.map_cons]
    rfl

end

mutual

theorem Derivation.nesting_fill {a : Symbol} : (d : Derivation a) → (d.fill hole raw).nesting = d.nesting
  | .condition c => c.nesting_fill
  | .conditional c x y => by
    rw [Derivation.fill, Derivation.nesting, Derivation.nesting, c.nesting_fill, x.nesting_fill, y.nesting_fill]
  | .operand x => x.nesting_fill
  | .binary l _ _ r => by rw [Derivation.fill, Derivation.nesting, Derivation.nesting, l.nesting_fill, r.nesting_fill]
  | .signed _ x => congrArg (· + 1) x.nesting_fill
  | .plus x => congrArg (· + 1) x.nesting_fill
  | .unsigned x => x.nesting_fill
  | .base x => x.nesting_fill
  | .power x y => by rw [Derivation.fill, Derivation.nesting, Derivation.nesting, x.nesting_fill, y.nesting_fill]
  | .primary x => x.nesting_fill
  | .access x s => by rw [Derivation.fill, Derivation.nesting, Derivation.nesting, x.nesting_fill, s.nesting_fill]
  | .name n => by
    rw [Derivation.fill]
    split <;> rfl
  | .call _ args => nestingOfArgs_fillArgs args
  | .integer _ | .decimal _ | .string _ | .bool _ => rfl
  | .group x => congrArg (· + 1) x.nesting_fill

theorem Suffix.nesting_fill : (s : Suffix) → (s.fill hole raw).nesting = s.nesting
  | .member _ => rfl
  | .memberCall _ args => nestingOfArgs_fillArgs args
  | .index i => congrArg (· + 1) i.nesting_fill

theorem nestingOfArgs_fillArgs : (args : List (Derivation .cond)) →
    nestingOfArgs (fillArgs hole raw args) = nestingOfArgs args
  | [] => rfl
  | x :: rest => by rw [fillArgs, nestingOfArgs, nestingOfArgs, x.nesting_fill, nestingOfArgs_fillArgs rest]

end

/-- The literal that raw contents stand for. -/
def stringOf (raw : String) : Literal := .string (String.ofList (Parser.unescape raw.toList))

mutual

theorem Derivation.tree_fill {a : Symbol} : (d : Derivation a) →
    (d.fill hole raw).tree = d.tree.fill hole (stringOf raw)
  | .condition c => c.tree_fill
  | .conditional c x y => by
    rw [Derivation.fill, Derivation.tree, Derivation.tree, Expr.fill, c.tree_fill, x.tree_fill, y.tree_fill]
  | .operand x => x.tree_fill
  | .binary l _ _ r => by rw [Derivation.fill, Derivation.tree, Derivation.tree, Expr.fill, l.tree_fill, r.tree_fill]
  | .signed _ x => by rw [Derivation.fill, Derivation.tree, Derivation.tree, Expr.fill, x.tree_fill]
  | .plus x => x.tree_fill
  | .unsigned x => x.tree_fill
  | .base x => x.tree_fill
  | .power x y => by rw [Derivation.fill, Derivation.tree, Derivation.tree, Expr.fill, x.tree_fill, y.tree_fill]
  | .primary x => x.tree_fill
  | .access x s => by rw [Derivation.fill, Derivation.tree, Derivation.tree, x.tree_fill, s.tree_fill]
  | .name n => by
    rw [Derivation.fill, Derivation.tree, Expr.fill]
    split <;> rfl
  | .call _ args => by rw [Derivation.fill, Derivation.tree, Derivation.tree, Expr.fill, treesOfArgs_fillArgs args]
  | .integer _ | .decimal _ | .string _ | .bool _ => by rw [Derivation.fill, Derivation.tree, Expr.fill]
  | .group x => x.tree_fill

theorem Suffix.tree_fill : (s : Suffix) → (base : Expr) →
    (s.fill hole raw).tree (base.fill hole (stringOf raw)) = (s.tree base).fill hole (stringOf raw)
  | .member _, base => by rw [Suffix.fill, Suffix.tree, Suffix.tree, Expr.fill]
  | .memberCall _ args, base => by rw [Suffix.fill, Suffix.tree, Suffix.tree, Expr.fill, treesOfArgs_fillArgs args]
  | .index i, base => by rw [Suffix.fill, Suffix.tree, Suffix.tree, Expr.fill, i.tree_fill]

theorem treesOfArgs_fillArgs : (args : List (Derivation .cond)) →
    treesOfArgs (fillArgs hole raw args) = Expr.fillArgs hole (stringOf raw) (treesOfArgs args)
  | [] => by rw [fillArgs, treesOfArgs, Expr.fillArgs]
  | x :: rest => by rw [fillArgs, treesOfArgs, treesOfArgs, Expr.fillArgs, x.tree_fill, treesOfArgs_fillArgs rest]

end

end Grammar

namespace Parser

open Grammar

/-- **A string literal can stand wherever a name stands for a value**, and is in the tree what the name was. -/
theorem whole_fill {hole raw : String} {u v : List Token} (hu : Token.identifier hole ∉ u)
    (hv : Token.identifier hole ∉ v) (hlast : u.getLast? ≠ some .dot) (hhead : v.head? ≠ some .leftParen)
    {lexed lexed' : Lexed} {limit stop : Nat} {e : Expr} (hstop : lexed'.ending = .finished stop)
    (htokens : tokensOf lexed.lexemes = u ++ .identifier hole :: v)
    (htokens' : tokensOf lexed'.lexemes = u ++ .string raw :: v) (h : whole lexed limit = .ok e) :
    whole lexed' limit = .ok (e.fill hole (stringOf raw)) := by
  obtain ⟨d, hd, rfl, hnesting, hdepth⟩ := whole_sound h
  have hfilled : (d.fill hole raw).tokens = tokensOf lexed'.lexemes := by
    rw [d.tokens_fill (hd ▸ htokens ▸ standalone_of_fresh hu hv hlast hhead), hd, htokens, htokens', List.map_append,
      List.map_cons, map_fillToken_of_fresh hu, map_fillToken_of_fresh hv, fillToken, if_pos rfl]
  rw [← d.tree_fill]
  refine whole_complete hstop hfilled (d.nesting_fill.trans_lt hnesting) ?_
  rw [d.tree_fill, Expr.depth_fill]
  exact hdepth

end Parser
end FlatNtuple
