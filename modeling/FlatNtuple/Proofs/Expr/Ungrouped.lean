import FlatNtuple.Proofs.Expr.Completeness
import FlatNtuple.Proofs.Expr.DepthLimit
/-!
# Texts without groups

Parentheses around an expression and a plus in front of it are read as subexpressions of their own and leave no node, so
a text may nest deeper than its tree.  Where there are none of either, every subexpression that is read within another
one stands below a node of its own (`Derivation.nesting_lt_depth`), and the limit under which a text is read is the depth
of its tree (`Expr.parse_ungrouped`).
-/
namespace FlatNtuple

/-- An operand may end with the token, so that an operator behind it is no sign. -/
def Token.EndsOperand : Token → Prop
  | identifier _ | integer _ | decimal _ | string _ | bool _ | rightParen | rightBracket => True
  | _ => False

namespace Grammar

open FlatNtuple.Parser

/-- The token neither opens a group nor is a sign that leaves no node, by what stands before it: a parenthesis behind a
name opens arguments, and a plus behind an operand adds to it. -/
def Counts (previous : Option Token) : Token → Prop
  | .leftParen => ∃ n, previous = some (.identifier n)
  | .operator .add => ∃ t, previous = some t ∧ t.EndsOperand
  | _ => True

/-- No token opens a group, and no plus is a sign. -/
def Ungrouped (previous : Option Token) : List Token → Prop
  | [] => True
  | t :: ts => Counts previous t ∧ Ungrouped (some t) ts

/-- An operand begins behind the token, or at the beginning. -/
def Opens (previous : Option Token) : Prop := ∀ t, previous = some t → ¬ t.EndsOperand

section
variable {previous : Option Token} {u v : List Token} {t : Token}

theorem Ungrouped.left (h : Ungrouped previous (u ++ v)) : Ungrouped previous u := by
  induction u generalizing previous with
  | nil => trivial
  | cons t u ih => exact ⟨h.1, ih h.2⟩

theorem Ungrouped.right (h : Ungrouped previous (u ++ t :: v)) : Ungrouped (some t) v := by
  induction u generalizing previous with
  | nil => exact h.2
  | cons _ u ih => exact ih h.2

theorem opens_none : Opens none := nofun

theorem opens_some (h : ¬ t.EndsOperand) : Opens (some t) := by
  rintro _ ⟨⟩
  exact h

theorem not_counts_leftParen (h : Opens previous) : ¬ Counts previous .leftParen := by
  rintro ⟨n, hn⟩
  exact h _ hn trivial

theorem not_counts_plus (h : Opens previous) : ¬ Counts previous (.operator .add) := by
  rintro ⟨t, ht, hends⟩
  exact h t ht hends

end

mutual

/-- **Without groups a phrase nests less deep than its tree.** -/
theorem Derivation.nesting_lt_depth {a : Symbol} {previous : Option Token} (hopens : Opens previous) :
    (d : Derivation a) → Ungrouped previous d.tokens → d.nesting < d.tree.depth
  | .condition c, h => c.nesting_lt_depth hopens h
  | .conditional c x y, h => by
    have hc := c.nesting_lt_depth hopens h.left
    have hx := x.nesting_lt_depth (opens_some id) h.right.left
    have hy := y.nesting_lt_depth (opens_some id) h.right.right
    simp only [Derivation.nesting, Derivation.tree, Expr.depth]
    omega
  | .operand x, h => x.nesting_lt_depth hopens h
  | .binary l _ _ r, h => by
    have hl := l.nesting_lt_depth hopens h.left
    have hr := r.nesting_lt_depth (opens_some id) h.right
    simp only [Derivation.nesting, Derivation.tree, Expr.depth]
    omega
  | .signed op x, h => by
    have hsign : ¬ (signToken op).EndsOperand := by cases op <;> exact id
    exact Nat.succ_lt_succ (x.nesting_lt_depth (opens_some hsign) h.2)
  | .plus _, h => absurd h.1 (not_counts_plus hopens)
  | .unsigned x, h => x.nesting_lt_depth hopens h
  | .base x, h => x.nesting_lt_depth hopens h
  | .power x y, h => by
    have hx := x.nesting_lt_depth hopens h.left
    have hy := y.nesting_lt_depth (opens_some id) h.right
    simp only [Derivation.nesting, Derivation.tree, Expr.depth]
    omega
  | .primary x, h => x.nesting_lt_depth hopens h
  | .access x (.member _), h => Nat.lt_succ_of_lt (Nat.max_lt.2 ⟨x.nesting_lt_depth hopens h.left, Expr.depth_pos _⟩)
  | .access x (.memberCall _ args), h => by
    have hx := x.nesting_lt_depth hopens h.left
    have hargs := nestingOfArgs_le_depth (opens_some id) args h.right.2.2.left
    simp only [Derivation.nesting, Suffix.nesting, Derivation.tree, Suffix.tree, Expr.depth]
    omega
  | .access x (.index i), h => by
    have hx := x.nesting_lt_depth hopens h.left
    have hi := i.nesting_lt_depth (opens_some id) h.right.left
    simp only [Derivation.nesting, Suffix.nesting, Derivation.tree, Suffix.tree, Expr.depth]
    omega
  | .name _, _ => Nat.one_pos
  | .call _ args, h => Nat.lt_succ_of_le (nestingOfArgs_le_depth (opens_some id) args h.2.2.left)
  | .integer _, _ | .decimal _, _ | .string _, _ | .bool _, _ => Nat.one_pos
  | .group _, h => absurd h.1 (not_counts_leftParen hopens)

theorem nestingOfArgs_le_depth {previous : Option Token} (hopens : Opens previous) :
    (args : List (Derivation .cond)) → Ungrouped previous (tokensOfArgs args) →
      nestingOfArgs args ≤ Expr.depthOfArgs (treesOfArgs args)
  | [], _ => Nat.zero_le _
  | [x], h => by
    have hx := x.nesting_lt_depth hopens h
    simp only [nestingOfArgs, treesOfArgs, Expr.depthOfArgs]
    omega
  | x :: y :: rest, h => by
    rw [tokensOfArgs_cons_cons] at h
    have hx := x.nesting_lt_depth hopens h.left
    have hrest := nestingOfArgs_le_depth (opens_some id) (y :: rest) h.right
    rw [nestingOfArgs, treesOfArgs, Expr.depthOfArgs]
    omega

end

end Grammar

open Grammar FlatNtuple.Parser

/-- **Without groups the limit is the depth of the tree.**  A text that is read at all is read under every limit that its
tree keeps to, and is too deep for every other one. -/
theorem Expr.parse_ungrouped {text : String} {m : Nat} {e : Expr} (h : Expr.parse text m = .ok e)
    (hungrouped : Ungrouped none (tokensOf (lex text).lexemes)) (n : Nat) :
    (e.depth ≤ n → Expr.parse text n = .ok e) ∧
    (n < e.depth → ∃ position, Expr.parse text n = .error (.tooDeep n position)) := by
  obtain ⟨stop, hending⟩ := finished_of_whole h
  obtain ⟨d, htokens, rfl, -, -⟩ := whole_sound h
  have hnesting : d.nesting < d.tree.depth := d.nesting_lt_depth opens_none (htokens ▸ hungrouped)
  refine ⟨fun hle => whole_complete hending htokens (Nat.lt_of_lt_of_le hnesting hle) hle, fun hlt => ?_⟩
  by_contra hnone
  -- A reading that is not too deep would be the one under the limit `m`, whose tree is deeper than `n`.
  have hn : Expr.parse text (max n m) = Expr.parse text n := whole_of_le (Nat.le_max_left n m)
    fun limit position hdeep => hnone ⟨position, Expr.parse_tooDeep hdeep ▸ hdeep⟩
  have hm : Expr.parse text (max n m) = Expr.parse text m := whole_of_le (Nat.le_max_right n m)
    fun _ _ hdeep => by rw [show whole (lex text) m = .ok d.tree from h] at hdeep; cases hdeep
  obtain ⟨-, -, -, -, hdepth⟩ := whole_sound (hn.symm.trans (hm.trans h))
  omega

/-- Five nodes on the way down to an argument: five is enough, and four is too deep. -/
theorem Expr.parse_ungrouped_power :
    let e : Expr := .unary .negate (.binary .power
      (.index (.call "f" [.name "x", .literal (.integer 2)]) (.name "i")) (.name "y"))
    Expr.parse "-f(x, 2)[i]^y" 9 = .ok e ∧ Expr.parse "-f(x, 2)[i]^y" 5 = .ok e ∧
    ∃ position, Expr.parse "-f(x, 2)[i]^y" 4 = .error (.tooDeep 4 position) := by
  intro e
  have hparse : Expr.parse "-f(x, 2)[i]^y" 9 = .ok e := by cbv
  have htokens : tokensOf (lex "-f(x, 2)[i]^y").lexemes =
      [.operator .subtract, .identifier "f", .leftParen, .identifier "x", .comma, .integer 2, .rightParen, .leftBracket,
       .identifier "i", .rightBracket, .operator .power, .identifier "y"] := by decide +kernel
  have hungrouped : Ungrouped none (tokensOf (lex "-f(x, 2)[i]^y").lexemes) := by
    simp [htokens, Ungrouped, Counts]
  have hlimit := Expr.parse_ungrouped hparse hungrouped
  exact ⟨hparse, (hlimit 5).1 (by decide), (hlimit 4).2 (by decide)⟩

end FlatNtuple
