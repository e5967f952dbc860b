import FlatNtuple.Expr.Printer
import FlatNtuple.Proofs.Expr.Completeness
import FlatNtuple.Proofs.Expr.Lexing
/-!
# What is written is read back

A tree whose names and literals can be written (`Expr.Printable`) is written as a phrase that needs no rule of
precedence: an operator with its operands stands in parentheses, so every written tree is a `post` of the grammar
(`Writes`).  Parentheses make the text nest deeper than the tree, but not more than twice as deep: an operator is one
subexpression, between its parentheses, and its right operand another.
-/
namespace FlatNtuple

open Lexer

/-- What has a written form of its own: an integer of 64 bits that is not negative, a finite number without a sign, a
string without quotes and backslashes. -/
def Literal.Printable : Literal → Prop
  | bool _ => True
  | integer i => 0 ≤ i ∧ i ≤ Token.greatestInteger
  | float x => ∃ m e, Binary.ofFloat x = .finite false m e
  | string s => Plain s.toList

namespace Expr

mutual

/-- Every name is a word that is no keyword, and every literal has a written form. -/
def Printable : Expr → Prop
  | .literal l => l.Printable
  | .name n => IsName n
  | .member base n => base.Printable ∧ IsName n
  | .call n args => IsName n ∧ PrintableArgs args
  | .memberCall base n args => base.Printable ∧ IsName n ∧ PrintableArgs args
  | .index base i => base.Printable ∧ i.Printable
  | .binary _ left right => left.Printable ∧ right.Printable
  | .unary _ operand => operand.Printable
  | .conditional condition thenExpr elseExpr => condition.Printable ∧ thenExpr.Printable ∧ elseExpr.Printable

def PrintableArgs : List Expr → Prop
  | [] => True
  | e :: rest => e.Printable ∧ PrintableArgs rest

end

end Expr

namespace Grammar

open FlatNtuple.Parser

/-! ## Operators between what is written -/

theorem exists_binary (op : BinaryOp) (l r : Derivation .post) :
    ∃ d : Derivation .cond, d.tokens = l.tokens ++ .operator op :: r.tokens ∧ d.tree = .binary op l.tree r.tree ∧
      d.nesting = max l.nesting (r.nesting + 1) := by
  rcases chain_of_operator op with rfl | ⟨c, hop, -⟩
  · obtain ⟨y, hytokens, hytree, hynesting⟩ := exists_loosened (b := .un) r (by decide)
    obtain ⟨d, htokens, htree, hnesting⟩ := exists_loosened (b := .cond) (.power l y) (by decide)
    refine ⟨d, htokens.trans ?_, htree.trans ?_, hnesting.trans ?_⟩
    · rw [Derivation.tokens, hytokens]
    · rw [Derivation.tree, hytree]
    · rw [Derivation.nesting, hynesting]
  · have hlt := rankOf_chain_lt c
    have hoperand := rankOf_operand c
    have hpost : rankOf .post = 10 := rfl
    obtain ⟨x, hxtokens, hxtree, hxnesting⟩ := exists_loosened (b := .chain c) l (by omega)
    obtain ⟨y, hytokens, hytree, hynesting⟩ := exists_loosened (b := c.operand) r (by omega)
    obtain ⟨d, htokens, htree, hnesting⟩ := exists_loosened (b := .cond) (.binary x op hop y) (Nat.le_of_lt hlt.1)
    refine ⟨d, htokens.trans ?_, htree.trans ?_, hnesting.trans ?_⟩
    · rw [Derivation.tokens, hxtokens, hytokens]
    · rw [Derivation.tree, hxtree, hytree]
    · rw [Derivation.nesting, hxnesting, hynesting]

theorem exists_signed (op : UnaryOp) (x : Derivation .post) :
    ∃ d : Derivation .cond, d.tokens = signToken op :: x.tokens ∧ d.tree = .unary op x.tree ∧
      d.nesting = x.nesting + 1 := by
  obtain ⟨y, hytokens, hytree, hynesting⟩ := exists_loosened (b := .un) x (by decide)
  obtain ⟨d, htokens, htree, hnesting⟩ := exists_loosened (b := .cond) (.signed op y) (by decide)
  refine ⟨d, htokens.trans ?_, htree.trans ?_, hnesting.trans ?_⟩
  · rw [Derivation.tokens, hytokens]
  · rw [Derivation.tree, hytree]
  · rw [Derivation.nesting, hynesting]

theorem exists_conditional (c x y : Derivation .post) :
    ∃ d : Derivation .cond, d.tokens = c.tokens ++ .question :: (x.tokens ++ .colon :: y.tokens) ∧
      d.tree = .conditional c.tree x.tree y.tree ∧ d.nesting = max c.nesting (max x.nesting y.nesting + 1) := by
  obtain ⟨c', hctokens, hctree, hcnesting⟩ := exists_loosened (b := .chain .or) c (by decide)
  obtain ⟨x', hxtokens, hxtree, hxnesting⟩ := exists_loosened (b := .cond) x (by decide)
  obtain ⟨y', hytokens, hytree, hynesting⟩ := exists_loosened (b := .cond) y (by decide)
  refine ⟨.conditional c' x' y', ?_, ?_, ?_⟩
  · rw [Derivation.tokens, hctokens, hxtokens, hytokens]
  · rw [Derivation.tree, hctree, hxtree, hytree]
  · rw [Derivation.nesting, hcnesting, hxnesting, hynesting]

/-! ## Written trees -/

attribute [local simp] Expr.text

/-- A derivation of the text of a tree. -/
structure Writes (e : Expr) (d : Derivation .post) : Prop where
  tree : d.tree = e
  nesting : d.nesting + 2 ≤ 2 * e.depth
  spells : Spells e.text.toList d.tokens
  head : ∃ c cs, e.text.toList = c :: cs ∧ c ≠ '='

structure WritesArgs (args : List Expr) (ds : List (Derivation .cond)) : Prop where
  trees : treesOfArgs ds = args
  nesting : nestingOfArgs ds ≤ 2 * Expr.depthOfArgs args
  spells : Spells (Expr.textOfArgs args).toList (tokensOfArgs ds)

theorem exists_writes_literal {l : Literal} (h : l.Printable) : ∃ d, Writes (.literal l) d := by
  cases l with
  | bool b =>
    refine ⟨.primary (.bool b), rfl, Nat.le_refl _, ?_, ?_⟩
    · cases b with
      | true => exact spells_word rfl
      | false => exact spells_word rfl
    · cases b with
      | true => exact ⟨'t', _, rfl, by decide⟩
      | false => exact ⟨'f', _, rfl, by decide⟩
  | integer i =>
    obtain ⟨n, rfl⟩ := Int.eq_ofNat_of_zero_le h.1
    have htext : (Expr.literal (.integer n)).text.toList = Decimal.digitsOf n := by
      show (Nat.repr n).toList = Nat.toDigits 10 n
      rw [Nat.repr, String.toList_ofList]
    refine ⟨.primary (.integer n), rfl, Nat.le_refl _, ?_, ?_⟩
    · rw [htext]
      exact spells_integer (Int.ofNat_le.1 h.2)
    · rw [htext]
      simpa using exists_head_of_isDigit (Decimal.digitsOf_ne_nil n) Decimal.digitsOf_isDigit []
  | float x =>
    obtain ⟨m, e, hx⟩ := h
    obtain ⟨n, hproper, hne, hwhole, hchars, hvalue⟩ := Decimal.exists_numeral_float (l := Literal.floatLayout) rfl hx
    have htext : (Expr.literal (.float x)).text.toList = n.chars := hchars.symm
    refine ⟨.primary (.decimal n), ?_, Nat.le_refl _, ?_, ?_⟩
    · simp only [Derivation.tree, hvalue]
    · rw [htext]
      exact spells_decimal hproper hne hwhole
    · rw [htext, Numeral.chars, List.append_assoc]
      exact exists_head_of_isDigit hne hproper.whole _
  | string s =>
    have htext : (Expr.literal (.string s)).text.toList = '"' :: (s.toList ++ ['"']) := by
      simp [Literal.text]
    refine ⟨.primary (.string s), ?_, Nat.le_refl _, ?_, ?_⟩
    · simp only [Derivation.tree, unescape_plain h, String.ofList_toList]
    · rw [htext]
      exact spells_string h
    · exact ⟨'"', _, htext, by decide⟩

section
variable {e e' e'' : Expr} {args : List Expr} {n : String} {x y z : Derivation .post} {ds : List (Derivation .cond)}

/-- The text of an operator or a conditional: one in parentheses. -/
theorem Writes.group (cs : List Char) {c : Derivation .cond} (htree : c.tree = e) (hnesting : c.nesting + 3 ≤ 2 * e.depth)
    (htext : e.text.toList = '(' :: (cs ++ [')']))
    (hspells : ∀ rest us, Lexes rest us → Lexes (cs ++ ')' :: rest) (c.tokens ++ .rightParen :: us)) :
    Writes e (.primary (.group c)) := by
  refine ⟨htree, hnesting, fun rest us _ h => ?_, '(', _, htext, by decide⟩
  have hlexes := lexes_token (c := '(') (t := .leftParen) rfl rfl (hspells rest us h)
  rw [htext]
  simpa only [Derivation.tokens, List.cons_append, List.append_assoc, List.nil_append] using hlexes

theorem Writes.binary (op : BinaryOp) (hx : Writes e x) (hy : Writes e' y) : ∃ d, Writes (.binary op e e') d := by
  obtain ⟨c, htokens, htree, hnesting⟩ := exists_binary op x y
  have hxn := hx.nesting
  have hyn := hy.nesting
  refine ⟨_, Writes.group (e.text.toList ++ ' ' :: (op.symbol.toList ++ ' ' :: e'.text.toList)) (c := c) ?_ ?_ ?_ ?_⟩
  · rw [htree, hx.tree, hy.tree]
  · rw [hnesting, Expr.depth]
    omega
  · simp
  · intro rest us h
    have hright := hy.spells.before rfl (by decide) (lexes_rightParen h)
    have hleft := hx.spells.before rfl (by decide) (lexes_blank (lexes_operator op hright))
    rw [htokens]
    simpa only [List.append_assoc, List.cons_append] using hleft

theorem Writes.unary (op : UnaryOp) (hx : Writes e x) : ∃ d, Writes (.unary op e) d := by
  obtain ⟨c, htokens, htree, hnesting⟩ := exists_signed op x
  obtain ⟨a, as, hhead, ha⟩ := hx.head
  have hxn := hx.nesting
  refine ⟨_, Writes.group (op.symbol.toList ++ e.text.toList) (c := c) ?_ ?_ ?_ ?_⟩
  · rw [htree, hx.tree]
  · rw [hnesting, Expr.depth]
    omega
  · simp
  · intro rest us h
    have hoperand := hx.spells.before rfl (by decide) (lexes_rightParen h)
    rw [hhead, List.cons_append] at hoperand
    rw [htokens, hhead, List.append_assoc]
    exact lexes_sign op ha hoperand

theorem Writes.conditional (hx : Writes e x) (hy : Writes e' y) (hz : Writes e'' z) :
    ∃ d, Writes (.conditional e e' e'') d := by
  obtain ⟨c, htokens, htree, hnesting⟩ := exists_conditional x y z
  have hxn := hx.nesting
  have hyn := hy.nesting
  have hzn := hz.nesting
  refine ⟨_, Writes.group
    (e.text.toList ++ ' ' :: '?' :: ' ' :: (e'.text.toList ++ ' ' :: ':' :: ' ' :: e''.text.toList)) (c := c) ?_ ?_ ?_ ?_⟩
  · rw [htree, hx.tree, hy.tree, hz.tree]
  · rw [hnesting, Expr.depth]
    omega
  · simp
  · intro rest us h
    have helse := hz.spells.before rfl (by decide) (lexes_rightParen h)
    have hcolon := lexes_blank (lexes_token (c := ':') (t := .colon) rfl rfl (lexes_blank helse))
    have hthen := hy.spells.before rfl (by decide) hcolon
    have hquestion := lexes_blank (lexes_token (c := '?') (t := .question) rfl rfl (lexes_blank hthen))
    have hcondition := hx.spells.before rfl (by decide) hquestion
    rw [htokens]
    simpa only [List.append_assoc, List.cons_append] using hcondition

theorem writes_name (hn : IsName n) : Writes (.name n) (.primary (.name n)) :=
  ⟨rfl, Nat.le_refl _, hn.spells, hn.head⟩

/-- The text of arguments, between its parentheses. -/
theorem WritesArgs.lexes (h : WritesArgs args ds) {rest : List Char} {us : List Token} (hrest : Lexes rest us) :
    Lexes ('(' :: ((Expr.textOfArgs args).toList ++ ')' :: rest))
      (.leftParen :: (tokensOfArgs ds ++ .rightParen :: us)) :=
  lexes_token rfl rfl (h.spells.before rfl (by decide) (lexes_rightParen hrest))

theorem Writes.call (hn : IsName n) (hargs : WritesArgs args ds) :
    Writes (.call n args) (.primary (.call n ds)) := by
  have htext : (Expr.call n args).text.toList = n.toList ++ '(' :: ((Expr.textOfArgs args).toList ++ [')']) := by
    simp
  refine ⟨?_, ?_, fun rest us _ h => ?_, ?_⟩
  · rw [Derivation.tree, Derivation.tree, hargs.trees]
  · have := hargs.nesting
    simp only [Derivation.nesting, Expr.depth]
    omega
  · have hcall := hn.spells.before rfl (by decide) (hargs.lexes h)
    rw [htext]
    simpa only [Derivation.tokens, List.append_assoc, List.cons_append, List.nil_append] using hcall
  · obtain ⟨c, cs, hhead, hc⟩ := hn.head
    exact ⟨c, _, by rw [htext, hhead]; rfl, hc⟩

/-- The text of an access: that of its base, and a suffix that the base does not run into. -/
theorem Writes.access (hx : Writes e x) {s : Suffix} (cs : List Char) (htree : s.tree e = e') (hle : e.depth ≤ e'.depth)
    (hnesting : s.nesting + 2 ≤ 2 * e'.depth) (htext : e'.text.toList = e.text.toList ++ cs)
    (hspells : ∀ rest us, Boundary rest → Lexes rest us → Boundary (cs ++ rest) ∧ Lexes (cs ++ rest) (s.tokens ++ us)) :
    Writes e' (.access x s) := by
  refine ⟨?_, ?_, fun rest us hrest h => ?_, ?_⟩
  · rw [Derivation.tree, hx.tree, htree]
  · have := hx.nesting
    rw [Derivation.nesting]
    omega
  · obtain ⟨hboundary, hsuffix⟩ := hspells rest us hrest h
    rw [htext, Derivation.tokens, List.append_assoc, List.append_assoc]
    exact hx.spells _ _ hboundary hsuffix
  · obtain ⟨c, t, hhead, hc⟩ := hx.head
    exact ⟨c, t ++ cs, by rw [htext, hhead, List.cons_append], hc⟩

theorem Writes.member (hx : Writes e x) (hn : IsName n) : Writes (.member e n) (.access x (.member n)) := by
  refine hx.access ('.' :: n.toList) rfl (by simp only [Expr.depth]; omega) (by simp only [Suffix.nesting, Expr.depth]; omega)
    (by simp) fun rest us hrest h => ⟨boundary_dot (hn.noDigit rest), ?_⟩
  exact lexes_dot (hn.noDigit rest) (hn.spells rest us hrest h)

theorem Writes.memberCall (hx : Writes e x) (hn : IsName n) (hargs : WritesArgs args ds) :
    Writes (.memberCall e n args) (.access x (.memberCall n ds)) := by
  have hnesting := hargs.nesting
  refine hx.access ('.' :: (n.toList ++ '(' :: ((Expr.textOfArgs args).toList ++ [')']))) ?_ ?_ ?_ ?_
    fun rest us _ h => ⟨?_, ?_⟩
  · rw [Suffix.tree, hargs.trees]
  · simp only [Expr.depth]
    omega
  · simp only [Suffix.nesting, Expr.depth]
    omega
  · simp
  · rw [List.cons_append, List.append_assoc]
    exact boundary_dot (hn.noDigit _)
  · have hcall := lexes_dot (hn.noDigit _) (hn.spells.before rfl (by decide) (hargs.lexes h))
    simpa only [Suffix.tokens, List.append_assoc, List.cons_append, List.nil_append] using hcall

theorem Writes.index (hx : Writes e x) (hy : Writes e' y) : ∃ d, Writes (.index e e') d := by
  obtain ⟨c, htokens, htree, hnesting⟩ := exists_loosened (b := .cond) y (by decide)
  have hyn := hy.nesting
  refine ⟨_, hx.access (s := .index c) ('[' :: (e'.text.toList ++ [']'])) ?_ ?_ ?_ ?_
    fun rest us _ h => ⟨boundary_cons rfl (by decide), ?_⟩⟩
  · rw [Suffix.tree, htree, hy.tree]
  · simp only [Expr.depth]
    omega
  · simp only [Suffix.nesting, Expr.depth, hnesting]
    omega
  · simp
  · have hindex := hy.spells.before rfl (by decide) (lexes_token (c := ']') (t := .rightBracket) rfl rfl h)
    have hbracket := lexes_token (c := '[') (t := .leftBracket) rfl rfl hindex
    simpa only [Suffix.tokens, htokens, List.append_assoc, List.cons_append, List.nil_append] using hbracket

theorem writesArgs_nil : WritesArgs [] [] := ⟨rfl, Nat.zero_le _, fun _ _ _ h => h⟩

/-- The text of an argument, and of those after it behind a comma. -/
theorem WritesArgs.cons (hx : Writes e x) (hargs : WritesArgs args ds) : ∃ d, WritesArgs (e :: args) (d :: ds) := by
  obtain ⟨c, htokens, htree, hnesting⟩ := exists_loosened (b := .cond) x (by decide)
  have hxn := hx.nesting
  have hargsn := hargs.nesting
  refine ⟨c, ?_, ?_, ?_⟩
  · rw [treesOfArgs, htree, hx.tree, hargs.trees]
  · simp only [nestingOfArgs, Expr.depthOfArgs, hnesting]
    omega
  · cases ds with
    | nil =>
      obtain rfl : args = [] := hargs.trees.symm
      rw [Expr.textOfArgs, tokensOfArgs, htokens]
      exact hx.spells
    | cons d ds =>
      obtain rfl : args = d.tree :: treesOfArgs ds := hargs.trees.symm
      have htext : (Expr.textOfArgs (e :: d.tree :: treesOfArgs ds)).toList =
          e.text.toList ++ ',' :: ' ' :: (Expr.textOfArgs (d.tree :: treesOfArgs ds)).toList := by
        simp [Expr.textOfArgs]
      intro rest us hrest h
      have hcomma := lexes_token (c := ',') (t := .comma) rfl rfl (lexes_blank (hargs.spells rest us hrest h))
      have hlexes := hx.spells.before rfl (by decide) hcomma
      rw [htext, tokensOfArgs_cons_cons, htokens]
      simpa only [List.append_assoc, List.cons_append] using hlexes

end

/-! ## Whole trees -/

mutual

theorem exists_writes : (e : Expr) → e.Printable → ∃ d, Writes e d
  | .literal _, h => exists_writes_literal h
  | .name _, h => ⟨_, writes_name h⟩
  | .member base _, h => by
    obtain ⟨_, hx⟩ := exists_writes base h.1
    exact ⟨_, hx.member h.2⟩
  | .call _ args, h => by
    obtain ⟨_, hargs⟩ := exists_writesArgs args h.2
    exact ⟨_, Writes.call h.1 hargs⟩
  | .memberCall base _ args, h => by
    obtain ⟨_, hx⟩ := exists_writes base h.1
    obtain ⟨_, hargs⟩ := exists_writesArgs args h.2.2
    exact ⟨_, hx.memberCall h.2.1 hargs⟩
  | .index base i, h => by
    obtain ⟨_, hx⟩ := exists_writes base h.1
    obtain ⟨_, hy⟩ := exists_writes i h.2
    exact hx.index hy
  | .binary op left right, h => by
    obtain ⟨_, hx⟩ := exists_writes left h.1
    obtain ⟨_, hy⟩ := exists_writes right h.2
    exact hx.binary op hy
  | .unary op operand, h => by
    obtain ⟨_, hx⟩ := exists_writes operand h
    exact hx.unary op
  | .conditional condition thenExpr elseExpr, h => by
    obtain ⟨_, hx⟩ := exists_writes condition h.1
    obtain ⟨_, hy⟩ := exists_writes thenExpr h.2.1
    obtain ⟨_, hz⟩ := exists_writes elseExpr h.2.2
    exact hx.conditional hy hz

theorem exists_writesArgs : (args : List Expr) → Expr.PrintableArgs args → ∃ ds, WritesArgs args ds
  | [], _ => ⟨[], writesArgs_nil⟩
  | e :: rest, h => by
    obtain ⟨_, hx⟩ := exists_writes e h.1
    obtain ⟨_, hargs⟩ := exists_writesArgs rest h.2
    obtain ⟨d, hd⟩ := WritesArgs.cons hx hargs
    exact ⟨_, hd⟩

end

end Grammar

open Grammar FlatNtuple.Parser

/-- A name is read as itself, if it is read at all. -/
theorem Expr.eq_name_of_parse {n : String} (hn : IsName n) {limit : Nat} {e : Expr}
    (h : Expr.parse n limit = .ok e) : e = .name n := by
  obtain ⟨d, hdtokens, hdtree, -⟩ := whole_sound h
  obtain ⟨c, hctokens, hctree, -⟩ := exists_loosened (b := .cond) (.primary (.name n)) (by decide)
  have hlexes : Lexes n.toList [.identifier n] := by
    simpa using hn.spells [] [] boundary_nil lexes_nil
  obtain ⟨htokens, -⟩ := hlexes 0 0
  have hunique : d = c := derivation_unique (hdtokens.trans (htokens.trans hctokens.symm))
  rw [← hdtree, hunique, hctree]
  rfl

/-- **What is written is read back**, with a limit of twice the depth or more: the text of a tree parses as the tree. -/
theorem Expr.parse_text {e : Expr} (he : e.Printable) {n : Nat} (hn : 2 * e.depth ≤ n) :
    Expr.parse e.text n = .ok e := by
  obtain ⟨d, hd⟩ := exists_writes e he
  obtain ⟨c, hctokens, hctree, hcnesting⟩ := exists_loosened (b := .cond) d (by decide)
  have hnesting := hd.nesting
  have hpos := e.depth_pos
  have hlexes : Lexes e.text.toList d.tokens := by simpa using hd.spells [] [] boundary_nil lexes_nil
  obtain ⟨htokens, stop, hend⟩ := hlexes 0 0
  have htree : c.tree = e := hctree.trans hd.tree
  have hdepth : c.tree.depth ≤ n := by rw [htree]; omega
  have hwhole : whole (lex e.text) n = .ok c.tree := whole_complete hend (hctokens.trans htokens.symm) (by omega) hdepth
  rw [htree] at hwhole
  exact hwhole

/-- The tree of `jet[0].pt * 1.5 > -x ? f("a b", 2).y : true`. -/
theorem Expr.parse_text_conditional :
    let product : Expr := .binary .multiply (.member (.index (.name "jet") (.literal (.integer 0))) "pt")
      (.literal (.float 1.5))
    let condition : Expr := .binary .greater product (.unary .negate (.name "x"))
    let call : Expr := .call "f" [.literal (.string "a b"), .literal (.integer 2)]
    let e : Expr := .conditional condition (.member call "y") (.literal (.bool true))
    e.Printable ∧ Expr.parse e.text 12 = .ok e := by
  intro product condition call e
  have hfloat : (Literal.float 1.5).Printable := ⟨3 * 2 ^ 51, -52, by decide +kernel⟩
  have hinteger (i : Nat) (h : i ≤ Token.greatestInteger) : (Literal.integer i).Printable :=
    ⟨Int.natCast_nonneg i, Int.ofNat_le.2 h⟩
  have hstring : (Literal.string "a b").Printable := (by decide : '"' ∉ "a b".toList ∧ '\\' ∉ "a b".toList)
  have hproduct : product.Printable :=
    ⟨⟨⟨(by decide : IsName "jet"), hinteger 0 (by decide)⟩, by decide⟩, hfloat⟩
  have hcondition : condition.Printable := ⟨hproduct, (by decide : IsName "x")⟩
  have hcall : call.Printable := ⟨by decide, hstring, hinteger 2 (by decide), trivial⟩
  have he : e.Printable := ⟨hcondition, ⟨hcall, by decide⟩, trivial⟩
  exact ⟨he, Expr.parse_text he (by decide)⟩

end FlatNtuple
