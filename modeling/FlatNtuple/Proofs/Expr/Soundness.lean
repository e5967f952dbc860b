import FlatNtuple.Proofs.Expr.Reading
/-!
# What is read is derived

Whatever a reader takes off the front of some lexemes, the grammar derives, with the tree and the depth that the reader
says.  The readers of operators keep, in place of a level, the tightest symbol that the phrase read so far is known to
be: an operator that follows it binds looser than that (`infixes_sound`), so the phrase can be taken as its operand
(`Phrase.loosen`).
-/
namespace FlatNtuple
namespace Parser

open Grammar

/-- A derivation of what a reader took off the front of some lexemes, with fewer than `n` subexpressions within one
another. -/
structure Covers (s : Setting) (n : Nat) {a : Symbol} (d : Derivation a) (ls : List Lexeme) (p : Parsed) : Prop where
  tokens : tokensOf ls = d.tokens ++ tokensOf p.rest
  tree : d.tree = p.tree
  depth : d.tree.depth = p.depth
  nesting : d.nesting < n
  le_limit : p.depth ≤ s.limit

def Phrase (s : Setting) (n : Nat) (a : Symbol) (ls : List Lexeme) (p : Parsed) : Prop :=
  ∃ d : Derivation a, Covers s n d ls p

/-- The symbol of what is read in the context of a level. -/
def symbolOf : Level → Symbol
  | .conditional => .cond
  | .or => .chain .or
  | .and => .chain .and
  | .equality => .chain .equality
  | .comparison => .chain .comparison
  | .additive => .chain .additive
  | .multiplicative => .chain .multiplicative
  | .unary | .power | .invocation => .un

/-- A reader whose results are phrases, ended by what binds looser than its level. -/
def Sound (s : Setting) (n : Nat) (sub : Reader) : Prop :=
  ∀ level ls p, Reads (sub level ls) p → Phrase s n (symbolOf level) ls p ∧ Closed level.rank (tokensOf p.rest)

/-! ## Looser symbols -/

/-- The rank of the operators of a symbol. -/
def rankOf : Symbol → Nat
  | .cond => 1
  | .chain .or => 2
  | .chain .and => 3
  | .chain .equality => 4
  | .chain .comparison => 5
  | .chain .additive => 6
  | .chain .multiplicative => 7
  | .un => 8
  | .pow => 9
  | .post => 10
  | .prim => 11

theorem rankOf_operand (c : Chain) : rankOf c.operand = rankOf (.chain c) + 1 := by cases c <;> rfl

/-- A phrase is also one of the next looser symbol. -/
theorem exists_looser {a : Symbol} (d : Derivation a) (h : 1 < rankOf a) :
    ∃ (b : Symbol) (d' : Derivation b), rankOf b + 1 = rankOf a ∧ d'.tokens = d.tokens ∧ d'.tree = d.tree ∧
      d'.nesting = d.nesting := by
  cases a with
  | cond => simp [rankOf] at h
  | chain c =>
    cases c with
    | or => exact ⟨.cond, .condition d, rfl, rfl, rfl, rfl⟩
    | and => exact ⟨.chain .or, .operand d, rfl, rfl, rfl, rfl⟩
    | equality => exact ⟨.chain .and, .operand d, rfl, rfl, rfl, rfl⟩
    | comparison => exact ⟨.chain .equality, .operand d, rfl, rfl, rfl, rfl⟩
    | additive => exact ⟨.chain .comparison, .operand d, rfl, rfl, rfl, rfl⟩
    | multiplicative => exact ⟨.chain .additive, .operand d, rfl, rfl, rfl, rfl⟩
  | un => exact ⟨.chain .multiplicative, .operand d, rfl, rfl, rfl, rfl⟩
  | pow => exact ⟨.un, .unsigned d, rfl, rfl, rfl, rfl⟩
  | post => exact ⟨.pow, .base d, rfl, rfl, rfl, rfl⟩
  | prim => exact ⟨.post, .primary d, rfl, rfl, rfl, rfl⟩

theorem rankOf_injective {a b : Symbol} (h : rankOf a = rankOf b) : a = b := by
  rcases a with _ | (_ | _ | _ | _ | _ | _) | _ | _ | _ | _ <;>
    rcases b with _ | (_ | _ | _ | _ | _ | _) | _ | _ | _ | _ <;> first | rfl | cases h

theorem rankOf_pos (a : Symbol) : 0 < rankOf a := by
  rcases a with _ | (_ | _ | _ | _ | _ | _) | _ | _ | _ | _ <;> decide

/-- A phrase is one of every looser symbol. -/
theorem exists_loosened {a b : Symbol} (d : Derivation a) (hle : rankOf b ≤ rankOf a) :
    ∃ d' : Derivation b, d'.tokens = d.tokens ∧ d'.tree = d.tree ∧ d'.nesting = d.nesting := by
  induction hk : rankOf a - rankOf b generalizing a with
  | zero =>
    obtain rfl : a = b := rankOf_injective (by omega)
    exact ⟨d, rfl, rfl, rfl⟩
  | succ k ih =>
    obtain ⟨a', d', ha, htokens, htree, hnesting⟩ := exists_looser d (by have := rankOf_pos b; omega)
    rw [← htokens, ← htree, ← hnesting]
    exact ih d' (by omega) (by omega)

theorem Phrase.loosen {s : Setting} {n : Nat} {a b : Symbol} {ls : List Lexeme} {p : Parsed} (h : Phrase s n a ls p)
    (hle : rankOf b ≤ rankOf a) : Phrase s n b ls p := by
  obtain ⟨d, hd⟩ := h
  obtain ⟨d', htokens, htree, hnesting⟩ := exists_loosened d hle
  exact ⟨d', htokens ▸ hd.tokens, htree ▸ hd.tree, htree ▸ hd.depth, hnesting ▸ hd.nesting, hd.le_limit⟩

/-! ## Operators -/

/-- What binds at least as tightly as this would have been part of a phrase of the symbol. -/
def boundOf : Symbol → Nat
  | .cond => 1
  | .chain c => rankOf (.chain c) + 1
  | .un | .pow => 9
  | .post | .prim => 10

/-- An operator is `^` or stands on a level of the grammar, which is its level for the reader. -/
theorem chain_of_operator (op : BinaryOp) : op = .power ∨ ∃ c : Chain, op ∈ c.operators ∧
    op.level.rank = rankOf (.chain c) ∧ symbolOf op.rightLevel = c.operand ∧
    op.rightLevel.rank = rankOf (.chain c) + 1 := by
  cases op with
  | power => exact .inl rfl
  | or => exact .inr ⟨.or, by decide, rfl, rfl, rfl⟩
  | and => exact .inr ⟨.and, by decide, rfl, rfl, rfl⟩
  | equal | notEqual => exact .inr ⟨.equality, by decide, rfl, rfl, rfl⟩
  | less | lessEqual | greater | greaterEqual => exact .inr ⟨.comparison, by decide, rfl, rfl, rfl⟩
  | add | subtract => exact .inr ⟨.additive, by decide, rfl, rfl, rfl⟩
  | multiply | divide => exact .inr ⟨.multiplicative, by decide, rfl, rfl, rfl⟩

theorem rankOf_chain_lt (c : Chain) : 1 < rankOf (.chain c) ∧ rankOf (.chain c) < 8 := by cases c <;> decide

/-- An operator behind a phrase that is closed for it takes the phrase as its operand. -/
theorem rankOf_le_of_lt_boundOf {a : Symbol} {c : Chain} (h : rankOf (.chain c) < boundOf a) :
    rankOf (.chain c) ≤ rankOf a := by
  have := rankOf_chain_lt c
  cases a with
  | chain c' => exact Nat.le_of_lt_succ h
  | _ => simp only [boundOf, rankOf] at h ⊢; omega

theorem rankOf_symbolOf_le (level : Level) : rankOf (symbolOf level) ≤ level.rank := by cases level <;> decide

/-- A phrase that is closed for an operator, the operator, and what is read behind it make a phrase together. -/
theorem exists_of_operator {op : BinaryOp} {a : Symbol} (l : Derivation a) (hclosed : op.level.rank < boundOf a)
    (r : Derivation (symbolOf op.rightLevel)) :
    ∃ (b : Symbol) (d : Derivation b), d.tokens = l.tokens ++ .operator op :: r.tokens ∧
      d.tree = .binary op l.tree r.tree ∧ d.nesting = max l.nesting (r.nesting + 1) ∧
      boundOf b = op.rightLevel.rank ∧ op.level.rank ≤ rankOf b := by
  rcases chain_of_operator op with rfl | ⟨c, hop, hrank, hsym, hbound⟩
  · have hpost : rankOf .post ≤ rankOf a := by
      cases a with
      | chain c => have := rankOf_chain_lt c; simp only [boundOf, BinaryOp.level, Level.rank] at hclosed; omega
      | _ => first | decide | exact absurd hclosed (by decide)
    obtain ⟨l', htokens, htree, hnesting⟩ := exists_loosened l hpost
    exact ⟨.pow, .power l' r, by rw [← htokens]; rfl, by rw [← htree]; rfl, by rw [← hnesting]; rfl, rfl, Nat.le_refl _⟩
  · obtain ⟨l', htokens, htree, hnesting⟩ := exists_loosened l (rankOf_le_of_lt_boundOf (hrank ▸ hclosed))
    -- The symbol on the right is only known by an equation, so the derivation is taken over by its tokens and tree.
    obtain ⟨r', htokens', htree', hnesting'⟩ := exists_loosened r (Nat.le_of_eq (congrArg rankOf hsym.symm))
    refine ⟨.chain c, .binary l' op hop r', ?_, ?_, ?_, hbound.symm, Nat.le_of_eq hrank⟩
    · rw [Derivation.tokens, htokens, htokens']
    · rw [Derivation.tree, htree, htree']
    · rw [Derivation.nesting, hnesting, hnesting']

theorem exists_of_question {a : Symbol} (c : Derivation a) (hclosed : Level.conditional.rank < boundOf a)
    (x y : Derivation .cond) :
    ∃ d : Derivation .cond, d.tokens = c.tokens ++ .question :: (x.tokens ++ .colon :: y.tokens) ∧
      d.tree = .conditional c.tree x.tree y.tree ∧
      d.nesting = max c.nesting (max x.nesting y.nesting + 1) := by
  have hor : rankOf (.chain .or) ≤ rankOf a := by
    cases a with
    | chain k => exact (rankOf_chain_lt k).1
    | _ => first | decide | exact absurd hclosed (by decide)
  obtain ⟨c', htokens, htree, hnesting⟩ := exists_loosened c hor
  exact ⟨.conditional c' x y, by rw [← htokens]; rfl, by rw [← htree]; rfl, by rw [← hnesting]; rfl⟩

section
variable {s : Setting} {n : Nat} {sub : Reader} {level : Level} {tree : Expr} {depth start stop : Nat}
  {ls ls₀ rest : List Lexeme} {p q : Parsed}

theorem Phrase.binary {op : BinaryOp} {a : Symbol} {right : Parsed}
    (hleft : Phrase s (n + 1) a ls₀ ⟨tree, depth, ⟨.operator op, start, stop⟩ :: rest⟩)
    (hclosed : op.level.rank < boundOf a) (hright : Phrase s n (symbolOf op.rightLevel) rest right)
    (hend : Closed op.rightLevel.rank (tokensOf right.rest)) (hdepth : max depth right.depth + 1 ≤ s.limit) :
    ∃ b, Phrase s (n + 1) b ls₀ ⟨.binary op tree right.tree, max depth right.depth + 1, right.rest⟩ ∧
      Closed (boundOf b) (tokensOf right.rest) ∧ op.level.rank ≤ rankOf b := by
  obtain ⟨l, hl⟩ := hleft
  obtain ⟨r, hr⟩ := hright
  obtain ⟨b, d, htokens, htree, hnesting, hbound, hrank⟩ := exists_of_operator l hclosed r
  refine ⟨b, ⟨d, ?_, ?_, ?_, ?_, hdepth⟩, hbound ▸ hend, hrank⟩
  · rw [hl.tokens, tokensOf_cons, hr.tokens, htokens, List.append_assoc, List.cons_append]
  · rw [htree, hl.tree, hr.tree]
  · rw [htree, Expr.depth, hl.depth, hr.depth]
  · have := hl.nesting; have := hr.nesting; omega

theorem Phrase.conditional {a : Symbol} {x y : Parsed} {r : List Lexeme}
    (hleft : Phrase s (n + 1) a ls₀ ⟨tree, depth, ⟨.question, start, stop⟩ :: rest⟩)
    (hclosed : Level.conditional.rank < boundOf a) (hx : Phrase s n .cond rest x)
    (hcolon : Reads (s.expect .colon x.rest) r) (hy : Phrase s n .cond r y)
    (hdepth : max (max depth x.depth) y.depth + 1 ≤ s.limit) :
    Phrase s (n + 1) .cond ls₀ ⟨.conditional tree x.tree y.tree, max (max depth x.depth) y.depth + 1, y.rest⟩ := by
  obtain ⟨c, hc⟩ := hleft
  obtain ⟨x', hx'⟩ := hx
  obtain ⟨y', hy'⟩ := hy
  obtain ⟨l, hl, hcol, -⟩ := reads_expect.1 hcolon
  obtain ⟨d, htokens, htree, hnesting⟩ := exists_of_question c hclosed x' y'
  refine ⟨d, ?_, ?_, ?_, ?_, hdepth⟩
  · rw [hc.tokens, tokensOf_cons, hx'.tokens, hl, tokensOf_cons, hcol, hy'.tokens, htokens]
    simp only [List.append_assoc, List.cons_append]
  · rw [htree, hc.tree, hx'.tree, hy'.tree]
  · rw [htree, Expr.depth, hc.depth, hx'.depth, hy'.depth]
  · have := hc.nesting; have := hx'.nesting; have := hy'.nesting; omega

theorem closed_of_no_operator (hquestion : ∀ start stop rest, ls = ⟨.question, start, stop⟩ :: rest → False)
    (hoperator : ∀ op start stop rest, ls = ⟨.operator op, start, stop⟩ :: rest → False) :
    Closed level.rank (tokensOf ls) := by
  have hpos : 0 < level.rank := by cases level <;> decide
  match ls with
  | [] => trivial
  | ⟨.question, start, stop⟩ :: rest => exact (hquestion start stop rest rfl).elim
  | ⟨.operator op, start, stop⟩ :: rest => exact (hoperator op start stop rest rfl).elim
  | ⟨.integer _, _, _⟩ :: _ | ⟨.decimal _, _, _⟩ :: _ | ⟨.string _, _, _⟩ :: _ | ⟨.bool _, _, _⟩ :: _
  | ⟨.identifier _, _, _⟩ :: _ | ⟨.not, _, _⟩ :: _ | ⟨.colon, _, _⟩ :: _ | ⟨.leftParen, _, _⟩ :: _
  | ⟨.rightParen, _, _⟩ :: _ | ⟨.leftBracket, _, _⟩ :: _ | ⟨.rightBracket, _, _⟩ :: _ | ⟨.dot, _, _⟩ :: _
  | ⟨.comma, _, _⟩ :: _ => exact hpos

/-- **Operators behind a phrase make a phrase of the reader's level.**  The phrase so far is one of some symbol `a`,
tight enough for the level and closed for what follows. -/
theorem infixes_sound (hsub : Sound s n sub) (h : Reads (infixes s sub level tree depth ls) q) {a : Symbol}
    (hleft : Phrase s (n + 1) a ls₀ ⟨tree, depth, ls⟩) (hclosed : Closed (boundOf a) (tokensOf ls))
    (hrank : rankOf (symbolOf level) ≤ rankOf a) :
    Phrase s (n + 1) (symbolOf level) ls₀ q ∧ Closed level.rank (tokensOf q.rest) := by
  -- Each operator makes a phrase of its own symbol, so the symbol changes from one round of the loop to the next.
  induction tree, depth, ls using infixes.induct level generalizing a with
  | case1 tree depth start stop rest hlt =>
    rw [infixes, if_pos hlt, reads_ok] at h
    exact h ▸ ⟨hleft.loosen hrank, hlt⟩
  | case2 tree depth start stop rest hge ih =>
    obtain ⟨-, x, hx, r, hr, y, hy, hdepth, h⟩ := (reads_infixes_question (Nat.not_lt.1 hge)).1 h
    have hcond := hleft.conditional hclosed (hsub _ _ _ hx).1 hr (hsub _ _ _ hy).1 hdepth
    exact ih x hx.prop r hr.prop y hy.prop h hcond (hsub _ _ _ hy).2
      (Nat.le_trans (rankOf_symbolOf_le level) (Nat.not_lt.1 hge))
  | case3 tree depth op start stop rest hlt =>
    rw [infixes, if_pos hlt, reads_ok] at h
    exact h ▸ ⟨hleft.loosen hrank, hlt⟩
  | case4 tree depth op start stop rest hge ih =>
    obtain ⟨-, right, hright, hdepth, h⟩ := (reads_infixes_operator (Nat.not_lt.1 hge)).1 h
    obtain ⟨b, hb, hend, hle⟩ := hleft.binary hclosed (hsub _ _ _ hright).1 (hsub _ _ _ hright).2 hdepth
    exact ih right hright.prop h hb hend
      (Nat.le_trans (rankOf_symbolOf_le level) (Nat.le_trans (Nat.not_lt.1 hge) hle))
  | case5 tree depth ls hquestion hoperator =>
    rw [infixes, reads_ok] at h
    · exact h ▸ ⟨hleft.loosen hrank, closed_of_no_operator hquestion hoperator⟩
    · exact hquestion
    · exact hoperator

/-! ## Arguments, primaries and what follows them -/

/-- A derivation of arguments and the parenthesis that closes them. -/
structure CoversArgs (s : Setting) (n : Nat) (ds : List (Derivation .cond)) (ls : List Lexeme) (args : List Expr)
    (depth : Nat) (rest : List Lexeme) : Prop where
  tokens : tokensOf ls = tokensOfArgs ds ++ .rightParen :: tokensOf rest
  trees : treesOfArgs ds = args
  depth : Expr.depthOfArgs args = depth
  nesting : nestingOfArgs ds ≤ n

theorem arguments_sound (hsub : Sound s n sub) {args : List Expr} (h : ReadsArgs (arguments s sub ls) args depth rest) :
    ∃ d ds, CoversArgs s n (d :: ds) ls args depth rest := by
  induction hk : ls.length using Nat.strongRecOn generalizing ls args depth with | ind k ih
  obtain ⟨x, start, stop, after, hx, hr⟩ := exists_of_readsArgs h
  obtain ⟨d, hd⟩ : Phrase s n .cond ls x := (hsub _ _ _ hx).1
  rcases hr with hr | hr
  · obtain ⟨-, xs, m, hxs, rfl, rfl⟩ := (readsArgs_comma hx hr).1 h
    have hlt : after.length < k := by have := hx.prop; rw [hr, List.length_cons] at this; omega
    obtain ⟨d', ds, hds⟩ := ih _ hlt hxs rfl
    refine ⟨d, d' :: ds, ?_, ?_, ?_, Nat.max_le.2 ⟨hd.nesting, hds.nesting⟩⟩
    · rw [hd.tokens, hr, tokensOf_cons, hds.tokens, tokensOfArgs_cons_cons, List.append_assoc, List.cons_append]
    · rw [treesOfArgs, hd.tree, hds.trees]
    · rw [Expr.depthOfArgs, hds.depth, ← hd.tree, hd.depth]
  · obtain ⟨-, rfl, rfl, rfl⟩ := (readsArgs_rightParen hx hr).1 h
    refine ⟨d, [], ?_, ?_, ?_, Nat.max_le.2 ⟨hd.nesting, Nat.zero_le _⟩⟩
    · rw [hd.tokens, hr, tokensOf_cons, tokensOfArgs]
    · rw [treesOfArgs, treesOfArgs, hd.tree]
    · rw [Expr.depthOfArgs, Expr.depthOfArgs, ← hd.tree, hd.depth, Nat.max_zero]

theorem argumentList_sound (hsub : Sound s n sub) {args : List Expr}
    (h : ReadsArgs (argumentList s sub ls) args depth rest) : ∃ ds, CoversArgs s n ds ls args depth rest := by
  unfold argumentList at h
  split at h
  · obtain ⟨_, h⟩ := h
    obtain ⟨_, -, h⟩ := bind_eq_ok.1 h
    cases h
    exact ⟨[], rfl, rfl, rfl, Nat.zero_le _⟩
  · obtain ⟨d, ds, hds⟩ := arguments_sound hsub h
    exact ⟨d :: ds, hds⟩

theorem leaf_sound {l : Lexeme} (h : Reads (primary.leaf s tree rest : Result (Shorter (l :: rest))) p)
    (d : Derivation .prim) (htokens : d.tokens = [l.token]) (htree : d.tree = tree) (hdepth : d.tree.depth = 1)
    (hnesting : d.nesting = 0) (hlimit : 0 < s.limit) : Phrase s (n + 1) .prim (l :: rest) p := by
  simp only [primary.leaf, reads_bind_unit, reads_return] at h
  obtain ⟨-, rfl⟩ := h
  exact ⟨d, by rw [htokens]; rfl, htree, hdepth, by omega, hlimit⟩

theorem primary_sound (hsub : Sound s n sub) (hlimit : 0 < s.limit) (h : Reads (primary s sub ls) p) :
    Phrase s (n + 1) .prim ls p := by
  unfold primary at h
  split at h
  · rename_i f _ _ _ _ _
    simp only [reads_bind_args, reads_bind_unit, reads_return, checkDepth_eq_ok] at h
    obtain ⟨-, args, depth, rest, hr, h, hdepth, rfl⟩ := h
    obtain ⟨ds, hds⟩ := argumentList_sound hsub ⟨hr, h⟩
    refine ⟨.call f ds, ?_, ?_, ?_, ?_, hdepth⟩
    · simp only [tokensOf_cons, hds.tokens, Derivation.tokens, List.cons_append, List.append_assoc, List.nil_append]
    · rw [Derivation.tree, hds.trees]
    · rw [Derivation.tree, Expr.depth, hds.trees, hds.depth]
    · rw [Derivation.nesting]; exact Nat.lt_succ_of_le hds.nesting
  · rename_i x _ _ _ _
    exact leaf_sound h (.name x) rfl rfl rfl rfl hlimit
  · rename_i n _ _ _
    exact leaf_sound h (.integer n) rfl rfl rfl rfl hlimit
  · rename_i n _ _ _
    exact leaf_sound h (.decimal n) rfl rfl rfl rfl hlimit
  · rename_i raw _ _ _
    exact leaf_sound h (.string raw) rfl rfl rfl rfl hlimit
  · rename_i b _ _ _
    exact leaf_sound h (.bool b) rfl rfl rfl rfl hlimit
  · simp only [reads_bind, reads_bind_unit, reads_return] at h
    obtain ⟨-, x, hx, hsx, r, hr, her, rfl⟩ := h
    obtain ⟨d, hd⟩ : Phrase s n .cond _ x := (hsub _ _ _ ⟨hx, hsx⟩).1
    obtain ⟨l, hl, hclose, -⟩ := reads_expect.1 ⟨hr, her⟩
    refine ⟨.group d, ?_, hd.tree, hd.depth, ?_, hd.le_limit⟩
    · simp only [tokensOf_cons, hd.tokens, hl, hclose, Derivation.tokens, List.cons_append, List.append_assoc,
        List.nil_append]
    · rw [Derivation.nesting]; exact Nat.succ_lt_succ hd.nesting
  · exact absurd h reads_error.1

theorem Phrase.access {m : Nat} {t : Expr} (hleft : Phrase s (n + 1) .post ls₀ ⟨tree, depth, ls⟩) (x : Suffix)
    (htokens : tokensOf ls = x.tokens ++ tokensOf rest) (htree : x.tree tree = t)
    (hdepth : tree.depth = depth → t.depth = m) (hnesting : x.nesting ≤ n) (hlimit : m ≤ s.limit) :
    Phrase s (n + 1) .post ls₀ ⟨t, m, rest⟩ := by
  obtain ⟨d, hd⟩ := hleft
  have hd' : (Derivation.access d x).tree = t := by rw [Derivation.tree, hd.tree, htree]
  refine ⟨.access d x, ?_, hd', ?_, ?_, hlimit⟩
  · rw [hd.tokens, htokens, Derivation.tokens, List.append_assoc]
  · have htree' : d.tree = tree := hd.tree
    rw [hd']
    exact hdepth (htree' ▸ hd.depth)
  · rw [Derivation.nesting]
    exact Nat.max_lt.2 ⟨hd.nesting, Nat.lt_succ_of_le hnesting⟩

theorem postfixes_sound (hsub : Sound s n sub) (h : Reads (postfixes s sub tree depth ls) q)
    (hleft : Phrase s (n + 1) .post ls₀ ⟨tree, depth, ls⟩) : Phrase s (n + 1) .post ls₀ q := by
  induction tree, depth, ls using postfixes.induct with
  | case1 tree depth _ _ f _ _ _ _ rest ih =>
    rw [postfixes] at h
    simp only [reads_bind_args, reads_bind_unit, reads_bind, reads_return, checkDepth_eq_ok] at h
    obtain ⟨-, args, m, r, hr, hargs, hdepth, p, hp, h, rfl⟩ := h
    obtain ⟨ds, hds⟩ := argumentList_sound hsub ⟨hr, hargs⟩
    refine ih args m r hr ⟨hp, h⟩ (hleft.access (.memberCall f ds) ?_ ?_ ?_ hds.nesting hdepth)
    · simp only [tokensOf_cons, hds.tokens, Suffix.tokens, List.cons_append, List.append_assoc, List.nil_append]
    · rw [Suffix.tree, hds.trees]
    · rintro rfl
      rw [Expr.depth, hds.depth]
  | case2 tree depth _ _ f _ _ rest hparen ih =>
    rw [postfixes] at h
    · simp only [reads_bind_unit, reads_bind, reads_return, checkDepth_eq_ok] at h
      obtain ⟨-, hdepth, p, hp, h, rfl⟩ := h
      exact ih ⟨hp, h⟩ (hleft.access (.member f) rfl rfl (by rintro rfl; rfl) (Nat.zero_le _) hdepth)
    · exact hparen
  | case3 tree depth _ _ rest hcall hmember =>
    rw [postfixes] at h
    · simp only [reads_bind_unit, reads_error, and_false] at h
    · exact hcall
    · exact hmember
  | case4 tree depth _ _ rest ih =>
    rw [postfixes] at h
    simp only [reads_bind_unit, reads_bind, reads_return, checkDepth_eq_ok] at h
    obtain ⟨-, x, hx, hsx, r, hr, her, hdepth, p, hp, h, rfl⟩ := h
    obtain ⟨d, hd⟩ : Phrase s n .cond rest x := (hsub _ _ _ ⟨hx, hsx⟩).1
    obtain ⟨l, hl, hclose, -⟩ := reads_expect.1 ⟨hr, her⟩
    refine ih x hx r hr ⟨hp, h⟩ (hleft.access (.index d) ?_ ?_ ?_ ?_ hdepth)
    · simp only [tokensOf_cons, hd.tokens, hl, hclose, Suffix.tokens, List.cons_append, List.append_assoc,
        List.nil_append]
    · rw [Suffix.tree, hd.tree]
    · rintro rfl
      rw [Expr.depth, ← hd.tree, hd.depth]
    · exact hd.nesting
  | case5 tree depth ls h₁ h₂ h₃ h₄ =>
    rw [postfixes, reads_ok] at h
    · exact h ▸ hleft
    · exact h₁
    · exact h₂
    · exact h₃
    · exact h₄

theorem tightness_lt (t : Token) : tightness t < 10 := by
  cases t with
  | operator op => cases op <;> decide
  | question => decide
  | _ => exact Nat.succ_pos 9

theorem closed_boundOf_post (ts : List Token) : Closed (boundOf .post) ts := by
  cases ts with
  | nil => trivial
  | cons t ts => exact tightness_lt t

theorem signed_sound (hsub : Sound s n sub) {op : UnaryOp} {l : Lexeme} (hl : l.token = signToken op)
    (h : Reads (operand.signed s sub op rest : Result (Shorter (l :: rest))) p) :
    Phrase s (n + 1) .un (l :: rest) p ∧ Closed (boundOf .un) (tokensOf p.rest) := by
  simp only [operand.signed, reads_bind_unit, reads_bind, reads_return, checkDepth_eq_ok] at h
  obtain ⟨-, x, hx, hsx, hdepth, rfl⟩ := h
  obtain ⟨hphrase, hend⟩ := hsub _ _ _ ⟨hx, hsx⟩
  obtain ⟨d, hd⟩ : Phrase s n .un rest x := hphrase
  refine ⟨⟨.signed op d, ?_, ?_, ?_, ?_, hdepth⟩, hend.mono (by decide)⟩
  · rw [tokensOf_cons, hd.tokens, hl]; rfl
  · rw [Derivation.tree, hd.tree]
  · rw [Derivation.tree, Expr.depth, hd.depth]
  · rw [Derivation.nesting]; exact Nat.succ_lt_succ hd.nesting

/-- An operand is a phrase that a prefix operator begins or one that a primary begins, and nothing binds to it that
binds to its symbol. -/
theorem operand_sound (hsub : Sound s n sub) (hlimit : 0 < s.limit) (h : Reads (operand s sub ls) p) :
    ∃ a, Phrase s (n + 1) a ls p ∧ Closed (boundOf a) (tokensOf p.rest) ∧ rankOf .un ≤ rankOf a := by
  unfold operand at h
  split at h
  · obtain ⟨hp, hend⟩ := signed_sound hsub (by rfl) h
    exact ⟨.un, hp, hend, Nat.le_refl _⟩
  · obtain ⟨hp, hend⟩ := signed_sound hsub (by rfl) h
    exact ⟨.un, hp, hend, Nat.le_refl _⟩
  · simp only [reads_bind_unit, reads_bind, reads_return] at h
    obtain ⟨-, x, hx, hsx, rfl⟩ := h
    obtain ⟨hphrase, hend⟩ := hsub _ _ _ ⟨hx, hsx⟩
    obtain ⟨d, hd⟩ : Phrase s n .un _ x := hphrase
    refine ⟨.un, ⟨.plus d, ?_, hd.tree, hd.depth, Nat.succ_lt_succ hd.nesting, hd.le_limit⟩,
      hend.mono (by decide), Nat.le_refl _⟩
    rw [tokensOf_cons, hd.tokens]; rfl
  · simp only [reads_bind, reads_return] at h
    obtain ⟨x, hx, hpx, y, hy, hpy, rfl⟩ := h
    have hpost := (primary_sound hsub hlimit ⟨hx, hpx⟩).loosen (show rankOf .post ≤ _ by decide)
    exact ⟨.post, postfixes_sound hsub ⟨hy, hpy⟩ hpost, closed_boundOf_post _, by decide⟩

/-! ## Whole expressions -/

theorem rankOf_symbolOf_le_un (level : Level) : rankOf (symbolOf level) ≤ rankOf .un := by cases level <;> decide

/-- **What the reader of subexpressions takes is a phrase of its level**, with the reader's bound on nesting. -/
theorem expression_sound (hlimit : 0 < s.limit) : ∀ n, Sound s n (expression s n)
  | 0 => fun _ _ _ h => absurd h reads_error.1
  | n + 1 => fun level ls p h => by
    have hsub := expression_sound hlimit n
    simp only [expression, reads_bind, reads_return] at h
    obtain ⟨x, hx, hox, y, hy, hiy, rfl⟩ := h
    obtain ⟨a, ha, hend, hrank⟩ := operand_sound hsub hlimit ⟨hx, hox⟩
    exact infixes_sound hsub ⟨hy, hiy⟩ ha hend (Nat.le_trans (rankOf_symbolOf_le_un level) hrank)

/-- A text that is read as a whole is a phrase. -/
theorem whole_sound {lexed : Lexed} {limit : Nat} {e : Expr} (h : whole lexed limit = .ok e) :
    ∃ d : Derivation .cond, d.tokens = tokensOf lexed.lexemes ∧ d.tree = e ∧ d.nesting < limit ∧ e.depth ≤ limit := by
  unfold whole at h
  simp only at h
  split at h
  · obtain ⟨_, -, h⟩ := bind_eq_ok.1 h
    cases h
  · obtain ⟨⟨p, hp⟩, hread, h⟩ := bind_eq_ok.1 h
    split at h
    · rename_i hrest
      have hlimit : 0 < limit := by
        rcases Nat.eq_zero_or_pos limit with rfl | hpos
        · cases hread
        · exact hpos
      have hsound := expression_sound (s := ⟨lexed.ending, limit⟩) hlimit limit
      obtain ⟨d, hd⟩ : Phrase ⟨lexed.ending, limit⟩ limit .cond _ p := (hsound _ _ _ ⟨hp, hread⟩).1
      cases h
      refine ⟨d, ?_, hd.tree, hd.nesting, ?_⟩
      · rw [hd.tokens, show p.rest = [] from hrest, tokensOf_nil, List.append_nil]
      · rw [← hd.tree, hd.depth]; exact hd.le_limit
    · cases h

end
end Parser
end FlatNtuple
