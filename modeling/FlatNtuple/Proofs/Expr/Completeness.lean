import FlatNtuple.Proofs.Expr.Unambiguity
/-!
# What is derived is read

Where the text has no end in an error, a reader of a level takes a phrase of the level off the front of what follows,
if nothing goes on with it and if neither its nesting nor the depth of its tree is too large.  A phrase is read from the
left: its first operand, and then the operators behind it, from the tightest to the loosest, in one loop.  `Reaches` is
the invariant of that loop.
-/
namespace FlatNtuple
namespace Parser

open Grammar

/-- Some lexemes begin with the tokens and go on with the rest. -/
def Fronts : List Token → List Lexeme → List Lexeme → Prop
  | [], ls, rest => ls = rest
  | _ :: _, [], _ => False
  | t :: ts, l :: ls, rest => l.token = t ∧ Fronts ts ls rest

theorem fronts_cons {t : Token} {ts : List Token} {ls rest : List Lexeme} :
    Fronts (t :: ts) ls rest ↔ ∃ start stop after, ls = ⟨t, start, stop⟩ :: after ∧ Fronts ts after rest := by
  cases ls with
  | nil => simp [Fronts]
  | cons l ls =>
    obtain ⟨token, start, stop⟩ := l
    simp only [Fronts, List.cons.injEq, Lexeme.mk.injEq]
    constructor
    · rintro ⟨rfl, h⟩; exact ⟨start, stop, ls, ⟨⟨rfl, rfl, rfl⟩, rfl⟩, h⟩
    · rintro ⟨_, _, _, ⟨⟨rfl, rfl, rfl⟩, rfl⟩, h⟩; exact ⟨rfl, h⟩

theorem fronts_append {ts us : List Token} {ls rest : List Lexeme} :
    Fronts (ts ++ us) ls rest ↔ ∃ mid, Fronts ts ls mid ∧ Fronts us mid rest := by
  induction ts generalizing ls with
  | nil => simp [Fronts]
  | cons t ts ih =>
    cases ls with
    | nil => simp [Fronts]
    | cons l ls => simp only [List.cons_append, Fronts, ih, and_assoc, exists_and_left]

theorem fronts_nil {ls rest : List Lexeme} : Fronts [] ls rest ↔ ls = rest := Iff.rfl

theorem Fronts.tokensOf_eq {ts : List Token} {ls rest : List Lexeme} (h : Fronts ts ls rest) :
    tokensOf ls = ts ++ tokensOf rest := by
  induction ts generalizing ls with
  | nil => rw [fronts_nil.1 h]; rfl
  | cons t ts ih =>
    obtain ⟨_, _, _, rfl, hts⟩ := fronts_cons.1 h
    rw [tokensOf_cons, ih hts, List.cons_append]

theorem fronts_tokensOf (ls : List Lexeme) : Fronts (tokensOf ls) ls [] := by
  induction ls with
  | nil => rfl
  | cons l ls ih => exact ⟨rfl, ih⟩

/-- A reader that takes off the phrases with fewer than `n` subexpressions within one another. -/
def Complete (s : Setting) (n : Nat) (sub : Reader) : Prop :=
  ∀ level a, symbolOf level = a → level ≠ .invocation → ∀ (d : Derivation a) (ls rest : List Lexeme),
    Fronts d.tokens ls rest → Ended (rankOf a) (tokensOf rest) → d.nesting < n → d.tree.depth ≤ s.limit →
    Reads (sub level ls) ⟨d.tree, d.tree.depth, rest⟩

section
variable {s : Setting} {n stop : Nat} {sub : Reader} {level : Level} {ls rest : List Lexeme}

theorem Complete.cond (hsub : Complete s n sub) {d : Derivation .cond} (hd : Fronts d.tokens ls rest)
    (hend : Ended 1 (tokensOf rest)) (hnesting : d.nesting < n) (hdepth : d.tree.depth ≤ s.limit) :
    Reads (sub .conditional ls) ⟨d.tree, d.tree.depth, rest⟩ :=
  hsub .conditional .cond rfl nofun d ls rest hd hend hnesting hdepth

/-! ## Arguments, primaries and what follows them -/

theorem arguments_complete (hs : s.ending = .finished stop) (hsub : Complete s n sub) {d : Derivation .cond}
    {ds : List (Derivation .cond)} (h : Fronts (tokensOfArgs (d :: ds) ++ [.rightParen]) ls rest)
    (hnesting : nestingOfArgs (d :: ds) ≤ n) (hdepth : Expr.depthOfArgs (treesOfArgs (d :: ds)) ≤ s.limit) :
    ReadsArgs (arguments s sub ls) (treesOfArgs (d :: ds)) (Expr.depthOfArgs (treesOfArgs (d :: ds))) rest := by
  induction ds generalizing d ls with
  | nil =>
    simp only [treesOfArgs, Expr.depthOfArgs, nestingOfArgs, Nat.max_zero] at hnesting hdepth ⊢
    obtain ⟨mid, hd, hclose⟩ := fronts_append.1 h
    obtain ⟨_, _, _, rfl, hrest⟩ := fronts_cons.1 hclose
    have hx := hsub.cond hd (ended_rightParen.2 Nat.one_pos) hnesting hdepth
    exact (readsArgs_rightParen hx rfl).2 ⟨arrive_of_finished hs _, rfl, rfl, hrest⟩
  | cons e ds ih =>
    rw [nestingOfArgs] at hnesting
    rw [treesOfArgs, Expr.depthOfArgs] at hdepth ⊢
    rw [tokensOfArgs_cons_cons, List.append_assoc, fronts_append] at h
    obtain ⟨mid, hd, hcomma⟩ := h
    obtain ⟨_, _, _, rfl, hds⟩ := fronts_cons.1 hcomma
    have hx := hsub.cond hd (ended_comma.2 Nat.one_pos) (by omega) (by omega)
    exact (readsArgs_comma hx rfl).2 ⟨arrive_of_finished hs _, _, _, ih hds (by omega) (by omega), rfl, rfl⟩

theorem argumentList_complete (hs : s.ending = .finished stop) (hsub : Complete s n sub) {ds : List (Derivation .cond)}
    (h : Fronts (tokensOfArgs ds ++ [.rightParen]) ls rest) (hnesting : nestingOfArgs ds ≤ n)
    (hdepth : Expr.depthOfArgs (treesOfArgs ds) ≤ s.limit) :
    ReadsArgs (argumentList s sub ls) (treesOfArgs ds) (Expr.depthOfArgs (treesOfArgs ds)) rest := by
  cases ds with
  | nil =>
    obtain ⟨_, _, _, rfl, hrest⟩ := fronts_cons.1 h
    cases fronts_nil.1 hrest
    exact ⟨Nat.lt_succ_self _, by simp only [argumentList, arrive_of_finished hs]; rfl⟩
  | cons d ds =>
    have hargs := arguments_complete hs hsub h hnesting hdepth
    obtain ⟨t, ts, ht, hne⟩ : ∃ t ts, tokensOfArgs (d :: ds) = t :: ts ∧ t ≠ .rightParen := by
      obtain ⟨t, ts, ht, hne⟩ := head_ne_rightParen d
      cases ds with
      | nil => exact ⟨t, ts, ht, hne⟩
      | cons e ds => exact ⟨t, ts ++ .comma :: tokensOfArgs (e :: ds), by rw [tokensOfArgs_cons_cons, ht]; rfl, hne⟩
    rw [ht, List.cons_append] at h
    obtain ⟨_, _, _, rfl, -⟩ := fronts_cons.1 h
    rw [argumentList]
    · exact hargs
    · rintro _ _ _ ⟨⟩
      exact hne rfl

theorem primary_complete (hs : s.ending = .finished stop) (hsub : Complete s n sub) {d : Derivation .prim}
    (h : Fronts d.tokens ls rest) (hend : ∀ ts, tokensOf rest ≠ .leftParen :: ts) (hnesting : d.nesting < n + 1)
    (hdepth : d.tree.depth ≤ s.limit) : Reads (primary s sub ls) ⟨d.tree, d.tree.depth, rest⟩ := by
  have harrive := arrive_of_finished hs
  cases d with
  | name f =>
    obtain ⟨_, _, _, rfl, hrest⟩ := fronts_cons.1 h
    cases fronts_nil.1 hrest
    rw [primary]
    · simp only [primary.leaf, reads_bind_unit, reads_return, harrive, true_and]; rfl
    · rintro _ _ _ rfl
      exact hend _ rfl
  | integer | decimal | string | bool =>
    obtain ⟨_, _, _, rfl, hrest⟩ := fronts_cons.1 h
    cases fronts_nil.1 hrest
    simp only [primary, primary.leaf, reads_bind_unit, reads_return, harrive, true_and]
    rfl
  | call f ds =>
    obtain ⟨_, _, _, rfl, hparen⟩ := fronts_cons.1 h
    obtain ⟨_, _, _, rfl, hds⟩ := fronts_cons.1 hparen
    rw [Derivation.nesting] at hnesting
    rw [Derivation.tree, Expr.depth] at hdepth ⊢
    obtain ⟨hr, hargs⟩ := argumentList_complete hs hsub hds (by omega) (by omega)
    simp only [primary, reads_bind_args, reads_bind_unit, reads_return, checkDepth_eq_ok]
    exact ⟨harrive _, _, _, _, hr, hargs, hdepth, rfl⟩
  | group x =>
    obtain ⟨_, _, _, rfl, hx⟩ := fronts_cons.1 h
    obtain ⟨mid, hx, hclose⟩ := fronts_append.1 hx
    obtain ⟨_, _, _, rfl, hrest⟩ := fronts_cons.1 hclose
    cases fronts_nil.1 hrest
    rw [Derivation.nesting] at hnesting
    have hx := hsub.cond hx (ended_rightParen.2 Nat.one_pos) (by omega) hdepth
    obtain ⟨hr, hexpect⟩ := reads_expect.2 ⟨_, rfl, rfl, harrive _⟩
    obtain ⟨hlt, hx⟩ := hx
    simp only [primary, reads_bind, reads_bind_unit, reads_return]
    exact ⟨harrive _, _, hlt, hx, _, hr, hexpect, rfl⟩

/-- Suffixes only add to the nesting and to the depth. -/
theorem le_suffixed (d : Derivation .post) (t : List Suffix) :
    d.nesting ≤ (d.suffixed t).nesting ∧ d.tree.depth ≤ (d.suffixed t).tree.depth := by
  induction t generalizing d with
  | nil => exact ⟨Nat.le_refl _, Nat.le_refl _⟩
  | cons x t ih =>
    have hx : d.nesting ≤ (Derivation.access d x).nesting ∧ d.tree.depth ≤ (Derivation.access d x).tree.depth := by
      refine ⟨Nat.le_max_left _ _, ?_⟩
      cases x <;> simp only [Derivation.tree, Suffix.tree, Expr.depth] <;> omega
    exact ⟨Nat.le_trans hx.1 (ih _).1, Nat.le_trans hx.2 (ih _).2⟩

theorem tokensOf_suffixes_ne_leftParen {k : Nat} {t : List Suffix} (h : Fronts (tokensOfSuffixes t) ls rest)
    (hend : Ended k (tokensOf rest)) (ts : List Token) : tokensOf ls ≠ .leftParen :: ts := by
  rw [h.tokensOf_eq]
  exact suffixes_ne_leftParen hend t ts

theorem postfixes_of_ended {k : Nat} {tree : Expr} {depth : Nat} (hend : Ended k (tokensOf ls)) :
    Reads (postfixes s sub tree depth ls) ⟨tree, depth, ls⟩ := by
  rw [postfixes]
  · exact reads_ok.2 rfl
  · rintro _ _ _ _ _ _ _ _ rfl; exact hend.2.1 rfl
  · rintro _ _ _ _ _ _ rfl; exact hend.2.1 rfl
  · rintro _ _ _ rfl; exact hend.2.1 rfl
  · rintro _ _ _ rfl; exact hend.2.2.1 rfl

theorem postfixes_complete (hs : s.ending = .finished stop) (hsub : Complete s n sub) {k : Nat} {d : Derivation .post}
    {t : List Suffix} (h : Fronts (tokensOfSuffixes t) ls rest) (hend : Ended k (tokensOf rest))
    (hnesting : (d.suffixed t).nesting < n + 1) (hdepth : (d.suffixed t).tree.depth ≤ s.limit) :
    Reads (postfixes s sub d.tree d.tree.depth ls) ⟨(d.suffixed t).tree, (d.suffixed t).tree.depth, rest⟩ := by
  have harrive := arrive_of_finished hs
  induction t generalizing d ls with
  | nil =>
    cases fronts_nil.1 h
    exact postfixes_of_ended hend
  | cons x t ih =>
    rw [Derivation.suffixed] at hnesting hdepth ⊢
    obtain ⟨hle, hle'⟩ := le_suffixed (d.access x) t
    have hx : x.nesting < n + 1 := Nat.lt_of_le_of_lt (Nat.le_trans (Nat.le_max_right _ _) hle) hnesting
    have hlimit : (d.access x).tree.depth ≤ s.limit := Nat.le_trans hle' hdepth
    obtain ⟨mid, hx', ht⟩ := fronts_append.1 h
    obtain ⟨hlt, hread⟩ := ih ht hnesting hdepth
    cases x with
    | member f =>
      obtain ⟨_, _, _, rfl, hf⟩ := fronts_cons.1 hx'
      obtain ⟨_, _, _, rfl, hmid⟩ := fronts_cons.1 hf
      cases fronts_nil.1 hmid
      rw [postfixes]
      · simp only [reads_bind_unit, reads_bind, reads_return, checkDepth_eq_ok]
        exact ⟨harrive _, hlimit, _, hlt, hread, rfl⟩
      · rintro _ _ _ rfl
        exact tokensOf_suffixes_ne_leftParen ht hend _ rfl
    | memberCall f ds =>
      obtain ⟨_, _, _, rfl, hf⟩ := fronts_cons.1 hx'
      obtain ⟨_, _, _, rfl, hparen⟩ := fronts_cons.1 hf
      obtain ⟨_, _, _, rfl, hds⟩ := fronts_cons.1 hparen
      have hargs : Expr.depthOfArgs (treesOfArgs ds) ≤ s.limit := by
        simp only [Derivation.tree, Suffix.tree, Expr.depth] at hlimit; omega
      obtain ⟨hr, hargs⟩ := argumentList_complete hs hsub hds (Nat.le_of_lt_succ hx) hargs
      rw [postfixes]
      simp only [reads_bind_args, reads_bind_unit, reads_bind, reads_return, checkDepth_eq_ok]
      exact ⟨harrive _, _, _, _, hr, hargs, hlimit, _, hlt, hread, rfl⟩
    | index i =>
      obtain ⟨_, _, _, rfl, hi⟩ := fronts_cons.1 hx'
      obtain ⟨_, hi, hclose⟩ := fronts_append.1 hi
      obtain ⟨_, _, _, rfl, hmid⟩ := fronts_cons.1 hclose
      cases fronts_nil.1 hmid
      have hdepth : i.tree.depth ≤ s.limit := by
        simp only [Derivation.tree, Suffix.tree, Expr.depth] at hlimit; omega
      obtain ⟨hlt', hi⟩ := hsub.cond hi (ended_rightBracket.2 Nat.one_pos) (Nat.lt_of_succ_lt_succ hx) hdepth
      obtain ⟨hr, hexpect⟩ := reads_expect.2 ⟨_, rfl, rfl, harrive mid⟩
      rw [postfixes]
      simp only [reads_bind_unit, reads_bind, reads_return, checkDepth_eq_ok]
      exact ⟨harrive _, _, hlt', hi, _, hr, hexpect, hlimit, _, hlt, hread, rfl⟩

/-! ## Operands and operators -/

/-- The loop over the operators of a level, behind the first operand, gets to the end of a phrase and to its tree. -/
def Reaches (s : Setting) (sub : Reader) (level : Level) (ls : List Lexeme) {a : Symbol} (d : Derivation a)
    (rest : List Lexeme) : Prop :=
  ∃ p, Reads (operand s sub ls) p ∧ ∀ q, Reads (infixes s sub level d.tree d.tree.depth rest) q →
    Reads (infixes s sub level p.tree p.depth p.rest) q

/-- Every phrase of the symbol is reached. -/
def ReachesAll (s : Setting) (n : Nat) (sub : Reader) (level : Level) (a : Symbol) : Prop :=
  ∀ (d : Derivation a) (ls rest : List Lexeme), Fronts d.tokens ls rest → Ended (rankOf a) (tokensOf rest) →
    d.nesting < n + 1 → d.tree.depth ≤ s.limit → Reaches s sub level ls d rest

theorem operand_post (hs : s.ending = .finished stop) (hsub : Complete s n sub) {k : Nat} {d : Derivation .post}
    (h : Fronts d.tokens ls rest) (hend : Ended k (tokensOf rest)) (hnesting : d.nesting < n + 1)
    (hdepth : d.tree.depth ≤ s.limit) : Reads (operand s sub ls) ⟨d.tree, d.tree.depth, rest⟩ := by
  obtain ⟨t, ts, ht, hbegins⟩ := exists_begins_post d
  obtain ⟨x, u, rfl⟩ := exists_suffixed d
  have hle := le_suffixed (.primary x) u
  obtain ⟨mid, hx, hu⟩ := fronts_append.1 (Derivation.tokens_suffixed _ _ ▸ h)
  obtain ⟨hlt, hprimary⟩ := primary_complete hs hsub hx (tokensOf_suffixes_ne_leftParen hu hend)
    (Nat.lt_of_le_of_lt hle.1 hnesting) (Nat.le_trans hle.2 hdepth)
  obtain ⟨hlt', hpostfixes⟩ := postfixes_complete hs hsub hu hend hnesting hdepth
  have hhead : ∃ start stop after, ls = ⟨t, start, stop⟩ :: after := by
    rw [ht] at h
    obtain ⟨start, stop, after, hls, -⟩ := fronts_cons.1 h
    exact ⟨start, stop, after, hls⟩
  rw [operand]
  · simp only [reads_bind, reads_return]
    exact ⟨_, hlt, hprimary, _, hlt', hpostfixes, rfl⟩
  all_goals
    rintro _ _ _ rfl
    obtain ⟨_, _, _, heq⟩ := hhead
    cases heq
    exact hbegins

theorem signed_complete (hs : s.ending = .finished stop) (hsub : Complete s n sub) {op : UnaryOp} {l : Lexeme}
    {d : Derivation .un} (hd : Fronts d.tokens ls rest) (hend : Ended (rankOf .un) (tokensOf rest))
    (hnesting : d.nesting < n) (hdepth : d.tree.depth + 1 ≤ s.limit) :
    Reads (operand.signed s sub op ls : Result (Shorter (l :: ls))) ⟨.unary op d.tree, d.tree.depth + 1, rest⟩ := by
  obtain ⟨hlt, hx⟩ := hsub .unary .un rfl nofun d ls rest hd hend hnesting (by omega)
  simp only [operand.signed, reads_bind_unit, reads_bind, reads_return, checkDepth_eq_ok]
  exact ⟨arrive_of_finished hs _, _, hlt, hx, hdepth, rfl⟩

theorem reaches_pow (hs : s.ending = .finished stop) (hsub : Complete s n sub) (hlevel : level.rank ≤ rankOf .pow) :
    ReachesAll s n sub level .pow := by
  intro d ls rest h hend hnesting hdepth
  cases d with
  | base x => exact ⟨_, operand_post hs hsub h hend hnesting hdepth, fun q hq => hq⟩
  | power x y =>
    rw [Derivation.nesting] at hnesting
    obtain ⟨mid, hx, hpower⟩ := fronts_append.1 h
    obtain ⟨_, _, _, rfl, hy⟩ := fronts_cons.1 hpower
    have hdepth' : max x.tree.depth y.tree.depth + 1 ≤ s.limit := hdepth
    have hleft := operand_post (k := 10) hs hsub hx (ended_operator.2 (by decide)) (by omega) (by omega)
    have hright := hsub .power .un rfl nofun y _ rest hy hend.un (by omega) (by omega)
    exact ⟨_, hleft, fun q hq => (reads_infixes_operator hlevel).2
      ⟨arrive_of_finished hs _, ⟨y.tree, y.tree.depth, rest⟩, hright, hdepth', hq⟩⟩

theorem reaches_un (hs : s.ending = .finished stop) (hsub : Complete s n sub) (hlevel : level.rank ≤ rankOf .pow) :
    ReachesAll s n sub level .un := by
  intro d ls rest h hend hnesting hdepth
  cases d with
  | signed op x =>
    obtain ⟨_, _, _, rfl, hx⟩ := fronts_cons.1 h
    have hnesting' := Nat.lt_of_succ_lt_succ hnesting
    cases op with
    | negate => exact ⟨_, signed_complete hs hsub hx hend hnesting' hdepth, fun q hq => hq⟩
    | not => exact ⟨_, signed_complete hs hsub hx hend hnesting' hdepth, fun q hq => hq⟩
  | plus x =>
    obtain ⟨_, _, _, rfl, hx⟩ := fronts_cons.1 h
    obtain ⟨hlt, hx⟩ := hsub .unary .un rfl nofun x _ rest hx hend (Nat.lt_of_succ_lt_succ hnesting) hdepth
    refine ⟨⟨x.tree, x.tree.depth, rest⟩, ?_, fun q hq => hq⟩
    simp only [operand, reads_bind_unit, reads_bind, reads_return]
    exact ⟨arrive_of_finished hs _, _, hlt, hx, rfl⟩
  | unsigned x =>
    exact reaches_pow hs hsub hlevel x ls rest h (hend.mono (by decide)) hnesting hdepth

theorem le_extend {c : Chain} (d : Derivation (.chain c)) (t : Tail c) :
    d.nesting ≤ (d.extend t).nesting ∧ d.tree.depth ≤ (d.extend t).tree.depth := by
  induction t generalizing d with
  | nil => exact ⟨Nat.le_refl _, Nat.le_refl _⟩
  | cons p t ih =>
    have hp : d.nesting ≤ (Derivation.binary d p.1.1 p.1.2 p.2).nesting ∧
        d.tree.depth ≤ (Derivation.binary d p.1.1 p.1.2 p.2).tree.depth := by
      simp only [Derivation.nesting, Derivation.tree, Expr.depth]; omega
    exact ⟨Nat.le_trans hp.1 (ih _).1, Nat.le_trans hp.2 (ih _).2⟩

/-- Operators of one level are taken one after the other. -/
theorem infixes_extend (hs : s.ending = .finished stop) (hsub : Complete s n sub) {c : Chain}
    (hlevel : level.rank ≤ rankOf (.chain c)) {d : Derivation (.chain c)} {t : Tail c} {q : Parsed}
    (h : Fronts (tokensOfTail t) ls rest) (hend : Ended (rankOf (.chain c)) (tokensOf rest))
    (hnesting : (d.extend t).nesting < n + 1) (hdepth : (d.extend t).tree.depth ≤ s.limit)
    (hq : Reads (infixes s sub level (d.extend t).tree (d.extend t).tree.depth rest) q) :
    Reads (infixes s sub level d.tree d.tree.depth ls) q := by
  induction t generalizing d ls with
  | nil =>
    cases fronts_nil.1 h
    exact hq
  | cons p t ih =>
    obtain ⟨⟨op, hop⟩, x⟩ := p
    have hle := le_extend (.binary d op hop x) t
    have hnesting' := Nat.lt_of_le_of_lt hle.1 hnesting
    have hdepth' := Nat.le_trans hle.2 hdepth
    simp only [Derivation.nesting, Derivation.tree, Expr.depth] at hnesting' hdepth'
    obtain ⟨_, _, _, rfl, hx⟩ := fronts_cons.1 h
    obtain ⟨mid, hx, ht⟩ := fronts_append.1 hx
    obtain ⟨hsym, hlevel'⟩ : symbolOf op.rightLevel = c.operand ∧ op.rightLevel ≠ .invocation := by
      cases c <;> cases op <;> first | exact ⟨rfl, by decide⟩ | exact absurd hop (by decide)
    refine (reads_infixes_operator (by rw [rank_of_mem_operators hop]; exact hlevel)).2
      ⟨arrive_of_finished hs _, ⟨x.tree, x.tree.depth, mid⟩, ?_, hdepth', ih ht hnesting hdepth hq⟩
    refine hsub _ _ hsym hlevel' x _ mid hx ?_ (by omega) (by omega)
    rw [ht.tokensOf_eq]
    exact ended_tail hend t

theorem reaches_chain (hs : s.ending = .finished stop) (hsub : Complete s n sub) {c : Chain}
    (hlevel : level.rank ≤ rankOf (.chain c)) (hoperand : ReachesAll s n sub level c.operand) :
    ReachesAll s n sub level (.chain c) := by
  intro d ls rest h hend hnesting hdepth
  obtain ⟨x, t, rfl⟩ := exists_extend d
  have hle := le_extend (.operand x) t
  obtain ⟨mid, hx, ht⟩ := fronts_append.1 (Derivation.tokens_extend _ _ ▸ h)
  have hmid : Ended (rankOf c.operand) (tokensOf mid) := ht.tokensOf_eq ▸ ended_tail hend t
  obtain ⟨p, hp, hreach⟩ := hoperand x ls mid hx hmid (Nat.lt_of_le_of_lt hle.1 hnesting) (Nat.le_trans hle.2 hdepth)
  exact ⟨p, hp, fun q hq => hreach q (infixes_extend hs hsub hlevel ht hend hnesting hdepth hq)⟩

theorem reaches_cond (hs : s.ending = .finished stop) (hsub : Complete s n sub) (hlevel : level.rank ≤ rankOf .cond)
    (hor : ReachesAll s n sub level (.chain .or)) : ReachesAll s n sub level .cond := by
  intro d ls rest h hend hnesting hdepth
  cases d with
  | condition c => exact hor c ls rest h (hend.mono (by decide)) hnesting hdepth
  | conditional c x y =>
    simp only [Derivation.nesting] at hnesting
    have hlimit : max (max c.tree.depth x.tree.depth) y.tree.depth + 1 ≤ s.limit := by
      simp only [Derivation.tree, Expr.depth] at hdepth; omega
    obtain ⟨mid, hc, hquestion⟩ := fronts_append.1 h
    obtain ⟨_, _, _, rfl, hx⟩ := fronts_cons.1 hquestion
    obtain ⟨_, hx, hcolon⟩ := fronts_append.1 hx
    obtain ⟨_, _, _, rfl, hy⟩ := fronts_cons.1 hcolon
    obtain ⟨p, hp, hreach⟩ := hor c ls _ hc (ended_question.2 (by decide)) (by omega) (by omega)
    have hx := hsub.cond hx (ended_colon.2 Nat.one_pos) (by omega) (by omega)
    have hy := hsub.cond hy hend (by omega) (by omega)
    refine ⟨p, hp, fun q hq => hreach q ((reads_infixes_question hlevel).2 ?_)⟩
    refine ⟨arrive_of_finished hs _, _, hx, _, reads_expect.2 ⟨_, rfl, rfl, arrive_of_finished hs _⟩, _, hy, hlimit, ?_⟩
    simpa only [Derivation.tree, Expr.depth, Nat.max_assoc] using hq

/-- From the tightest symbol that has operators of its own to the loosest. -/
theorem reaches (hs : s.ending = .finished stop) (hsub : Complete s n sub) : (a : Symbol) → level.rank ≤ rankOf a →
    rankOf a ≤ rankOf .un → ReachesAll s n sub level a
  | .un, hlevel, _ => reaches_un hs hsub (Nat.le_succ_of_le hlevel)
  | .chain c, hlevel, hun => by
    have hlt := (rankOf_chain_lt c).2
    have hrank := rankOf_operand c
    exact reaches_chain hs hsub hlevel (reaches hs hsub c.operand (by omega) (by simp only [rankOf] at *; omega))
  | .cond, hlevel, _ => reaches_cond hs hsub hlevel (reaches hs hsub (.chain .or) (Nat.le_succ_of_le hlevel) (by decide))
  | .pow, _, hun | .post, _, hun | .prim, _, hun => absurd hun (by decide)
termination_by a => rankOf .prim - rankOf a
decreasing_by
  · simp only [rankOf] at *; omega
  · decide

theorem infixes_of_closed {tree : Expr} {depth : Nat} (h : Closed level.rank (tokensOf ls)) :
    Reads (infixes s sub level tree depth ls) ⟨tree, depth, ls⟩ := by
  fun_cases infixes s sub level tree depth ls with
  | case1 _ _ _ hlt => rw [infixes, if_pos hlt]; exact reads_ok.2 rfl
  | case2 _ _ _ hge => exact absurd h hge
  | case3 _ _ _ _ hlt => rw [infixes, if_pos hlt]; exact reads_ok.2 rfl
  | case4 _ _ _ _ hge => exact absurd h hge
  | case5 _ hquestion hoperator =>
    rw [infixes]
    · exact reads_ok.2 rfl
    · exact hquestion
    · exact hoperator

/-! ## Whole expressions -/

theorem rank_eq_or (h : level ≠ .invocation) : level = .power ∨ level.rank = rankOf (symbolOf level) := by
  cases level <;> first | exact .inl rfl | exact .inr rfl | exact absurd rfl h

/-- **The reader of subexpressions takes every phrase of its level** that nests less than it can. -/
theorem expression_complete (hs : s.ending = .finished stop) : ∀ n, Complete s n (expression s n)
  | 0 => fun _ _ _ _ _ _ _ _ _ hnesting => absurd hnesting (Nat.not_lt_zero _)
  | n + 1 => fun level a hsym hlevel d ls rest h hend hnesting hdepth => by
    have hsub := expression_complete hs n
    have hall : ReachesAll s n (expression s n) level a := by
      -- At the level of `^` an operand with its sign is read, which no symbol of that rank covers.
      rcases rank_eq_or hlevel with rfl | hrank
      · exact hsym ▸ reaches_un hs hsub (by decide)
      · rw [hsym] at hrank
        exact reaches hs hsub a (Nat.le_of_eq hrank) (hsym ▸ rankOf_symbolOf_le_un level)
    obtain ⟨p, ⟨hlt, hp⟩, hreach⟩ := hall d ls rest h hend hnesting hdepth
    obtain ⟨hle, hq⟩ := hreach _ (infixes_of_closed (hend.closed.mono (hsym ▸ rankOf_symbolOf_le level)))
    simp only [expression, reads_bind, reads_return]
    exact ⟨p, hlt, hp, _, hle, hq, rfl⟩

/-- A run of lexemes that is derived as a whole is read as its tree. -/
theorem whole_complete {lexed : Lexed} {limit : Nat} (hs : lexed.ending = .finished stop) {d : Derivation .cond}
    (htokens : d.tokens = tokensOf lexed.lexemes) (hnesting : d.nesting < limit) (hdepth : d.tree.depth ≤ limit) :
    whole lexed limit = .ok d.tree := by
  have hread := expression_complete (s := ⟨lexed.ending, limit⟩) hs limit .conditional .cond rfl nofun d lexed.lexemes []
    (htokens ▸ fronts_tokensOf _) trivial hnesting hdepth
  obtain ⟨hlt, hread⟩ := hread
  unfold whole
  split
  · rename_i hnil
    rw [hnil] at hlt
    exact absurd hlt (Nat.not_lt_zero _)
  · simp only [hread]
    rfl

/-- **Reading is derivation.**  Of the bounds, one is on the subexpressions within one another and one on the tree. -/
theorem whole_eq_ok {lexed : Lexed} {limit : Nat} (hs : lexed.ending = .finished stop) {e : Expr} :
    whole lexed limit = .ok e ↔
      ∃ d : Derivation .cond, d.tokens = tokensOf lexed.lexemes ∧ d.tree = e ∧ d.nesting < limit ∧ e.depth ≤ limit := by
  constructor
  · exact whole_sound
  · rintro ⟨d, htokens, rfl, hnesting, hdepth⟩
    exact whole_complete hs htokens hnesting hdepth

end
end Parser

open Grammar FlatNtuple.Parser

/-- **Parsing is the grammar's reading.**  A text of fewer tokens than the limit parses just if its tokens have a
derivation, and then as the tree of the only one they have. -/
theorem Expr.parse_eq_ok_iff {text : String} {limit stop : Nat} (hlex : (lex text).ending = .finished stop)
    (hlimit : (lex text).lexemes.length < limit) {e : Expr} :
    Expr.parse text limit = .ok e ↔
      ∃ d : Derivation .cond, d.tokens = tokensOf (lex text).lexemes ∧ d.tree = e ∧
        ∀ d' : Derivation .cond, d'.tokens = tokensOf (lex text).lexemes → d' = d := by
  refine (whole_eq_ok hlex).trans ⟨?_, ?_⟩
  · rintro ⟨d, htokens, htree, -, -⟩
    exact ⟨d, htokens, htree, fun d' h => derivation_unique (h.trans htokens.symm)⟩
  · rintro ⟨d, htokens, rfl, -⟩
    have hlength : d.tokens.length < limit := by rw [htokens, tokensOf, List.length_map]; exact hlimit
    exact ⟨d, htokens, rfl, Nat.lt_trans d.nesting_lt hlength, Nat.le_trans d.depth_le (Nat.le_of_lt hlength)⟩

/-- A sign in front of a power belongs to the power. -/
theorem Expr.parse_negate_power :
    Expr.parse "-a^b" 5 = .ok (.unary .negate (.binary .power (.name "a") (.name "b"))) := by
  let power : Derivation .pow := .power (.primary (.name "a")) (.unsigned (.base (.primary (.name "b"))))
  let d : Derivation .cond := .condition (.operand (.operand (.operand (.operand (.operand (.operand
    (.signed .negate (.unsigned power))))))))
  have htokens : d.tokens = tokensOf (lex "-a^b").lexemes := by decide +kernel
  have hlex : (lex "-a^b").ending = .finished 4 := by decide +kernel
  have hlimit : (lex "-a^b").lexemes.length < 5 := by decide +kernel
  exact (Expr.parse_eq_ok_iff hlex hlimit).2 ⟨d, htokens, rfl, fun d' h => derivation_unique (h.trans htokens.symm)⟩

end FlatNtuple
