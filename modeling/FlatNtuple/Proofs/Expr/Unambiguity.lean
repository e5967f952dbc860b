import FlatNtuple.Proofs.Expr.Spine
/-!
# One derivation at most

The grammar is unambiguous.  More is shown, since the induction needs it: tokens split in one way only into a phrase of
a symbol and what ends such phrases (`Unique`).  The induction is on the number of tokens of the phrase; within one
number, each symbol rests on the next tighter one.
-/
namespace FlatNtuple
namespace Grammar

open FlatNtuple.Parser (rankOf)

/-- Phrases of at most `n` tokens stand in one way at the front of some tokens. -/
def Unique (n : Nat) (a : Symbol) : Prop :=
  ∀ (d d' : Derivation a) (r r' : List Token), d.tokens.length ≤ n → Ended (rankOf a) r → Ended (rankOf a) r' →
    d.tokens ++ r = d'.tokens ++ r' → d = d' ∧ r = r'

section
variable {n : Nat}

theorem unique_args (h : Unique n .cond) : (ds ds' : List (Derivation .cond)) → (r r' : List Token) →
    (tokensOfArgs ds).length ≤ n → tokensOfArgs ds ++ .rightParen :: r = tokensOfArgs ds' ++ .rightParen :: r' →
    ds = ds' ∧ r = r'
  | [], [], r, r', _, he => ⟨rfl, (List.cons.inj he).2⟩
  | [], d' :: ds', r, r', _, he => by
    obtain ⟨t, ts, ht, hne⟩ := head_ne_rightParen d'
    cases ds' <;> simp [tokensOfArgs, ht, Ne.symm hne] at he
  | d :: ds, [], r, r', _, he => by
    obtain ⟨t, ts, ht, hne⟩ := head_ne_rightParen d
    cases ds <;> simp [tokensOfArgs, ht, hne] at he
  | [d], [d'], r, r', hn, he => by
    obtain ⟨rfl, hr⟩ := h d d' _ _ hn (ended_rightParen.2 Nat.one_pos) (ended_rightParen.2 Nat.one_pos) he
    exact ⟨rfl, (List.cons.inj hr).2⟩
  -- Behind the same first argument, one list ends and the other goes on with a comma.
  | [d], d' :: e' :: ds', r, r', hn, he => by
    rw [tokensOfArgs_cons_cons, List.append_assoc, List.cons_append] at he
    obtain ⟨-, hr⟩ := h d d' _ _ hn (ended_rightParen.2 Nat.one_pos) (ended_comma.2 Nat.one_pos) he
    cases hr
  | d :: e :: ds, [d'], r, r', hn, he => by
    rw [tokensOfArgs_cons_cons] at hn he
    rw [List.append_assoc, List.cons_append] at he
    have hlen : d.tokens.length ≤ n := by rw [List.length_append] at hn; omega
    obtain ⟨-, hr⟩ := h d d' _ _ hlen (ended_comma.2 Nat.one_pos) (ended_rightParen.2 Nat.one_pos) he
    cases hr
  | d :: e :: ds, d' :: e' :: ds', r, r', hn, he => by
    rw [tokensOfArgs_cons_cons] at hn he
    rw [tokensOfArgs_cons_cons, List.append_assoc, List.cons_append, List.append_assoc, List.cons_append] at he
    rw [List.length_append, List.length_cons] at hn
    obtain ⟨rfl, hr⟩ := h d d' _ _ (by omega) (ended_comma.2 Nat.one_pos) (ended_comma.2 Nat.one_pos) he
    obtain ⟨hds, rfl⟩ := unique_args h (e :: ds) (e' :: ds') r r' (by omega) (List.cons.inj hr).2
    exact ⟨by rw [hds], rfl⟩

/-- A primary ends where no arguments are opened. -/
theorem unique_prim (h : ∀ m < n, Unique m .cond) (d d' : Derivation .prim) {r r' : List Token}
    (hn : d.tokens.length ≤ n) (hr : ∀ ts, r ≠ .leftParen :: ts) (hr' : ∀ ts, r' ≠ .leftParen :: ts)
    (he : d.tokens ++ r = d'.tokens ++ r') : d = d' ∧ r = r' := by
  cases d <;> cases d' <;> simp only [Derivation.tokens, List.cons_append, List.nil_append, List.append_assoc,
    List.cons.injEq, Token.identifier.injEq, Token.integer.injEq, Token.decimal.injEq, Token.string.injEq,
    Token.bool.injEq, true_and, reduceCtorEq, false_and] at he
  case name.name => exact ⟨by rw [he.1], he.2⟩
  case name.call => exact absurd he.2 (hr _)
  case call.name => exact absurd he.2.symm (hr' _)
  case call.call f ds f' ds' =>
    simp only [Derivation.tokens, List.length_cons, List.length_append] at hn
    obtain ⟨hds, hr⟩ := unique_args (h (n - 1) (by omega)) ds ds' r r' (by omega) he.2
    exact ⟨by rw [he.1, hds], hr⟩
  case integer.integer => exact ⟨by rw [he.1], he.2⟩
  case decimal.decimal => exact ⟨by rw [he.1], he.2⟩
  case string.string => exact ⟨by rw [he.1], he.2⟩
  case bool.bool => exact ⟨by rw [he.1], he.2⟩
  case group.group x x' =>
    simp only [Derivation.tokens, List.length_cons, List.length_append] at hn
    obtain ⟨hx, hr⟩ := h (n - 1) (by omega) x x' _ _ (by omega) (ended_rightParen.2 Nat.one_pos)
      (ended_rightParen.2 Nat.one_pos) he
    exact ⟨by rw [hx], (List.cons.inj hr).2⟩

theorem suffixes_ne_leftParen {k : Nat} {r : List Token} (hr : Ended k r) : (t : List Suffix) → (ts : List Token) →
    tokensOfSuffixes t ++ r ≠ .leftParen :: ts
  | [], ts => by rintro rfl; exact hr.2.2.2 rfl
  | .member _ :: _, _ | .memberCall _ _ :: _, _ | .index _ :: _, _ => nofun

theorem unique_suffixes (h : ∀ m < n, Unique m .cond) {k : Nat} {r r' : List Token} (hr : Ended k r)
    (hr' : Ended k r') : (t t' : List Suffix) → (tokensOfSuffixes t).length ≤ n →
    tokensOfSuffixes t ++ r = tokensOfSuffixes t' ++ r' → t = t' ∧ r = r'
  | [], [], _, he => ⟨rfl, he⟩
  | [], s :: t, _, he => by
    cases s <;> (subst he; simp [tokensOfSuffixes, Suffix.tokens, Ended] at hr)
  | s :: t, [], _, he => by
    cases s <;> (rw [← show _ = r' from he] at hr'; simp [tokensOfSuffixes, Suffix.tokens, Ended] at hr')
  | s :: t, s' :: t', hn, he => by
    simp only [tokensOfSuffixes, List.length_append, List.append_assoc] at hn he
    have step {x x' : Suffix} (hx : x = x') (he : tokensOfSuffixes t ++ r = tokensOfSuffixes t' ++ r') :
        x :: t = x' :: t' ∧ r = r' := by
      obtain ⟨ht, hr⟩ := unique_suffixes h hr hr' t t' (by omega) he
      exact ⟨by rw [hx, ht], hr⟩
    cases s <;> cases s' <;> simp only [Suffix.tokens, List.cons_append, List.nil_append, List.append_assoc,
      List.cons.injEq, Token.identifier.injEq, true_and, reduceCtorEq, false_and] at he
    case member.member => exact step (by rw [he.1]) he.2
    case member.memberCall => exact absurd he.2 (suffixes_ne_leftParen hr t _)
    case memberCall.member => exact absurd he.2.symm (suffixes_ne_leftParen hr' t' _)
    case memberCall.memberCall f ds f' ds' =>
      simp only [Suffix.tokens, List.length_cons, List.length_append] at hn
      obtain ⟨hds, he'⟩ := unique_args (h (n - 1) (by omega)) ds ds' _ _ (by omega) he.2
      exact step (by rw [he.1, hds]) he'
    case index.index i i' =>
      simp only [Suffix.tokens, List.length_cons, List.length_append] at hn
      obtain ⟨hi, he'⟩ := h (n - 1) (by omega) i i' _ _ (by omega) (ended_rightBracket.2 Nat.one_pos)
        (ended_rightBracket.2 Nat.one_pos) he
      exact step (by rw [hi]) (List.cons.inj he').2

theorem unique_post (h : ∀ m < n, Unique m .cond) : Unique n .post := by
  intro d d' r r' hn hr hr' he
  obtain ⟨x, t, rfl⟩ := exists_suffixed d
  obtain ⟨x', t', rfl⟩ := exists_suffixed d'
  simp only [Derivation.tokens_suffixed, Derivation.tokens, List.length_append, List.append_assoc] at hn he
  obtain ⟨rfl, ht⟩ := unique_prim h x x' (by omega) (suffixes_ne_leftParen hr t) (suffixes_ne_leftParen hr' t') he
  obtain ⟨rfl, hr⟩ := unique_suffixes h hr hr' t t' (by omega) ht
  exact ⟨rfl, hr⟩

theorem unique_pow (hpost : Unique n .post) (h : ∀ m < n, Unique m .un) : Unique n .pow := by
  have hpower (ts : List Token) : Ended (rankOf .post) (.operator .power :: ts) := ended_operator.2 (by decide)
  have not_power {ts : List Token} : ¬ Ended (rankOf .pow) (.operator .power :: ts) :=
    fun h => absurd (ended_operator.1 h) (by decide)
  intro d d' r r' hn hr hr' he
  cases d <;> cases d' <;> simp only [Derivation.tokens, List.append_assoc, List.cons_append] at he
  case base.base x x' =>
    obtain ⟨rfl, hr⟩ := hpost x x' r r' hn (hr.mono (by decide)) (hr'.mono (by decide)) he
    exact ⟨rfl, hr⟩
  case base.power x x' y' =>
    -- The phrase would end before a `^`, which goes on with it.
    obtain ⟨-, rfl⟩ := hpost x x' _ _ hn (hr.mono (by decide)) (hpower _) he
    exact absurd hr not_power
  case power.base x y x' =>
    simp only [Derivation.tokens, List.length_append] at hn
    obtain ⟨-, rfl⟩ := hpost x x' _ _ (by omega) (hpower _) (hr'.mono (by decide)) he
    exact absurd hr' not_power
  case power.power x y x' y' =>
    simp only [Derivation.tokens, List.length_append, List.length_cons] at hn
    obtain ⟨rfl, hy⟩ := hpost x x' _ _ (by omega) (hpower _) (hpower _) he
    obtain ⟨rfl, hr⟩ := h (n - 1) (by omega) y y' _ _ (by omega) hr.un hr'.un (List.cons.inj hy).2
    exact ⟨rfl, hr⟩

theorem unique_un (hpow : Unique n .pow) (h : ∀ m < n, Unique m .un) : Unique n .un := by
  intro d d' r r' hn hr hr' he
  have unsigned {x : Derivation .pow} {t : Token} {ts : List Token} {r : List Token} (hx : x.tokens ++ r = t :: ts) :
      Begins t := by
    obtain ⟨t', ts', ht, hbegins⟩ := exists_begins_pow x
    rw [ht] at hx
    exact (List.cons.inj hx).1 ▸ hbegins
  cases d <;> cases d' <;> simp only [Derivation.tokens, List.cons_append] at he
  case signed.signed op x op' x' =>
    obtain ⟨hop, he⟩ := List.cons.inj he
    obtain ⟨rfl, hr⟩ := h (n - 1) (Nat.sub_lt (Nat.zero_lt_of_lt hn) Nat.one_pos) x x' r r' (Nat.le_sub_one_of_lt hn)
      hr hr' he
    have hop : op = op' := by cases op <;> cases op' <;> first | rfl | cases hop
    exact ⟨by rw [hop], hr⟩
  case signed.plus op x x' => cases op <;> cases (List.cons.inj he).1
  case signed.unsigned op x x' => cases op <;> exact (unsigned he.symm).elim
  case plus.signed x op x' => cases op <;> cases (List.cons.inj he).1
  case plus.plus x x' =>
    obtain ⟨rfl, hr⟩ := h (n - 1) (Nat.sub_lt (Nat.zero_lt_of_lt hn) Nat.one_pos) x x' r r' (Nat.le_sub_one_of_lt hn)
      hr hr' (List.cons.inj he).2
    exact ⟨rfl, hr⟩
  case plus.unsigned x x' => exact (unsigned he.symm).elim
  case unsigned.signed x op x' => cases op <;> exact (unsigned he).elim
  case unsigned.plus x x' => exact (unsigned he).elim
  case unsigned.unsigned x x' =>
    obtain ⟨rfl, hr⟩ := hpow x x' r r' hn (hr.mono (by decide)) (hr'.mono (by decide)) he
    exact ⟨rfl, hr⟩

theorem unique_tail {c : Chain} (h : Unique n c.operand) {r r' : List Token} (hr : Ended (rankOf (.chain c)) r)
    (hr' : Ended (rankOf (.chain c)) r') : (t t' : Tail c) → (tokensOfTail t).length ≤ n →
    tokensOfTail t ++ r = tokensOfTail t' ++ r' → t = t' ∧ r = r'
  | [], [], _, he => ⟨rfl, he⟩
  | [], (⟨op, hop⟩, x) :: t, _, he => by
    rw [show r = _ from he, tokensOfTail, List.cons_append, ended_operator, rank_of_mem_operators hop] at hr
    exact absurd hr (Nat.lt_irrefl _)
  | (⟨op, hop⟩, x) :: t, [], _, he => by
    rw [show r' = _ from he.symm, tokensOfTail, List.cons_append, ended_operator, rank_of_mem_operators hop] at hr'
    exact absurd hr' (Nat.lt_irrefl _)
  | (⟨op, hop⟩, x) :: t, (⟨op', hop'⟩, x') :: t', hn, he => by
    simp only [tokensOfTail, List.length_cons, List.length_append, List.cons_append, List.append_assoc, List.cons.injEq,
      Token.operator.injEq] at hn he
    obtain ⟨rfl, he⟩ := he
    obtain ⟨rfl, ht⟩ := h x x' _ _ (by omega) (ended_tail hr t) (ended_tail hr' t') he
    obtain ⟨rfl, hr⟩ := unique_tail h hr hr' t t' (by omega) ht
    exact ⟨rfl, hr⟩

theorem unique_chain {c : Chain} (h : Unique n c.operand) : Unique n (.chain c) := by
  intro d d' r r' hn hr hr' he
  obtain ⟨x, t, rfl⟩ := exists_extend d
  obtain ⟨x', t', rfl⟩ := exists_extend d'
  simp only [Derivation.tokens_extend, Derivation.tokens, List.length_append, List.append_assoc] at hn he
  obtain ⟨rfl, ht⟩ := h x x' _ _ (by omega) (ended_tail hr t) (ended_tail hr' t') he
  obtain ⟨rfl, hr⟩ := unique_tail h hr hr' t t' (by omega) ht
  exact ⟨rfl, hr⟩

theorem unique_cond (hor : Unique n (.chain .or)) (h : ∀ m < n, Unique m .cond) : Unique n .cond := by
  have hquestion (ts : List Token) : Ended (rankOf (.chain .or)) (.question :: ts) := ended_question.2 (by decide)
  have hcolon (ts : List Token) : Ended (rankOf .cond) (.colon :: ts) := ended_colon.2 Nat.one_pos
  have not_question {ts : List Token} : ¬ Ended (rankOf .cond) (.question :: ts) :=
    fun h => absurd (ended_question.1 h) (by decide)
  intro d d' r r' hn hr hr' he
  cases d <;> cases d' <;> simp only [Derivation.tokens, List.append_assoc, List.cons_append] at he
  case condition.condition c c' =>
    obtain ⟨rfl, hr⟩ := hor c c' r r' hn (hr.mono (by decide)) (hr'.mono (by decide)) he
    exact ⟨rfl, hr⟩
  case condition.conditional c c' x' y' =>
    obtain ⟨-, rfl⟩ := hor c c' _ _ hn (hr.mono (by decide)) (hquestion _) he
    exact absurd hr not_question
  case conditional.condition c x y c' =>
    simp only [Derivation.tokens, List.length_append] at hn
    obtain ⟨-, rfl⟩ := hor c c' _ _ (by omega) (hquestion _) (hr'.mono (by decide)) he
    exact absurd hr' not_question
  case conditional.conditional c x y c' x' y' =>
    simp only [Derivation.tokens, List.length_append, List.length_cons] at hn
    obtain ⟨rfl, hx⟩ := hor c c' _ _ (by omega) (hquestion _) (hquestion _) he
    obtain ⟨rfl, hy⟩ := h (n - 1) (by omega) x x' _ _ (by omega) (hcolon _) (hcolon _) (List.cons.inj hx).2
    obtain ⟨rfl, hr⟩ := h (n - 1) (by omega) y y' _ _ (by omega) hr hr' (List.cons.inj hy).2
    exact ⟨rfl, hr⟩

end

/-- From the tightest symbol to the loosest. -/
theorem unique_un_and_cond (n : Nat) : Unique n .un ∧ Unique n .cond := by
  induction n using Nat.strongRecOn with
  | ind n ih =>
    -- Operands of prefix operators and of `^` are shorter, and so is what stands between brackets.
    have hcond : ∀ m < n, Unique m .cond := fun m hm => (ih m hm).2
    have hun : Unique n .un := unique_un (unique_pow (unique_post hcond) fun m hm => (ih m hm).1) fun m hm => (ih m hm).1
    have hadditive : Unique n (.chain .additive) := unique_chain (unique_chain hun)
    have hequality : Unique n (.chain .equality) := unique_chain (unique_chain hadditive)
    exact ⟨hun, unique_cond (unique_chain (unique_chain hequality)) hcond⟩

/-- **The grammar is unambiguous.**  No tokens have two derivations. -/
theorem derivation_unique {d d' : Derivation .cond} (h : d.tokens = d'.tokens) : d = d' :=
  ((unique_un_and_cond _).2 d d' [] [] (Nat.le_refl _) trivial trivial (by rw [h])).1

end Grammar
end FlatNtuple
