import FlatNtuple.Proofs.Expr.Soundness
/-!
# Derivations from left to right

Operators of a level and suffixes are derived from the right end, and they are read from the left.  Here such a
derivation is taken apart the other way: its first operand, and then what is added to it (`exists_extend`,
`exists_suffixed`).  `Ended` says what has to follow for a phrase not to go on.
-/
namespace FlatNtuple
namespace Grammar

open FlatNtuple.Parser (tightness rankOf rankOf_operand Closed)

/-- What follows a phrase neither binds to it, with a rank of at least `k`, nor goes on with its last primary. -/
def Ended (k : Nat) : List Token → Prop
  | [] => True
  | t :: _ => tightness t < k ∧ t ≠ .dot ∧ t ≠ .leftBracket ∧ t ≠ .leftParen

theorem Ended.mono {k m : Nat} (h : k ≤ m) : {ts : List Token} → Ended k ts → Ended m ts
  | [], _ => trivial
  | _ :: _, ⟨ht, hne⟩ => ⟨Nat.lt_of_lt_of_le ht h, hne⟩

theorem Ended.closed {k : Nat} : {ts : List Token} → Ended k ts → Closed k ts
  | [], _ => trivial
  | _ :: _, ⟨ht, _⟩ => ht

section
variable {k : Nat} {op : BinaryOp} {ts : List Token}

attribute [local simp] Ended tightness

theorem ended_operator : Ended k (.operator op :: ts) ↔ op.level.rank < k := by simp

theorem ended_question : Ended k (.question :: ts) ↔ 1 < k := by simp [Level.rank]

theorem ended_colon : Ended k (.colon :: ts) ↔ 0 < k := by simp

theorem ended_comma : Ended k (.comma :: ts) ↔ 0 < k := by simp

theorem ended_rightParen : Ended k (.rightParen :: ts) ↔ 0 < k := by simp

theorem ended_rightBracket : Ended k (.rightBracket :: ts) ↔ 0 < k := by simp

end

/-- No infix operator stands on the level of the prefix operators. -/
theorem Ended.un {ts : List Token} (h : Ended (rankOf .pow) ts) : Ended (rankOf .un) ts := by
  match ts, h with
  | [], _ => trivial
  | t :: _, ⟨ht, hne⟩ =>
    refine ⟨Nat.lt_of_le_of_ne (Nat.le_of_lt_succ ht) ?_, hne⟩
    cases t with
    | operator op => cases op <;> decide
    | question => decide
    | _ => exact nofun

/-! ## Operands in a row -/

/-- The operators of a level behind its first operand, each with the operand that follows it. -/
abbrev Tail (c : Chain) := List ({ op : BinaryOp // op ∈ c.operators } × Derivation c.operand)

def Derivation.extend {c : Chain} (d : Derivation (.chain c)) : Tail c → Derivation (.chain c)
  | [] => d
  | (op, x) :: rest => (Derivation.binary d op.1 op.2 x).extend rest

def tokensOfTail {c : Chain} : Tail c → List Token
  | [] => []
  | (op, x) :: rest => .operator op.1 :: (x.tokens ++ tokensOfTail rest)

theorem Derivation.extend_append {c : Chain} (d : Derivation (.chain c)) (t t' : Tail c) :
    d.extend (t ++ t') = (d.extend t).extend t' := by
  induction t generalizing d with
  | nil => rfl
  | cons p t ih => exact ih _

theorem Derivation.tokens_extend {c : Chain} (d : Derivation (.chain c)) (t : Tail c) :
    (d.extend t).tokens = d.tokens ++ tokensOfTail t := by
  induction t generalizing d with
  | nil => exact (List.append_nil _).symm
  | cons p t ih =>
    rw [Derivation.extend, ih, Derivation.tokens, tokensOfTail, List.append_assoc, List.cons_append]

theorem exists_extend {c : Chain} : (d : Derivation (.chain c)) → ∃ x t, d = (Derivation.operand x).extend t
  | .operand x => ⟨x, [], rfl⟩
  | .binary l op h r => by
    obtain ⟨x, t, hl⟩ := exists_extend l
    exact ⟨x, t ++ [(⟨op, h⟩, r)], by rw [Derivation.extend_append, ← hl]; rfl⟩

theorem rank_of_mem_operators {c : Chain} {op : BinaryOp} (h : op ∈ c.operators) : op.level.rank = rankOf (.chain c) := by
  cases c <;> cases op <;> first | rfl | exact absurd h (by decide)

/-- An operator of a level ends the operands of the level. -/
theorem ended_tail {c : Chain} {r : List Token} (hr : Ended (rankOf (.chain c)) r) :
    (t : Tail c) → Ended (rankOf c.operand) (tokensOfTail t ++ r)
  | [] => hr.mono (by rw [rankOf_operand]; exact Nat.le_succ _)
  | (⟨op, hop⟩, x) :: rest =>
    ended_operator.2 (by rw [rankOf_operand, rank_of_mem_operators hop]; exact Nat.lt_succ_self _)

/-! ## Suffixes in a row -/

def Derivation.suffixed (d : Derivation .post) : List Suffix → Derivation .post
  | [] => d
  | s :: rest => (Derivation.access d s).suffixed rest

def tokensOfSuffixes : List Suffix → List Token
  | [] => []
  | s :: rest => s.tokens ++ tokensOfSuffixes rest

theorem Derivation.suffixed_append (d : Derivation .post) (t t' : List Suffix) :
    d.suffixed (t ++ t') = (d.suffixed t).suffixed t' := by
  induction t generalizing d with
  | nil => rfl
  | cons s t ih => exact ih _

theorem Derivation.tokens_suffixed (d : Derivation .post) (t : List Suffix) :
    (d.suffixed t).tokens = d.tokens ++ tokensOfSuffixes t := by
  induction t generalizing d with
  | nil => exact (List.append_nil _).symm
  | cons s t ih => rw [Derivation.suffixed, ih, Derivation.tokens, tokensOfSuffixes, List.append_assoc]

theorem exists_suffixed : (d : Derivation .post) → ∃ x t, d = (Derivation.primary x).suffixed t
  | .primary x => ⟨x, [], rfl⟩
  | .access x s => by
    obtain ⟨y, t, hx⟩ := exists_suffixed x
    exact ⟨y, t ++ [s], by rw [Derivation.suffixed_append, ← hx]; rfl⟩

/-! ## First tokens -/

/-- A token that a primary begins with. -/
def Begins : Token → Prop
  | .identifier _ | .integer _ | .decimal _ | .string _ | .bool _ | .leftParen => True
  | _ => False

theorem exists_begins_prim (d : Derivation .prim) : ∃ t ts, d.tokens = t :: ts ∧ Begins t := by
  cases d <;> exact ⟨_, _, rfl, trivial⟩

theorem exists_begins_post (d : Derivation .post) : ∃ t ts, d.tokens = t :: ts ∧ Begins t := by
  obtain ⟨x, s, rfl⟩ := exists_suffixed d
  obtain ⟨t, ts, h, hbegins⟩ := exists_begins_prim x
  exact ⟨t, ts ++ tokensOfSuffixes s, by rw [Derivation.tokens_suffixed, Derivation.tokens, h, List.cons_append], hbegins⟩

theorem exists_begins_pow (d : Derivation .pow) : ∃ t ts, d.tokens = t :: ts ∧ Begins t := by
  cases d with
  | base x => exact exists_begins_post x
  | power x y =>
    obtain ⟨t, ts, h, hbegins⟩ := exists_begins_post x
    exact ⟨t, ts ++ .operator .power :: y.tokens, by rw [Derivation.tokens, h, List.cons_append], hbegins⟩

/-- No argument begins like the end of the arguments. -/
theorem head_ne_rightParen {a : Symbol} : (d : Derivation a) → ∃ t ts, d.tokens = t :: ts ∧ t ≠ .rightParen
  | .condition c => head_ne_rightParen c
  | .conditional c x y => by
    obtain ⟨t, ts, h, hne⟩ := head_ne_rightParen c
    exact ⟨t, ts ++ .question :: (x.tokens ++ .colon :: y.tokens), by rw [Derivation.tokens, h, List.cons_append], hne⟩
  | .operand x => head_ne_rightParen x
  | .binary l op _ r => by
    obtain ⟨t, ts, h, hne⟩ := head_ne_rightParen l
    exact ⟨t, ts ++ .operator op :: r.tokens, by rw [Derivation.tokens, h, List.cons_append], hne⟩
  | .signed op x => ⟨_, _, rfl, by cases op <;> decide⟩
  | .plus x => ⟨_, _, rfl, by decide⟩
  | .unsigned x => head_ne_rightParen x
  | .base x => head_ne_rightParen x
  | .power x y => by
    obtain ⟨t, ts, h, hne⟩ := head_ne_rightParen x
    exact ⟨t, ts ++ .operator .power :: y.tokens, by rw [Derivation.tokens, h, List.cons_append], hne⟩
  | .primary x => head_ne_rightParen x
  | .access x s => by
    obtain ⟨t, ts, h, hne⟩ := head_ne_rightParen x
    exact ⟨t, ts ++ s.tokens, by rw [Derivation.tokens, h, List.cons_append], hne⟩
  | .name _ | .call _ _ | .integer _ | .decimal _ | .string _ | .bool _ | .group _ => ⟨_, _, rfl, nofun⟩

end Grammar
end FlatNtuple
