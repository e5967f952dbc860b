import FlatNtuple.Proofs.Except
import FlatNtuple.Proofs.Expr.Grammar
/-!
# What readers hand on

The readers of `FlatNtuple.Expr.Parser` return what they read with a proof that lexemes were used up.  `Reads` forgets
the proof, and the lemmas beside it open a reader's steps one after the other.  `Closed` says that what follows binds
too loosely to belong to the phrase before it: it is where a reader of a level stops.
-/
namespace FlatNtuple
namespace Parser

/-- A reader's result is a given value, whatever the proof that comes with it. -/
def Reads {α : Type} {P : α → Prop} (r : Result { a : α // P a }) (a : α) : Prop := ∃ h, r = .ok ⟨a, h⟩

/-- The arguments that are read, the depth of the deepest, and what follows them. -/
def ReadsArgs {P : List Lexeme → Prop} (r : Result ((List Expr × Nat) × { ls : List Lexeme // P ls }))
    (args : List Expr) (depth : Nat) (rest : List Lexeme) : Prop := ∃ h, r = .ok ((args, depth), ⟨rest, h⟩)

/-- The tokens of some lexemes. -/
def tokensOf (ls : List Lexeme) : List Token := ls.map Lexeme.token

@[simp] theorem tokensOf_nil : tokensOf [] = [] := rfl

@[simp] theorem tokensOf_cons (l : Lexeme) (ls : List Lexeme) : tokensOf (l :: ls) = l.token :: tokensOf ls := rfl

/-- How tightly a token takes the phrase before it as its left operand. -/
def tightness : Token → Nat
  | .question => Level.conditional.rank
  | .operator op => op.level.rank
  | _ => 0

/-- What comes next takes no left operand that binds as tightly as the rank says. -/
def Closed (rank : Nat) : List Token → Prop
  | [] => True
  | t :: _ => tightness t < rank

theorem Closed.mono {k m : Nat} (h : k ≤ m) : {ts : List Token} → Closed k ts → Closed m ts
  | [], _ => trivial
  | _ :: _, ht => Nat.lt_of_lt_of_le ht h

section
variable {α β : Type} {P : α → Prop} {Q : β → Prop} {R : List Lexeme → Prop}

theorem Reads.prop {r : Result { a : α // P a }} {a : α} : Reads r a → P a := fun ⟨h, _⟩ => h

theorem reads_ok {a b : α} {h : P a} : Reads (.ok ⟨a, h⟩) b ↔ a = b := by
  simp only [Reads, Except.ok.injEq, Subtype.mk.injEq]
  exact ⟨fun ⟨_, e⟩ => e, fun e => ⟨e ▸ h, e⟩⟩

theorem reads_return {a b : α} {h : P a} : Reads (return ⟨a, h⟩ : Result { a : α // P a }) b ↔ a = b := reads_ok

theorem reads_error {a : α} {e : ParseError} : Reads (.error e : Result { a : α // P a }) a ↔ False :=
  ⟨fun ⟨_, h⟩ => (nomatch h), False.elim⟩

theorem reads_bind {b : β} {x : Result { a : α // P a }} {f : { a : α // P a } → Result { b : β // Q b }} :
    Reads (x >>= f) b ↔ ∃ a h, x = .ok ⟨a, h⟩ ∧ Reads (f ⟨a, h⟩) b := by
  simp only [Reads, bind_eq_ok, Subtype.exists]
  exact ⟨fun ⟨h, a, ha, hx, hf⟩ => ⟨a, ha, hx, h, hf⟩, fun ⟨a, ha, hx, h, hf⟩ => ⟨h, a, ha, hx, hf⟩⟩

theorem reads_bind_unit {b : β} {x : Result Unit} {f : Unit → Result { b : β // Q b }} :
    Reads (x >>= f) b ↔ x = .ok () ∧ Reads (f ()) b := by
  simp only [Reads, bind_eq_ok]
  exact ⟨fun ⟨h, _, hx, hf⟩ => ⟨hx, h, hf⟩, fun ⟨hx, h, hf⟩ => ⟨h, (), hx, hf⟩⟩

theorem reads_bind_args {b : β} {x : Result ((List Expr × Nat) × { ls : List Lexeme // R ls })}
    {f : (List Expr × Nat) × { ls : List Lexeme // R ls } → Result { b : β // Q b }} :
    Reads (x >>= f) b ↔ ∃ args depth rest h, x = .ok ((args, depth), ⟨rest, h⟩) ∧
      Reads (f ((args, depth), ⟨rest, h⟩)) b := by
  simp only [Reads, bind_eq_ok, Prod.exists, Subtype.exists]
  exact ⟨fun ⟨h, args, depth, rest, ha, hx, hf⟩ => ⟨args, depth, rest, ha, hx, h, hf⟩,
    fun ⟨args, depth, rest, ha, hx, h, hf⟩ => ⟨h, args, depth, rest, ha, hx, hf⟩⟩

end

/-! ## Steps of the readers -/

theorem arrive_of_finished {s : Setting} {stop : Nat} (hs : s.ending = .finished stop) (ls : List Lexeme) :
    s.arrive ls = .ok () := by
  unfold Setting.arrive
  split
  · rename_i h; rw [hs] at h; cases h
  · rfl

section
variable {s : Setting} {sub : Reader} {level : Level} {tree : Expr} {depth start stop : Nat}
  {ls rest r : List Lexeme} {q : Parsed}

theorem checkDepth_eq_ok : s.checkDepth depth ls = .ok () ↔ depth ≤ s.limit := by
  unfold Setting.checkDepth
  split
  · simp; omega
  · simp; omega

theorem reads_expect {t : Token} :
    Reads (s.expect t ls) r ↔ ∃ l, ls = l :: r ∧ l.token = t ∧ s.arrive r = .ok () := by
  cases ls with
  | nil => simp [Setting.expect, reads_error]
  | cons l ls =>
    by_cases hl : l.token = t
    · simp only [Setting.expect, if_pos hl, reads_bind_unit, reads_return, List.cons.injEq]
      constructor
      · rintro ⟨ha, rfl⟩; exact ⟨l, ⟨rfl, rfl⟩, hl, ha⟩
      · rintro ⟨_, ⟨rfl, rfl⟩, _, ha⟩; exact ⟨ha, rfl⟩
    · simp only [Setting.expect, if_neg hl, reads_error, List.cons.injEq, false_iff]
      rintro ⟨_, ⟨rfl, rfl⟩, h, _⟩; exact hl h

theorem reads_infixes_operator {op : BinaryOp} (h : level.rank ≤ op.level.rank) :
    Reads (infixes s sub level tree depth (⟨.operator op, start, stop⟩ :: rest)) q ↔
      s.arrive rest = .ok () ∧ ∃ right, Reads (sub op.rightLevel rest) right ∧
        max depth right.depth + 1 ≤ s.limit ∧
        Reads (infixes s sub level (.binary op tree right.tree) (max depth right.depth + 1) right.rest) q := by
  rw [infixes, if_neg (Nat.not_lt.2 h)]
  simp only [reads_bind, reads_bind_unit, reads_return, checkDepth_eq_ok, exists_and_right, exists_eq_right]
  rfl

theorem reads_infixes_question (h : level.rank ≤ Level.conditional.rank) :
    Reads (infixes s sub level tree depth (⟨.question, start, stop⟩ :: rest)) q ↔
      s.arrive rest = .ok () ∧ ∃ x, Reads (sub .conditional rest) x ∧ ∃ r, Reads (s.expect .colon x.rest) r ∧
        ∃ y, Reads (sub .conditional r) y ∧ max (max depth x.depth) y.depth + 1 ≤ s.limit ∧
        Reads (infixes s sub level (.conditional tree x.tree y.tree) (max (max depth x.depth) y.depth + 1) y.rest) q := by
  rw [infixes, if_neg (Nat.not_lt.2 h)]
  simp only [reads_bind, reads_bind_unit, reads_return, checkDepth_eq_ok, exists_and_right, exists_eq_right]
  rfl

theorem readsArgs_comma {x : Parsed} {args : List Expr} (hx : Reads (sub .conditional ls) x)
    (hr : x.rest = ⟨.comma, start, stop⟩ :: rest) :
    ReadsArgs (arguments s sub ls) args depth r ↔ s.arrive rest = .ok () ∧
      ∃ xs m, ReadsArgs (arguments s sub rest) xs m r ∧ x.tree :: xs = args ∧ max x.depth m = depth := by
  obtain ⟨tree, m, after⟩ := x
  obtain ⟨hlt, hsub⟩ := hx
  subst hr
  rw [arguments, hsub]
  simp only [ReadsArgs, bind_eq_ok, Prod.exists, Subtype.exists, pure_eq_ok, Prod.mk.injEq, Subtype.mk.injEq]
  constructor
  · rintro ⟨_, _, ha, xs, m', _, h, he, ⟨hargs, hdepth⟩, rfl⟩
    exact ⟨ha, xs, m', ⟨h, he⟩, hargs, hdepth⟩
  · rintro ⟨ha, xs, m', ⟨h, he⟩, hargs, hdepth⟩
    have hrest : r.length < ls.length := by simp only [List.length_cons] at hlt; omega
    exact ⟨hrest, (), ha, xs, m', r, h, he, ⟨hargs, hdepth⟩, rfl⟩

theorem readsArgs_rightParen {x : Parsed} {args : List Expr} (hx : Reads (sub .conditional ls) x)
    (hr : x.rest = ⟨.rightParen, start, stop⟩ :: rest) :
    ReadsArgs (arguments s sub ls) args depth r ↔ s.arrive rest = .ok () ∧ [x.tree] = args ∧ x.depth = depth ∧
      rest = r := by
  obtain ⟨tree, m, after⟩ := x
  obtain ⟨hlt, hsub⟩ := hx
  subst hr
  rw [arguments, hsub]
  simp only [ReadsArgs, bind_eq_ok, pure_eq_ok, Prod.mk.injEq, Subtype.mk.injEq]
  constructor
  · rintro ⟨_, _, ha, ⟨hargs, hdepth⟩, hrest⟩
    exact ⟨ha, hargs, hdepth, hrest⟩
  · rintro ⟨ha, hargs, hdepth, rfl⟩
    have hrest : rest.length < ls.length := by simp only [List.length_cons] at hlt; omega
    exact ⟨hrest, (), ha, ⟨hargs, hdepth⟩, rfl⟩

/-- An argument is followed by a comma or by the end of the arguments. -/
theorem exists_of_readsArgs {args : List Expr} (h : ReadsArgs (arguments s sub ls) args depth r) :
    ∃ x start stop rest, Reads (sub .conditional ls) x ∧
      (x.rest = ⟨.comma, start, stop⟩ :: rest ∨ x.rest = ⟨.rightParen, start, stop⟩ :: rest) := by
  revert h
  fun_cases arguments s sub ls with
  | case1 => rintro ⟨_, ⟨⟩⟩
  | case2 x hx he start stop rest hr => exact fun _ => ⟨x, start, stop, rest, ⟨hx, he⟩, .inl hr⟩
  | case3 x hx he start stop rest hr => exact fun _ => ⟨x, start, stop, rest, ⟨hx, he⟩, .inr hr⟩
  | case4 => rintro ⟨_, ⟨⟩⟩
  | case5 => rintro ⟨_, ⟨⟩⟩

end
end Parser
end FlatNtuple
