import FlatNtuple.Proofs.Meaning.Compile
/-!
# Calls of builtin functions

What a builtin function makes of its arguments does not depend on how many it takes: they are counted, each is given its
meaning as a number, and the function takes one after the other (`bind_builtin`).  So the calls of builtin functions are
one case of the induction along `bind` (`Expr.bindInduction`).
-/
namespace FlatNtuple

namespace Builtin

variable {α γ : Type}

/-- The next of the arguments, and those behind it. -/
def next (name : String) : List γ → Except Fault (γ × List γ)
  | [] => .error (.invalidArguments name .missing)
  | a :: rest => .ok (a, rest)

/-- A builtin function of its arguments, which it takes one after the other. -/
def call (name : String) (f : Builtin) (args : List (α → Option Float)) : Except Fault (Meaning α) :=
  match f with
  | unary f => do
    let (a, _) ← next name args
    return .number fun x => do return f (← a x)
  | binary f => do
    let (a, args) ← next name args
    let (b, _) ← next name args
    return .number fun x => do return f (← a x) (← b x)
  | quaternary f => do
    let (a, args) ← next name args
    let (b, args) ← next name args
    let (c, args) ← next name args
    let (d, _) ← next name args
    return .number fun x => do return f (← a x) (← b x) (← c x) (← d x)

/-- **As many arguments as a builtin function takes are all there**, and its value is missing where one of theirs is. -/
theorem call_of_arity (name : String) {f : Builtin} {args : List (α → Option Float)} (h : args.length = f.arity) :
    ∃ g, f.call name args = .ok (.number g) ∧ ∀ x, g x = none ↔ ∃ a ∈ args, a x = none := by
  match f, args, h with
  | .unary f, [a], _ =>
    refine ⟨_, rfl, fun x => ?_⟩
    cases ha : a x <;> simp [ha]
  | .binary f, [a, b], _ =>
    refine ⟨_, rfl, fun x => ?_⟩
    cases ha : a x <;> cases hb : b x <;> simp [ha, hb]
  | .quaternary f, [a, b, c, d], _ =>
    refine ⟨_, rfl, fun x => ?_⟩
    cases ha : a x <;> cases hb : b x <;> cases hc : c x <;> cases hd : d x <;> simp [ha, hb, hc, hd]

end Builtin

namespace Expr

variable {t : ObjectType} {n : String} {f : Builtin} {args : List Expr}

/-- The meanings of arguments as numbers. -/
def bindNumbers (t : ObjectType) : List Expr → Except Fault (List (t.Record → Option Float))
  | [] => .ok []
  | e :: rest => do
    let a ← (← e.bind t).asNumber
    let args ← bindNumbers t rest
    return a :: args

theorem length_bindNumbers : ∀ {args : List Expr} {numbers}, bindNumbers t args = .ok numbers →
    numbers.length = args.length
  | [], _, h => by
    cases h
    rfl
  | e :: rest, _, h => by
    simp only [bindNumbers, bind_eq_ok, pure_eq_ok] at h
    obtain ⟨_, -, _, -, numbers, hrest, rfl⟩ := h
    rw [List.length_cons, List.length_cons, length_bindNumbers hrest]

/-- **A call of a builtin function with as many arguments as it takes.** -/
theorem bind_builtin (hn : Builtin.find? n = some f) (h : args.length = f.arity) :
    (call n args).bind t = bindNumbers t args >>= f.call n := by
  match f, args, h with
  | .unary f, [a], _ =>
    rw [bind.eq_4 _ _ _ _ hn]
    simp only [bindNumbers, bind_assoc]
    rfl
  | .binary f, [a, b], _ =>
    rw [bind.eq_5 _ _ _ _ _ hn]
    simp only [bindNumbers, bind_assoc]
    rfl
  | .quaternary f, [a, b, c, d], _ =>
    rw [bind.eq_6 _ _ _ _ _ _ _ hn]
    simp only [bindNumbers, bind_assoc]
    rfl

/-- **Induction along `bind`.**  A call is split by what its name stands for and by whether a builtin function gets as many
arguments as it takes, an index by the form of its base. -/
@[elab_as_elim]
theorem bindInduction {motive : Expr → Prop} (e : Expr) (literal : ∀ l, motive (.literal l)) (name : ∀ n, motive (.name n))
    (call : ∀ n args, Builtin.find? n = none → motive (.call n args))
    (builtin : ∀ n f args, Builtin.find? n = some f → args.length = f.arity → (∀ a ∈ args, motive a) →
      motive (.call n args))
    (misfit : ∀ n f args, Builtin.find? n = some f → args.length ≠ f.arity → motive (.call n args))
    (member : ∀ base n, motive base → motive (.member base n))
    (memberCall : ∀ base n args, motive base → motive (.memberCall base n args))
    (indexName : ∀ n i, motive (.index (.name n) i))
    (indexMember : ∀ base n i, motive base → motive (.index (.member base n) i))
    (indexOther : ∀ base i, (∀ n, base ≠ .name n) → (∀ base' n, base ≠ .member base' n) → motive (.index base i))
    (binary : ∀ op l r, motive l → motive r → motive (.binary op l r)) (unary : ∀ op e, motive e → motive (.unary op e))
    (conditional : ∀ c l r, motive c → motive l → motive r → motive (.conditional c l r)) : motive e := by
  induction e using bind.induct with
  | case1 l => exact literal l
  | case2 n => exact name n
  | case3 n args hn => exact call n args hn
  | case4 n f a hn iha => exact builtin n _ [a] hn rfl (by simpa using iha)
  | case5 n f a b hn iha ihb => exact builtin n _ [a, b] hn rfl (by simp [iha, ihb])
  | case6 n f a b c d hn iha ihb ihc ihd => exact builtin n _ [a, b, c, d] hn rfl (by simp [iha, ihb, ihc, ihd])
  | case7 n f args h₁ h₂ h₄ hn => exact misfit n f args hn (arity_ne h₁ h₂ h₄)
  | case8 base n ih => exact member base n ih
  | case9 base n args ih => exact memberCall base n args ih
  | case10 n i => exact indexName n i
  | case11 base n i ih => exact indexMember base n i ih
  | case12 base i hname hmember => exact indexOther base i hname hmember
  | case13 op l r ihl ihr => exact binary op l r ihl ihr
  | case14 op e ih => exact unary op e ih
  | case15 c l r ihc ihl ihr => exact conditional c l r ihc ihl ihr

end Expr
end FlatNtuple
