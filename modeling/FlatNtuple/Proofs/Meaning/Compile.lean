import Mathlib
import FlatNtuple.Meaning.Compiled
import FlatNtuple.Proofs.Except
/-!
# When a text compiles

A text compiles to a function if it is read as a tree and the tree has values of the kind that is asked for.  An accessor
takes its arguments if they are the literals that it wants.
-/
namespace FlatNtuple

theorem noArguments_eq_ok {n : String} {args : List Expr} {u : Unit} :
    Accessor.noArguments n args = .ok u ↔ args = [] := by
  cases args <;> simp [Accessor.noArguments]

theorem keyArgument_eq_ok {n key : String} {args : List Expr} :
    Accessor.keyArgument n args = .ok key ↔ args = [.literal (.string key)] := by
  unfold Accessor.keyArgument
  split
  · simp
  · rename_i hne
    simp only [reduceCtorEq, false_iff]
    exact fun h => hne key h

theorem indexArgument_eq_ok {n : String} {i : Nat} {args : List Expr} :
    Accessor.indexArgument n args = .ok i ↔ args = [.literal (.integer i)] := by
  unfold Accessor.indexArgument
  split
  · rename_i j
    split
    · simp; omega
    · simp; omega
  · rename_i hne
    simp only [reduceCtorEq, false_iff]
    exact fun h => hne i h

/-- A call of what is no builtin function is an accessor. -/
theorem bind_call {t : ObjectType} {n : String} {args : List Expr} (hn : Builtin.find? n = none) :
    (Expr.call n args).bind t = t.root n args := Expr.bind.eq_3 t n args hn

/-- The arguments of a builtin function are counted before any of them is looked at. -/
theorem bind_of_arity_ne {t : ObjectType} {n : String} {f : Builtin} {args : List Expr} (hn : Builtin.find? n = some f)
    (h : args.length ≠ f.arity) : (Expr.call n args).bind t = .error (.invalidArguments n (.arity f.arity args.length)) := by
  rw [← show f.misfit args.length = .arity f.arity args.length from if_neg h]
  refine Expr.bind.eq_7 t n args f hn ?_ ?_ ?_
  · rintro g a rfl rfl
    exact h rfl
  · rintro g a b rfl rfl
    exact h rfl
  · rintro g a b c d rfl rfl
    exact h rfl

/-- Arguments of which a builtin function takes neither one, two nor four are not as many as it takes. -/
theorem arity_ne {f : Builtin} {args : List Expr} (h₁ : ∀ g a, args = [a] → f = .unary g → False)
    (h₂ : ∀ g a b, args = [a, b] → f = .binary g → False)
    (h₄ : ∀ g a b c d, args = [a, b, c, d] → f = .quaternary g → False) : args.length ≠ f.arity := by
  intro harity
  match f, args, harity with
  | .unary g, [a], _ => exact h₁ g a rfl rfl
  | .binary g, [a, b], _ => exact h₂ g a b rfl rfl
  | .quaternary g, [a, b, c, d], _ => exact h₄ g a b c d rfl rfl

/-- What is indexed is a name or a member. -/
theorem bind_index_error {t : ObjectType} {base i : Expr} (hname : ∀ n, base ≠ .name n)
    (hmember : ∀ base' n, base ≠ .member base' n) :
    (Expr.index base i).bind t = .error (.invalidArguments base.text .notIndexable) := by
  rw [Expr.bind]
  · exact hname
  · exact hmember

/-- The values of a kind that a tree has, as a function of the object. -/
def Expr.results (e : Expr) (k : ReturnKind) (t : ObjectType) : Except Fault (t.Record → k.Carrier) := do
  (← e.bind t).result k

theorem results_eq_ok {e : Expr} {k : ReturnKind} {t : ObjectType} {f : t.Record → k.Carrier} :
    e.results k t = .ok f ↔ ∃ m, e.bind t = .ok m ∧ m.result k = .ok f := bind_eq_ok

theorem compile_eq_ok {c : CompilerConfig} {k : ReturnKind} {t : ObjectType} {source : String} {f : Compiled k t} :
    c.compile k t source = .ok f ↔
      f.source = source ∧ ∃ e, Expr.parse source c.maxDepth = .ok e ∧ e.results k t = .ok f.evaluate := by
  obtain ⟨name, evaluate⟩ := f
  unfold CompilerConfig.compile
  cases hparse : Expr.parse source c.maxDepth with
  | error => simp
  | ok e =>
    simp only [Except.ok.injEq, exists_eq_left']
    unfold Expr.results
    split
    · rename_i h; simp [h]
    · rename_i h; simp [h, eq_comm]

end FlatNtuple
