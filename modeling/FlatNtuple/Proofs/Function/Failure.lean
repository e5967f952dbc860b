import FlatNtuple.Proofs.Expr.DepthLimit
import FlatNtuple.Proofs.Function.Memo
import FlatNtuple.Proofs.Meaning.Builtin
/-!
# Failures

A text that does not compile is told why: it is no expression, or too deep for the limit, or there is a fault in its tree,
and in any case the error is about the text and quotes it (`compile_failure`).  A library passes the error on.

The arguments of a builtin function are counted before it takes them one after the other, so none is ever found missing
(`supplied_bind`).
-/
namespace FlatNtuple

theorem CompileError.message_quotes (e : CompileError) : ∃ before after, e.message = before ++ e.expression ++ after := by
  obtain ⟨expression, cause⟩ := e
  cases cause with
  | syntaxError source =>
    refine ⟨"Cannot parse expression '", "': " ++ source.message, ?_⟩
    simp only [message, String.append_assoc]
  | tooDeep limit =>
    refine ⟨"Expression '", "' nests deeper than the limit of " ++ toString limit, ?_⟩
    simp only [message, String.append_assoc]
  | fault f =>
    cases f with
    | unknownAccessor => exact ⟨_, _, rfl⟩
    | invalidArguments name fault =>
      refine ⟨"Invalid arguments to '" ++ name ++ "' in expression '", "': " ++ fault.text, ?_⟩
      simp only [message, String.append_assoc]
    | typeMismatch required found =>
      refine ⟨"Type mismatch in expression '", "': expected " ++ required.text ++ ", found " ++ found.name, ?_⟩
      simp only [message, String.append_assoc]

/-- No argument of a builtin function is found missing. -/
def Supplied {α : Type} (x : Except Fault α) : Prop := ∀ n, x ≠ .error (.invalidArguments n .missing)

namespace Supplied

variable {α β : Type}

theorem ok {a : α} : Supplied (.ok a) := nofun

theorem error {f : Fault} (h : ∀ n, f ≠ .invalidArguments n .missing) : Supplied (.error f : Except Fault α) :=
  fun n he => h n (Except.error.inj he)

theorem bind_of_ok {x : Except Fault α} {f : α → Except Fault β} (hx : Supplied x)
    (hf : ∀ a, x = .ok a → Supplied (f a)) : Supplied (x >>= f) := by
  cases x with
  | error e => exact error fun n he => hx n (congrArg _ he)
  | ok a => exact hf a rfl

theorem bind {x : Except Fault α} {f : α → Except Fault β} (hx : Supplied x) (hf : ∀ a, Supplied (f a)) :
    Supplied (x >>= f) := hx.bind_of_ok fun a _ => hf a

/-! ## Operators -/

theorem asNumber (m : Meaning α) : Supplied m.asNumber := by
  cases m with
  | number | boolean => exact ok
  | object | text => exact error nofun

theorem asBoolean (m : Meaning α) : Supplied m.asBoolean := by
  cases m with
  | number | boolean => exact ok
  | object | text => exact error nofun

theorem result (k : ReturnKind) (m : Meaning α) : Supplied (m.result k) := by
  cases m with
  | number | boolean => exact ok
  | object | text => exact error nofun

theorem indexed (n : String) (m : Meaning α) : Supplied (m.indexed n) := by
  cases m with
  | object => exact ok
  | number | boolean | text => exact error nofun

theorem numbers (l r : Meaning α) (f : (α → Option Float) → (α → Option Float) → Meaning α) :
    Supplied (do let a ← l.asNumber; let b ← r.asNumber; return f a b) :=
  (asNumber l).bind fun _ => (asNumber r).bind fun _ => ok

theorem equality (negate : Bool) (l r : Meaning α) : Supplied (Meaning.equality negate l r) := by
  unfold Meaning.equality
  split
  · exact ok
  · exact numbers _ _ _

theorem binary (op : BinaryOp) (l r : Meaning α) : Supplied (Meaning.binary op l r) := by
  cases op with
  | add | subtract | multiply | divide | power => exact numbers l r _
  | equal | notEqual => exact equality _ l r
  | less | lessEqual | greater | greaterEqual => exact numbers l r _
  | and | or => exact (asBoolean l).bind fun _ => (asBoolean r).bind fun _ => ok

theorem unary (op : UnaryOp) (m : Meaning α) : Supplied (Meaning.unary op m) := by
  cases op with
  | negate => exact (asNumber m).bind fun _ => ok
  | not => exact (asBoolean m).bind fun _ => ok

theorem conditional (c : α → Option Bool) (l r : Meaning α) : Supplied (Meaning.conditional c l r) := by
  unfold Meaning.conditional
  split
  · exact ok
  · exact numbers _ _ _

/-! ## Accessors -/

theorem noArguments (n : String) (args : List Expr) : Supplied (Accessor.noArguments n args) := by
  cases args with
  | nil => exact ok
  | cons => exact error nofun

theorem keyArgument (n : String) (args : List Expr) : Supplied (Accessor.keyArgument n args) := by
  unfold Accessor.keyArgument
  split
  · exact ok
  · exact error nofun

theorem indexArgument (n : String) (args : List Expr) : Supplied (Accessor.indexArgument n args) := by
  unfold Accessor.indexArgument
  split
  · split
    · exact error nofun
    · exact ok
  · exact error nofun

theorem apply (a : Accessor α) (get : β → Option α) (n : String) (args : List Expr) :
    Supplied (a.apply get n args) := by
  cases a with
  | number | boolean => exact (noArguments n args).bind fun _ => ok
  | numberByKey | booleanByKey => exact (keyArgument n args).bind fun _ => ok
  | daughter => exact (indexArgument n args).bind fun _ => ok

theorem root (t : ObjectType) (n : String) (args : List Expr) : Supplied (t.root n args) := by
  unfold ObjectType.root
  split
  · exact apply _ _ n args
  · exact error nofun

theorem member (m : Meaning α) (n : String) (args : List Expr) : Supplied (m.member n args) := by
  unfold Meaning.member
  split
  · split
    · exact apply _ _ n args
    · exact error nofun
  · exact error nofun

theorem bindNumbers {t : ObjectType} : ∀ {args : List Expr}, (∀ a ∈ args, Supplied (a.bind t)) →
    Supplied (Expr.bindNumbers t args)
  | [], _ => ok
  | a :: _, h => (h a List.mem_cons_self).bind fun m => (asNumber m).bind fun _ =>
    (bindNumbers fun b hb => h b (List.mem_cons_of_mem a hb)).bind fun _ => ok

end Supplied

/-- **No builtin function in a tree finds an argument missing.** -/
theorem supplied_bind (t : ObjectType) (e : Expr) : Supplied (e.bind t) := by
  induction e using Expr.bindInduction with
  | literal l => exact .ok
  | name n => exact .root t n []
  | call n args hn =>
    rw [bind_call hn]
    exact .root t n args
  | builtin n f args hn harity ih =>
    rw [Expr.bind_builtin hn harity]
    refine (Supplied.bindNumbers ih).bind_of_ok fun numbers hnumbers => ?_
    obtain ⟨g, hg, -⟩ := Builtin.call_of_arity n ((Expr.length_bindNumbers hnumbers).trans harity)
    rw [hg]
    exact .ok
  | misfit n f args hn harity =>
    rw [bind_of_arity_ne hn harity]
    exact .error fun _ he => by cases (Fault.invalidArguments.inj he).2
  | member base n ih => exact ih.bind fun m => .member m n []
  | memberCall base n args ih => exact ih.bind fun m => .member m n args
  | indexName n i => exact (Supplied.root t n [i]).bind fun m => .indexed n m
  | indexMember base n i ih => exact ih.bind fun m => (Supplied.member m n [i]).bind fun m => .indexed n m
  | indexOther base i hname hmember =>
    rw [bind_index_error hname hmember]
    exact .error fun _ he => by cases (Fault.invalidArguments.inj he).2
  | binary op l r ihl ihr => exact ihl.bind fun l => ihr.bind fun r => .binary op l r
  | unary op e ih => exact ih.bind fun m => .unary op m
  | conditional c l r ihc ihl ihr =>
    exact ihc.bind fun m => (Supplied.asBoolean m).bind fun c => ihl.bind fun l => ihr.bind fun r => .conditional c l r

section
variable {c : CompilerConfig} {k : ReturnKind} {t : ObjectType} {source : String} {e : CompileError}

theorem compile_eq_error : c.compile k t source = .error e ↔ e.expression = source ∧
    ((∃ p, Expr.parse source c.maxDepth = .error p ∧ e.cause = .ofParseError p) ∨
      ∃ tree f, Expr.parse source c.maxDepth = .ok tree ∧ tree.results k t = .error f ∧ e.cause = .fault f) := by
  obtain ⟨expression, cause⟩ := e
  unfold CompilerConfig.compile
  cases hparse : Expr.parse source c.maxDepth with
  | error p => simp [eq_comm]
  | ok tree =>
    simp only [reduceCtorEq, false_and, exists_false, false_or, Except.ok.injEq, exists_and_left, exists_eq_left']
    unfold Expr.results
    split
    · rename_i h; simp [h, eq_comm]
    · rename_i h; simp [h]

/-- Whatever a new library was asked before, it passes the error of a text on. -/
theorem get_of_compile_error (h : c.compile k t source = .error e) (hempty : source ≠ "")
    (hnative : (Native.table k t).get? source = none) (asked : List String) :
    ((({ compiler := c } : FunctionLibrary k t).after asked).get source).1 =
      .error (.unresolvable source k t.kind e) := by
  have hafter := (FunctionLibrary.remembers_nil c).after (k := k) (t := t) asked
  rw [(hafter.get source).1, FunctionLibrary.resolve, if_neg hempty, FunctionLibrary.native, hnative, hafter.compiler, h]

/-- **Every failure to compile is about the text.**  Its error carries the text and quotes it.  It is a syntax error, or
says that the text is too deep for the limit, or what the fault of the tree is; and no fault is an argument of a builtin
function found missing.  A library that is asked for the text passes the error on, with the text and its own kinds. -/
theorem compile_failure (h : c.compile k t source = .error e) :
    e.expression = source ∧ (∃ before after, e.message = before ++ source ++ after) ∧
    ((∃ p, Expr.parse source c.maxDepth = .error p ∧ e.cause = .syntaxError p ∧
        ∀ limit position, p ≠ .tooDeep limit position) ∨
      (∃ position, Expr.parse source c.maxDepth = .error (.tooDeep c.maxDepth position) ∧
        e.cause = .tooDeep c.maxDepth) ∨
      ∃ tree f, Expr.parse source c.maxDepth = .ok tree ∧ tree.results k t = .error f ∧ e.cause = .fault f ∧
        ∀ n, f ≠ .invalidArguments n .missing) ∧
    (source ≠ "" → (Native.table k t).get? source = none → ∀ asked,
      ((({ compiler := c } : FunctionLibrary k t).after asked).get source).1 =
        .error (.unresolvable source k t.kind e)) := by
  obtain ⟨hsource, hcause⟩ := compile_eq_error.1 h
  refine ⟨hsource, hsource ▸ e.message_quotes, ?_, get_of_compile_error h⟩
  rcases hcause with ⟨p, hparse, hcause⟩ | ⟨tree, f, hparse, hresults, hcause⟩
  · by_cases hdeep : ∃ limit position, p = .tooDeep limit position
    · obtain ⟨limit, position, rfl⟩ := hdeep
      obtain rfl := Expr.parse_tooDeep hparse
      exact .inr (.inl ⟨position, hparse, hcause⟩)
    · have hne : ∀ limit position, p ≠ .tooDeep limit position := fun limit position hp => hdeep ⟨limit, position, hp⟩
      exact .inl ⟨p, hparse, hcause.trans (CompileError.Cause.ofParseError.eq_2 p hne), hne⟩
  · have hsupplied : Supplied (tree.results k t) := (supplied_bind t tree).bind fun m => .result k m
    exact .inr (.inr ⟨tree, f, hparse, hresults, hcause, fun n hf => hsupplied n (hf ▸ hresults)⟩)

/-- A builtin function of two arguments that is given one. -/
theorem compile_failure_arity :
    let e : CompileError := ⟨"max(pt)", .fault (.invalidArguments "max" (.arity 2 1))⟩
    (⟨8⟩ : CompilerConfig).compile .float .muon "max(pt)" = .error e ∧
    (∃ before after, e.message = before ++ "max(pt)" ++ after) ∧
    ((({ compiler := ⟨8⟩ } : FunctionLibrary .float .muon).after ["pt", "max(pt)"]).get "max(pt)").1 =
      .error (.unresolvable "max(pt)" .float .muon e) := by
  intro e
  have hcompile : (⟨8⟩ : CompilerConfig).compile .float .muon "max(pt)" = .error e := by cbv
  obtain ⟨-, hquotes, -, hget⟩ := compile_failure hcompile
  exact ⟨hcompile, hquotes, hget (by decide) (by decide +kernel) _⟩

end
end FlatNtuple
