import FlatNtuple.Expr.Parser
import FlatNtuple.Meaning.Basic
import FlatNtuple.Value
/-!
# Compiled expressions

A compiled expression is a function of an object to values of one kind: the meaning of the expression's tree, coerced to
the kind, and the kind's own value for missing data where the meaning has none.
-/
namespace FlatNtuple

structure CompilerConfig where
  /-- How deep an expression may nest. -/
  maxDepth : Nat := 100
  deriving DecidableEq, Repr, Inhabited

structure Compiled (k : ReturnKind) (t : ObjectType) where
  /-- The text it was compiled from. -/
  source : String
  evaluate : t.Record → k.Carrier

/-- The values of a kind that a meaning has; only numbers and truth values have any. -/
def Meaning.result {α : Type} (k : ReturnKind) : Meaning α → Except Fault (α → k.Carrier)
  | number f => .ok fun x => ((f x).map k.ofNumber).getD k.missing
  | boolean f => .ok fun x => ((f x).map k.ofBool).getD k.missing
  | m => .error (.typeMismatch .result m.type)

/-- Compiles a text to a function of objects of type `t` to values of kind `k`. -/
def CompilerConfig.compile (c : CompilerConfig) (k : ReturnKind) (t : ObjectType) (source : String) :
    Except CompileError (Compiled k t) :=
  match Expr.parse source c.maxDepth with
  | .error e => .error ⟨source, .ofParseError e⟩
  | .ok e =>
    match (do (← e.bind t).result k : Except Fault (t.Record → k.Carrier)) with
    | .error f => .error ⟨source, .fault f⟩
    | .ok evaluate => .ok ⟨source, evaluate⟩

end FlatNtuple
