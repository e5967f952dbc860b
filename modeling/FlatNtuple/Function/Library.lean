import FlatNtuple.Function.Native
/-!
# Libraries of functions

A library finds a function by its name.  The name of a native function stands for that function, any other name is read
as an expression, and an expression that has been compiled once is remembered.  Looking a function up yields the answer
and the library as it is afterwards; a failure leaves nothing behind.
-/
namespace FlatNtuple

inductive LibraryError
  | emptyName
  /-- A name that is neither a native function nor an expression. -/
  | unresolvable (name : String) (kind : ReturnKind) (objectKind : ObjectKind) (source : CompileError)
  deriving DecidableEq, Repr

def LibraryError.message : LibraryError → String
  | emptyName => "Function name must not be empty"
  | unresolvable name kind objectKind source =>
    "'" ++ name ++ "' is neither a " ++ kind.text ++ " function for " ++ objectKind.text ++
      " nor a valid expression: " ++ source.message

structure FunctionLibrary (k : ReturnKind) (t : ObjectType) where
  compiler : CompilerConfig := {}
  /-- The functions compiled so far. -/
  memo : SortedMap (NamedFunction k t) := ∅

namespace FunctionLibrary

variable {k : ReturnKind} {t : ObjectType}

def native (_ : FunctionLibrary k t) : NativeTable k t := Native.table k t

/-- What a name stands for if nothing is remembered. -/
def resolve (l : FunctionLibrary k t) (name : String) : Except LibraryError (NamedFunction k t) :=
  if name = "" then .error .emptyName
  else match l.native.get? name with
    | some f => .ok f
    | none =>
      match l.compiler.compile k t name with
      | .ok c => .ok c.toFunction
      | .error e => .error (.unresolvable name k t.kind e)

def get (l : FunctionLibrary k t) (name : String) : Except LibraryError (NamedFunction k t) × FunctionLibrary k t :=
  if name = "" then (.error .emptyName, l)
  else match l.native.get? name with
    | some f => (.ok f, l)
    | none =>
      match l.memo.get? name with
      | some f => (.ok f, l)
      | none =>
        match l.compiler.compile k t name with
        | .ok c => (.ok c.toFunction, { l with memo := l.memo.insert name c.toFunction })
        | .error e => (.error (.unresolvable name k t.kind e), l)

def isNative (l : FunctionLibrary k t) (name : String) : Bool := l.native.contains name

def nativeNames (l : FunctionLibrary k t) : List String := l.native.names

def compiledCount (l : FunctionLibrary k t) : Nat := l.memo.size

end FunctionLibrary

/-- One library for each kind of values. -/
structure LibrarySet (t : ObjectType) where
  library : (k : ReturnKind) → FunctionLibrary k t

namespace LibrarySet

variable {t : ObjectType}

def ofCompiler (c : CompilerConfig) : LibrarySet t := ⟨fun _ => { compiler := c }⟩

/-- The set with the library of one kind replaced. -/
def set (s : LibrarySet t) (k : ReturnKind) (l : FunctionLibrary k t) : LibrarySet t :=
  ⟨fun k' => if h : k = k' then h ▸ l else s.library k'⟩

def get (s : LibrarySet t) (k : ReturnKind) (name : String) : Except LibraryError (AnyFunction t) × LibrarySet t :=
  let (answer, l) := (s.library k).get name
  (answer.map fun f => ⟨k, f⟩, s.set k l)

theorem library_set (s : LibrarySet t) (k : ReturnKind) (l : FunctionLibrary k t) : (s.set k l).library k = l := by
  simp [set]

theorem library_set_of_ne (s : LibrarySet t) {k k' : ReturnKind} (l : FunctionLibrary k t) (h : k ≠ k') :
    (s.set k l).library k' = s.library k' := by
  simp [set, h]

end LibrarySet
end FlatNtuple
