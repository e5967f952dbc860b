import FlatNtuple.Proofs.Meaning.Builtin
/-!
# Meanings and values with tags

A tree can also be read without types: `Expr.run` works out the value of every node for one object, each value with the
tag of what it is, and operators convert their operands as they find them.  `Agrees` relates a meaning to such a value.
A numeric meaning may stand for a truth value, which is what a conditional with branches of both types comes to;
`agrees_bind` shows that every meaning stands for the value of its tree, so what a tree compiles to is what it runs to.
-/
namespace FlatNtuple

/-- What a node comes to for one object. -/
inductive Tagged
  | number (x : Float)
  | boolean (b : Bool)
  /-- A daughter. -/
  | object (p : Particle)
  | missing

namespace Tagged

/-- A truth value counts as one or zero. -/
def number? : Tagged → Option Float
  | number x => some x
  | boolean b => some (if b then 1 else 0)
  | _ => none

/-- A number is true if it is neither zero nor NaN. -/
def truth? : Tagged → Option Bool
  | boolean b => some b
  | number x => some (x != 0 && !x.isNaN)
  | _ => none

def ofNumber? : Option Float → Tagged
  | some x => number x
  | none => missing

def ofTruth? : Option Bool → Tagged
  | some b => boolean b
  | none => missing

def ofObject? : Option Particle → Tagged
  | some p => object p
  | none => missing

def arithmetic (op : Float → Float → Float) (v w : Tagged) : Tagged :=
  match v.number?, w.number? with
  | some a, some b => number (op a b)
  | _, _ => missing

def comparison (op : Float → Float → Bool) (v w : Tagged) : Tagged :=
  match v.number?, w.number? with
  | some a, some b => boolean (op a b)
  | _, _ => missing

/-- Truth values are compared as such only with one another. -/
def equality (negate : Bool) : Tagged → Tagged → Tagged
  | boolean a, boolean b => boolean ((a == b) != negate)
  | v, w => comparison (fun a b => (a == b) != negate) v w

/-- The operators that need both of their operands. -/
def strict : BinaryOp → Tagged → Tagged → Tagged
  | .add => arithmetic (· + ·)
  | .subtract => arithmetic (· - ·)
  | .multiply => arithmetic (· * ·)
  | .divide => arithmetic (· / ·)
  | .power => arithmetic Float.pow
  | .equal => equality false
  | .notEqual => equality true
  | .less => comparison fun a b => decide (a < b)
  | .lessEqual => comparison fun a b => decide (a ≤ b)
  | .greater => comparison fun a b => decide (b < a)
  | .greaterEqual => comparison fun a b => decide (b ≤ a)
  | .and | .or => fun _ _ => missing

def unary : UnaryOp → Tagged → Tagged
  | .negate, v => ofNumber? (v.number?.map fun a => -a)
  | .not, v => ofTruth? (v.truth?.map fun b => !b)

def builtin : Builtin → List Tagged → Tagged
  | .unary f, [a] => ofNumber? (do return f (← a.number?))
  | .binary f, [a, b] => ofNumber? (do return f (← a.number?) (← b.number?))
  | .quaternary f, [a, b, c, d] => ofNumber? (do return f (← a.number?) (← b.number?) (← c.number?) (← d.number?))
  | _, _ => missing

/-- The value of a kind that a value with a tag is converted to. -/
def result (k : ReturnKind) : Tagged → k.Carrier
  | number x => k.ofNumber x
  | boolean b => k.ofBool b
  | _ => k.missing

end Tagged

/-- The quantity of an object, for the arguments that are written behind its name. -/
def Accessor.read {α : Type} (x : α) (args : List Expr) : Accessor α → Tagged
  | number value => .number (value x)
  | boolean value => .boolean (value x)
  | numberByKey value =>
    match args with
    | [.literal (.string key)] => .ofNumber? (value x key)
    | _ => .missing
  | booleanByKey value =>
    match args with
    | [.literal (.string key)] => .boolean (value x key)
    | _ => .missing
  | daughter value =>
    match args with
    | [.literal (.integer i)] => .ofObject? (value x i.toNat)
    | _ => .missing

def ObjectType.read (t : ObjectType) (x : t.Record) (name : String) (args : List Expr) : Tagged :=
  match t.own.lookup name, Accessor.shared.lookup name with
  | some a, _ => a.read x args
  | none, some a => a.read (t.toParticle x) args
  | none, none => .missing

def Tagged.read (name : String) (args : List Expr) : Tagged → Tagged
  | object p =>
    match Accessor.shared.lookup name with
    | some a => a.read p args
    | none => missing
  | _ => missing

mutual

/-- **The value of a tree** for an object. -/
def Expr.run (t : ObjectType) (x : t.Record) : Expr → Tagged
  | .literal (.bool b) => .boolean b
  | .literal (.integer i) => .number (Binary.ofInt i)
  | .literal (.float y) => .number y
  | .literal (.string _) => .missing
  | .name n => t.read x n []
  | .call n args =>
    match Builtin.find? n with
    | none => t.read x n args
    | some f => .builtin f (runArgs t x args)
  | .member base n => (base.run t x).read n []
  | .memberCall base n args => (base.run t x).read n args
  | .index (.name n) i => t.read x n [i]
  | .index (.member base n) i => (base.run t x).read n [i]
  | .index _ _ => .missing
  | .binary .and l r =>
    match (l.run t x).truth? with
    | some true => .ofTruth? (r.run t x).truth?
    | some false => .boolean false
    | none => .missing
  | .binary .or l r =>
    match (l.run t x).truth? with
    | some true => .boolean true
    | some false => .ofTruth? (r.run t x).truth?
    | none => .missing
  | .binary op l r => .strict op (l.run t x) (r.run t x)
  | .unary op e => .unary op (e.run t x)
  | .conditional c l r =>
    match (c.run t x).truth? with
    | some true => l.run t x
    | some false => r.run t x
    | none => .missing

def runArgs (t : ObjectType) (x : t.Record) : List Expr → List Tagged
  | [] => []
  | e :: rest => e.run t x :: runArgs t x rest

end

/-! ## Agreement -/

/-- What a meaning comes to for an object. -/
def Meaning.valueAt {α : Type} (x : α) : Meaning α → Tagged
  | number f => .ofNumber? (f x)
  | boolean f => .ofTruth? (f x)
  | object f => .ofObject? (f x)
  | text => .missing

/-- A meaning and a value with a tag say the same about an object. -/
def Agrees {α : Type} (x : α) (m : Meaning α) (v : Tagged) : Prop :=
  match m with
  | .number f => v.number? = f x
  | .boolean f => v = .ofTruth? (f x)
  | .object f => v = .ofObject? (f x)
  | .text => v = .missing

section
variable {α β : Type} {x : α} {l r m m' : Meaning α} {v w : Tagged}

theorem agrees_number {f : α → Option Float} : Agrees x (.number f) v ↔ v.number? = f x := Iff.rfl

theorem agrees_boolean {f : α → Option Bool} : Agrees x (.boolean f) v ↔ v = .ofTruth? (f x) := Iff.rfl

theorem agrees_object {f : α → Option Particle} : Agrees x (.object f) v ↔ v = .ofObject? (f x) := Iff.rfl

theorem number?_ofNumber? (a : Option Float) : (Tagged.ofNumber? a).number? = a := by cases a <;> rfl

theorem number?_ofTruth? (b : Option Bool) : (Tagged.ofTruth? b).number? = b.map fun b => if b then 1 else 0 := by
  cases b <;> rfl

theorem truth?_ofTruth? (b : Option Bool) : (Tagged.ofTruth? b).truth? = b := by cases b <;> rfl

/-- One and zero are true and false again. -/
theorem truth_bit (b : Bool) : Binary.truth (if b then 1 else 0) = b := by cases b <;> decide

theorem bit_beq (a b : Bool) : ((if a then 1 else 0 : Float) == if b then 1 else 0) = (a == b) := by
  cases a <;> cases b <;> decide

namespace Agrees

theorem asNumber {f : α → Option Float} (h : Agrees x m v) (hf : m.asNumber = .ok f) : v.number? = f x := by
  cases m with
  | number g =>
    cases hf
    exact h
  | boolean g =>
    cases hf
    rw [agrees_boolean.1 h, number?_ofTruth?]
  | object | text => cases hf

theorem asBoolean {f : α → Option Bool} (h : Agrees x m v) (hf : m.asBoolean = .ok f) : v.truth? = f x := by
  cases m with
  | boolean g =>
    cases hf
    rw [agrees_boolean.1 h, truth?_ofTruth?]
  | number g =>
    cases hf
    show v.truth? = (g x).map Binary.truth
    rw [← agrees_number.1 h]
    cases v with
    | boolean b => exact congrArg some (truth_bit b).symm
    | number | object | missing => rfl
  | object | text => cases hf

theorem arithmetic {op : Float → Float → Float} (hl : Agrees x l v) (hr : Agrees x r w)
    (h : Meaning.arithmetic op l r = .ok m) : Agrees x m (.arithmetic op v w) := by
  simp only [Meaning.arithmetic, bind_eq_ok, pure_eq_ok] at h
  obtain ⟨f, hf, g, hg, rfl⟩ := h
  rw [agrees_number, Meaning.lift₂, ← hl.asNumber hf, ← hr.asNumber hg, Tagged.arithmetic]
  cases v.number? <;> cases w.number? <;> rfl

theorem comparison {op : Float → Float → Bool} (hl : Agrees x l v) (hr : Agrees x r w)
    (h : Meaning.comparison op l r = .ok m) : Agrees x m (.comparison op v w) := by
  simp only [Meaning.comparison, bind_eq_ok, pure_eq_ok] at h
  obtain ⟨f, hf, g, hg, rfl⟩ := h
  rw [agrees_boolean, Meaning.lift₂, ← hl.asNumber hf, ← hr.asNumber hg, Tagged.comparison]
  cases v.number? <;> cases w.number? <;> rfl

/-- Compared as numbers, truth values are equal just if they are. -/
theorem equality_eq_comparison (negate : Bool) (v w : Tagged) :
    Tagged.equality negate v w = .comparison (fun a b => (a == b) != negate) v w := by
  cases v <;> cases w <;> try rfl
  simp only [Tagged.equality, Tagged.comparison, Tagged.number?, bit_beq]

theorem equality {negate : Bool} (hl : Agrees x l v) (hr : Agrees x r w)
    (h : Meaning.equality negate l r = .ok m) : Agrees x m (.equality negate v w) := by
  unfold Meaning.equality at h
  split at h
  · rename_i f g
    cases h
    rw [agrees_boolean, agrees_boolean.1 hl, agrees_boolean.1 hr, Meaning.lift₂]
    cases f x <;> cases g x <;> rfl
  · -- Two truth values may meet here, where one of the meanings is a number.
    rw [equality_eq_comparison]
    exact hl.comparison hr h

theorem strict {op : BinaryOp} (hand : op ≠ .and) (hor : op ≠ .or) (hl : Agrees x l v) (hr : Agrees x r w)
    (h : Meaning.binary op l r = .ok m) : Agrees x m (.strict op v w) := by
  cases op with
  | add | subtract | multiply | divide | power => exact hl.arithmetic hr h
  | equal | notEqual => exact hl.equality hr h
  | less | lessEqual | greater | greaterEqual => exact hl.comparison hr h
  | and => exact absurd rfl hand
  | or => exact absurd rfl hor

theorem conjunction (hl : Agrees x l v) (hr : Agrees x r w) (h : Meaning.conjunction l r = .ok m) :
    Agrees x m (match v.truth? with
      | some true => .ofTruth? w.truth?
      | some false => .boolean false
      | none => .missing) := by
  simp only [Meaning.conjunction, bind_eq_ok, pure_eq_ok] at h
  obtain ⟨f, hf, g, hg, rfl⟩ := h
  rw [agrees_boolean, ← hl.asBoolean hf, ← hr.asBoolean hg]
  rcases v.truth? with _ | (_ | _) <;> rfl

theorem disjunction (hl : Agrees x l v) (hr : Agrees x r w) (h : Meaning.disjunction l r = .ok m) :
    Agrees x m (match v.truth? with
      | some true => .boolean true
      | some false => .ofTruth? w.truth?
      | none => .missing) := by
  simp only [Meaning.disjunction, bind_eq_ok, pure_eq_ok] at h
  obtain ⟨f, hf, g, hg, rfl⟩ := h
  rw [agrees_boolean, ← hl.asBoolean hf, ← hr.asBoolean hg]
  rcases v.truth? with _ | (_ | _) <;> rfl

theorem unary {op : UnaryOp} (hl : Agrees x l v) (h : Meaning.unary op l = .ok m) : Agrees x m (.unary op v) := by
  cases op with
  | negate =>
    simp only [Meaning.unary, bind_eq_ok, pure_eq_ok] at h
    obtain ⟨f, hf, rfl⟩ := h
    rw [agrees_number, ← hl.asNumber hf, Tagged.unary, number?_ofNumber?]
  | not =>
    simp only [Meaning.unary, bind_eq_ok, pure_eq_ok] at h
    obtain ⟨f, hf, rfl⟩ := h
    rw [agrees_boolean, ← hl.asBoolean hf, Tagged.unary]

/-- The branch that is taken keeps its own tag, whatever the type of the other. -/
theorem conditional {c : α → Option Bool} {u : Tagged} (hc : u.truth? = c x) (hl : Agrees x l v) (hr : Agrees x r w)
    (h : Meaning.conditional c l r = .ok m) :
    Agrees x m (match u.truth? with
      | some true => v
      | some false => w
      | none => .missing) := by
  rw [hc]
  unfold Meaning.conditional at h
  split at h
  · -- Both branches are truth values, and so is the conditional.
    cases h
    rw [agrees_boolean, Meaning.select]
    rcases c x with _ | (_ | _)
    · rfl
    · exact hr
    · exact hl
  · -- The conditional is a number, but a branch that is a truth value keeps its tag in the value.
    simp only [bind_eq_ok, pure_eq_ok] at h
    obtain ⟨f, hf, g, hg, rfl⟩ := h
    rw [agrees_number, Meaning.select]
    rcases c x with _ | (_ | _)
    · rfl
    · exact hr.asNumber hg
    · exact hl.asNumber hf

theorem apply {a : Accessor β} {get : α → Option β} {n : String} {args : List Expr} (h : a.apply get n args = .ok m) :
    Agrees x m (match get x with
      | some y => a.read y args
      | none => .missing) := by
  cases a with
  | number value =>
    simp only [Accessor.apply, bind_eq_ok, pure_eq_ok] at h
    obtain ⟨-, -, rfl⟩ := h
    rw [agrees_number]
    cases get x <;> rfl
  | boolean value =>
    simp only [Accessor.apply, bind_eq_ok, pure_eq_ok] at h
    obtain ⟨-, -, rfl⟩ := h
    rw [agrees_boolean]
    cases get x <;> rfl
  | numberByKey value =>
    simp only [Accessor.apply, bind_eq_ok, pure_eq_ok, keyArgument_eq_ok] at h
    obtain ⟨key, rfl, rfl⟩ := h
    rw [agrees_number]
    cases get x with
    | none => rfl
    | some y => exact number?_ofNumber? _
  | booleanByKey value =>
    simp only [Accessor.apply, bind_eq_ok, pure_eq_ok, keyArgument_eq_ok] at h
    obtain ⟨key, rfl, rfl⟩ := h
    rw [agrees_boolean]
    cases get x <;> rfl
  | daughter value =>
    simp only [Accessor.apply, bind_eq_ok, pure_eq_ok, indexArgument_eq_ok] at h
    obtain ⟨i, rfl, rfl⟩ := h
    rw [agrees_object]
    cases get x <;> rfl

theorem read_comap {a : Accessor α} {f : β → α} {y : β} {args : List Expr} :
    (a.comap f).read y args = a.read (f y) args := by
  cases a <;> rfl

theorem root {t : ObjectType} {x : t.Record} {m : Meaning t.Record} {n : String} {args : List Expr}
    (h : t.root n args = .ok m) : Agrees x m (t.read x n args) := by
  unfold ObjectType.root ObjectType.accessor? at h
  rw [ObjectType.lookup_ofCandidate] at h
  unfold ObjectType.read
  cases hown : t.own.lookup n with
  | some a =>
    rw [hown] at h
    exact apply h
  | none =>
    rw [hown] at h
    cases hshared : Accessor.shared.lookup n with
    | some a =>
      rw [hshared] at h
      have hread := apply (x := x) h
      simp only [read_comap] at hread
      exact hread
    | none =>
      rw [hshared] at h
      cases h

theorem member {n : String} {args : List Expr} (hl : Agrees x l v) (h : l.member n args = .ok m) :
    Agrees x m (v.read n args) := by
  cases l with
  | object get =>
    unfold Meaning.member at h
    rw [agrees_object.1 hl]
    cases hshared : Accessor.shared.lookup n with
    | some a =>
      rw [hshared] at h
      have hread := apply (x := x) h
      unfold Tagged.read
      rw [hshared]
      cases hget : get x with
      | none =>
        rw [hget] at hread
        exact hread
      | some p =>
        rw [hget] at hread
        exact hread
    | none =>
      rw [hshared] at h
      cases h
  | number | boolean | text => cases h

theorem indexed {n : String} (hl : Agrees x l v) (h : l.indexed n = .ok m) : Agrees x m v := by
  cases l with
  | object get =>
    cases h
    exact hl
  | number | boolean | text => cases h

/-- A builtin function makes the same of its arguments as numbers and as values with tags. -/
theorem call {f : Builtin} {n : String} {numbers : List (α → Option Float)} {values : List Tagged}
    (harity : numbers.length = f.arity) (hvalues : values.map Tagged.number? = numbers.map (· x))
    (h : f.call n numbers = .ok m) : Agrees x m (.builtin f values) := by
  match f, numbers, harity with
  | .unary f, [a], _ =>
    obtain ⟨v, rfl, hv⟩ := List.map_eq_singleton_iff.1 hvalues
    cases h
    simp only [Tagged.builtin, agrees_number, number?_ofNumber?, hv]
  | .binary f, [a, b], _ =>
    obtain ⟨v, _, rfl, hv, hvalues⟩ := List.map_eq_cons_iff.1 hvalues
    obtain ⟨w, rfl, hw⟩ := List.map_eq_singleton_iff.1 hvalues
    cases h
    simp only [Tagged.builtin, agrees_number, number?_ofNumber?, hv, hw]
  | .quaternary f, [a, b, c, d], _ =>
    obtain ⟨u, _, rfl, hu, hvalues⟩ := List.map_eq_cons_iff.1 hvalues
    obtain ⟨v, _, rfl, hv, hvalues⟩ := List.map_eq_cons_iff.1 hvalues
    obtain ⟨w, _, rfl, hw, hvalues⟩ := List.map_eq_cons_iff.1 hvalues
    obtain ⟨z, rfl, hz⟩ := List.map_eq_singleton_iff.1 hvalues
    cases h
    simp only [Tagged.builtin, agrees_number, number?_ofNumber?, hu, hv, hw, hz]

theorem binary {op : BinaryOp} {t : ObjectType} {x : t.Record} {e e' : Expr} {l r m : Meaning t.Record}
    (hl : Agrees x l (e.run t x)) (hr : Agrees x r (e'.run t x)) (h : Meaning.binary op l r = .ok m) :
    Agrees x m ((Expr.binary op e e').run t x) := by
  by_cases hand : op = .and
  · subst hand
    exact hl.conjunction hr h
  · by_cases hor : op = .or
    · subst hor
      exact hl.disjunction hr h
    · rw [Expr.run]
      · exact hl.strict hand hor hr h
      · exact hand
      · exact hor

end Agrees

section
variable {t : ObjectType} {x : t.Record}

/-- The arguments of a builtin function as numbers are those of their values. -/
theorem numbers_runArgs : ∀ {args : List Expr} {numbers},
    (∀ a ∈ args, ∀ m, a.bind t = .ok m → Agrees x m (a.run t x)) → Expr.bindNumbers t args = .ok numbers →
      (runArgs t x args).map Tagged.number? = numbers.map (· x)
  | [], _, _, h => by
    cases h
    rfl
  | a :: rest, _, hargs, h => by
    simp only [Expr.bindNumbers, bind_eq_ok, pure_eq_ok] at h
    obtain ⟨m, hm, f, hf, numbers, hnumbers, rfl⟩ := h
    rw [runArgs, List.map_cons, List.map_cons, (hargs a List.mem_cons_self m hm).asNumber hf,
      numbers_runArgs (fun b hb => hargs b (List.mem_cons_of_mem a hb)) hnumbers]

/-- **A meaning stands for the value of its tree.** -/
theorem agrees_bind (x : t.Record) (e : Expr) : ∀ m, e.bind t = .ok m → Agrees x m (e.run t x) := by
  induction e using Expr.bindInduction with
  | literal l =>
    intro m h
    cases l <;> (cases h; rfl)
  | name n => exact fun m h => Agrees.root h
  | call n args hn =>
    intro m h
    rw [bind_call hn] at h
    rw [Expr.run, hn]
    exact Agrees.root h
  | builtin n f args hn harity ih =>
    intro m h
    rw [Expr.bind_builtin hn harity] at h
    obtain ⟨numbers, hnumbers, h⟩ := bind_eq_ok.1 h
    rw [Expr.run, hn]
    exact .call ((Expr.length_bindNumbers hnumbers).trans harity) (numbers_runArgs ih hnumbers) h
  | misfit n f args hn harity =>
    intro m h
    rw [bind_of_arity_ne hn harity] at h
    cases h
  | member base n ih =>
    intro m h
    obtain ⟨mb, hb, h⟩ := bind_eq_ok.1 h
    exact (ih _ hb).member h
  | memberCall base n args ih =>
    intro m h
    obtain ⟨mb, hb, h⟩ := bind_eq_ok.1 h
    exact (ih _ hb).member h
  | indexName n i =>
    intro m h
    obtain ⟨mr, hr, h⟩ := bind_eq_ok.1 h
    exact (Agrees.root hr).indexed h
  | indexMember base n i ih =>
    intro m h
    simp only [Expr.bind, bind_eq_ok] at h
    obtain ⟨mb, hb, mm, hm, h⟩ := h
    exact ((ih _ hb).member hm).indexed h
  | indexOther base i hname hmember =>
    intro m h
    rw [bind_index_error hname hmember] at h
    cases h
  | binary op l r ihl ihr =>
    intro m h
    simp only [Expr.bind, bind_eq_ok] at h
    obtain ⟨ml, hl, mr, hr, h⟩ := h
    exact (ihl _ hl).binary (ihr _ hr) h
  | unary op e ih =>
    intro m h
    obtain ⟨me, he, h⟩ := bind_eq_ok.1 h
    exact (ih _ he).unary h
  | conditional c l r ihc ihl ihr =>
    intro m h
    simp only [Expr.bind, bind_eq_ok] at h
    obtain ⟨mc, hc, fc, hfc, ml, hl, mr, hr, h⟩ := h
    exact .conditional ((ihc _ hc).asBoolean hfc) (ihl _ hl) (ihr _ hr) h

end

/-- One and zero are converted to a kind as true and false are. -/
theorem ofNumber_bit (k : ReturnKind) (b : Bool) : k.ofNumber (if b then 1 else 0) = k.ofBool b := by
  cases k <;> cases b <;> decide +kernel

theorem Agrees.result {k : ReturnKind} {f : α → k.Carrier} (h : Agrees x m v) (hf : m.result k = .ok f) :
    f x = v.result k := by
  cases m with
  | number g =>
    cases hf
    show ((g x).map k.ofNumber).getD k.missing = _
    rw [← agrees_number.1 h]
    cases v with
    | boolean b => exact ofNumber_bit k b
    | number | object | missing => rfl
  | boolean g =>
    cases hf
    rw [agrees_boolean.1 h]
    cases hg : g x with
    | none => simp only [hg]; rfl
    | some b => simp only [hg]; rfl
  | object | text => cases hf

/-- **What a text compiles to is what its tree runs to**, whatever the type of the objects and the kind of values. -/
theorem evaluate_eq_run {c : CompilerConfig} {k : ReturnKind} {t : ObjectType} {source : String} {f : Compiled k t}
    (h : c.compile k t source = .ok f) :
    ∃ e, Expr.parse source c.maxDepth = .ok e ∧ ∀ x, f.evaluate x = (e.run t x).result k := by
  obtain ⟨-, e, hparse, hresults⟩ := compile_eq_ok.1 h
  obtain ⟨m, hm, hf⟩ := results_eq_ok.1 hresults
  exact ⟨e, hparse, fun x => (agrees_bind x e m hm).result hf⟩

/-- A conditional with branches of both types. -/
theorem evaluate_mixed : ∃ f : Compiled .int .muon,
    (⟨8⟩ : CompilerConfig).compile .int .muon "isPFMuon ? true : 2" = .ok f ∧
    ∃ e, Expr.parse "isPFMuon ? true : 2" 8 = .ok e ∧ ∀ x, f.evaluate x = (e.run .muon x).result .int := by
  have hparse : Expr.parse "isPFMuon ? true : 2" 8 =
      .ok (.conditional (.name "isPFMuon") (.literal (.bool true)) (.literal (.integer 2))) := by cbv
  have hcompile : (⟨8⟩ : CompilerConfig).compile .int .muon "isPFMuon ? true : 2" = .ok ⟨_, _⟩ :=
    compile_eq_ok.2 ⟨rfl, _, hparse, rfl⟩
  exact ⟨_, hcompile, evaluate_eq_run hcompile⟩

end
end FlatNtuple
