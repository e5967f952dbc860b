import FlatNtuple.Proofs.Meaning.Builtin
/-!
# Types of expressions

`HasType` says which trees are well typed over the accessors of an object type, without a word about what they mean.
`typed_bind` shows that `Expr.bind` gives a meaning to just these trees, and that its type is theirs; so a tree compiles
if it is a number or a truth value, whatever kind of values is asked for.
-/
namespace FlatNtuple

/-- A number or a truth value. -/
def ValueType.Scalar (τ : ValueType) : Prop := τ = .number ∨ τ = .boolean

/-- The arguments that an accessor takes and the type of what it yields then. -/
inductive Accessor.Yields {α : Type} : Accessor α → List Expr → ValueType → Prop
  | number (value : α → Float) : Yields (.number value) [] .number
  | boolean (value : α → Bool) : Yields (.boolean value) [] .boolean
  | numberByKey (value : α → String → Option Float) (key : String) :
    Yields (.numberByKey value) [.literal (.string key)] .number
  | booleanByKey (value : α → String → Bool) (key : String) :
    Yields (.booleanByKey value) [.literal (.string key)] .boolean
  | daughter (value : α → Nat → Option Particle) (i : Int) (h : 0 ≤ i) :
    Yields (.daughter value) [.literal (.integer i)] .object

/-- A name stands for the type's own accessor or else for the shared one. -/
inductive ObjectType.Yields (t : ObjectType) (n : String) (args : List Expr) (τ : ValueType) : Prop
  | own {a : Accessor t.Record} (h : t.own.lookup n = some a) (ha : a.Yields args τ)
  | shared {a : Accessor Particle} (hown : t.own.lookup n = none) (h : Accessor.shared.lookup n = some a)
    (ha : a.Yields args τ)

/-- Arithmetic makes numbers; comparisons and logic make truth values. -/
def BinaryOp.resultType : BinaryOp → ValueType
  | .add | .subtract | .multiply | .divide | .power => .number
  | .equal | .notEqual | .less | .lessEqual | .greater | .greaterEqual | .and | .or => .boolean

def UnaryOp.resultType : UnaryOp → ValueType
  | .negate => .number
  | .not => .boolean

theorem BinaryOp.scalar_resultType (op : BinaryOp) : op.resultType.Scalar := by
  cases op <;> simp [resultType, ValueType.Scalar]

theorem UnaryOp.scalar_resultType (op : UnaryOp) : op.resultType.Scalar := by
  cases op <;> simp [resultType, ValueType.Scalar]

mutual

/-- **The type of a tree** over objects of type `t`. -/
inductive HasType (t : ObjectType) : Expr → ValueType → Prop
  | integer (i : Int) : HasType t (.literal (.integer i)) .number
  | float (x : Float) : HasType t (.literal (.float x)) .number
  | bool (b : Bool) : HasType t (.literal (.bool b)) .boolean
  | string (s : String) : HasType t (.literal (.string s)) .text
  | name {n : String} {τ : ValueType} (h : t.Yields n [] τ) : HasType t (.name n) τ
  | call {n : String} {args : List Expr} {τ : ValueType} (hn : Builtin.find? n = none) (h : t.Yields n args τ) :
    HasType t (.call n args) τ
  | builtin {n : String} {f : Builtin} {args : List Expr} (hn : Builtin.find? n = some f)
    (harity : args.length = f.arity) (hargs : ∀ a ∈ args, IsScalar t a) : HasType t (.call n args) .number
  | member {base : Expr} {n : String} {a : Accessor Particle} {τ : ValueType} (hbase : HasType t base .object)
    (hn : Accessor.shared.lookup n = some a) (h : a.Yields [] τ) : HasType t (.member base n) τ
  | memberCall {base : Expr} {n : String} {args : List Expr} {a : Accessor Particle} {τ : ValueType}
    (hbase : HasType t base .object) (hn : Accessor.shared.lookup n = some a) (h : a.Yields args τ) :
    HasType t (.memberCall base n args) τ
  | indexName {n : String} {i : Expr} (h : HasType t (.call n [i]) .object) : HasType t (.index (.name n) i) .object
  | indexMember {base : Expr} {n : String} {i : Expr} (h : HasType t (.memberCall base n [i]) .object) :
    HasType t (.index (.member base n) i) .object
  | binary (op : BinaryOp) {l r : Expr} (hl : IsScalar t l) (hr : IsScalar t r) :
    HasType t (.binary op l r) op.resultType
  | unary (op : UnaryOp) {e : Expr} (h : IsScalar t e) : HasType t (.unary op e) op.resultType
  | conditional {c l r : Expr} {σ τ : ValueType} (hc : IsScalar t c) (hl : HasType t l σ) (hσ : σ.Scalar)
    (hr : HasType t r τ) (hτ : τ.Scalar) :
    HasType t (.conditional c l r) (if σ = .boolean ∧ τ = .boolean then .boolean else .number)

inductive IsScalar (t : ObjectType) : Expr → Prop
  | intro {e : Expr} {τ : ValueType} (h : HasType t e τ) (hτ : τ.Scalar) : IsScalar t e

end

/-! ## Meanings of a type -/

/-- A tree or a part of it has got a meaning, of the given type. -/
def Typed {α : Type} (r : Except Fault (Meaning α)) (τ : ValueType) : Prop := ∃ m, r = .ok m ∧ m.type = τ

section
variable {α β : Type} {τ : ValueType}

theorem typed_ok {m : Meaning α} : Typed (.ok m) τ ↔ m.type = τ := by simp [Typed]

theorem typed_pure {m : Meaning α} : Typed (pure m) τ ↔ m.type = τ := typed_ok

theorem typed_error {f : Fault} : Typed (.error f : Except Fault (Meaning α)) τ ↔ False := by simp [Typed]

theorem typed_bind_iff {γ : Type} {x : Except Fault γ} {f : γ → Except Fault (Meaning α)} :
    Typed (x >>= f) τ ↔ ∃ a, x = .ok a ∧ Typed (f a) τ := by
  simp only [Typed, bind_eq_ok]
  constructor
  · rintro ⟨m, ⟨a, ha, hm⟩, hτ⟩; exact ⟨a, ha, m, hm, hτ⟩
  · rintro ⟨a, ha, m, hm, hτ⟩; exact ⟨m, ⟨a, ha, hm⟩, hτ⟩

theorem exists_asNumber {m : Meaning α} : (∃ f, m.asNumber = .ok f) ↔ m.type.Scalar := by
  cases m <;> simp [Meaning.asNumber, Meaning.type, ValueType.Scalar]

theorem exists_asBoolean {m : Meaning α} : (∃ f, m.asBoolean = .ok f) ↔ m.type.Scalar := by
  cases m <;> simp [Meaning.asBoolean, Meaning.type, ValueType.Scalar]

theorem exists_result {k : ReturnKind} {m : Meaning α} : (∃ f, m.result k = .ok f) ↔ m.type.Scalar := by
  cases m <;> simp [Meaning.result, Meaning.type, ValueType.Scalar]

/-- Both operands are converted, and the result is of one type. -/
theorem typed_of_operands {γ δ : Type} {x : Except Fault γ} {y : Except Fault δ} {f : γ → δ → Meaning α}
    {σ : ValueType} (hf : ∀ a b, (f a b).type = σ) :
    Typed (do let a ← x; let b ← y; return f a b) τ ↔ (∃ a, x = .ok a) ∧ (∃ b, y = .ok b) ∧ τ = σ := by
  simp only [typed_bind_iff, typed_pure, hf]
  constructor
  · rintro ⟨a, ha, b, hb, rfl⟩; exact ⟨⟨a, ha⟩, ⟨b, hb⟩, rfl⟩
  · rintro ⟨⟨a, ha⟩, ⟨b, hb⟩, rfl⟩; exact ⟨a, ha, b, hb, rfl⟩

/-- One operand is converted, and the result is of one type. -/
theorem typed_of_operand {γ : Type} {x : Except Fault γ} {f : γ → Meaning α} {σ : ValueType}
    (hf : ∀ a, (f a).type = σ) : Typed (do let a ← x; return f a) τ ↔ (∃ a, x = .ok a) ∧ τ = σ := by
  simp only [typed_bind_iff, typed_pure, hf]
  constructor
  · rintro ⟨a, ha, rfl⟩; exact ⟨⟨a, ha⟩, rfl⟩
  · rintro ⟨⟨a, ha⟩, rfl⟩; exact ⟨a, ha, rfl⟩

theorem typed_comparison {op : Float → Float → Bool} {l r : Meaning α} :
    Typed (Meaning.comparison op l r) τ ↔ l.type.Scalar ∧ r.type.Scalar ∧ τ = .boolean := by
  rw [← exists_asNumber, ← exists_asNumber]
  exact typed_of_operands fun _ _ => rfl

theorem typed_arithmetic {op : Float → Float → Float} {l r : Meaning α} :
    Typed (Meaning.arithmetic op l r) τ ↔ l.type.Scalar ∧ r.type.Scalar ∧ τ = .number := by
  rw [← exists_asNumber, ← exists_asNumber]
  exact typed_of_operands fun _ _ => rfl

theorem typed_equality {negate : Bool} {l r : Meaning α} :
    Typed (Meaning.equality negate l r) τ ↔ l.type.Scalar ∧ r.type.Scalar ∧ τ = .boolean := by
  unfold Meaning.equality
  split
  · rw [typed_ok]
    exact ⟨fun h => ⟨.inr rfl, .inr rfl, h.symm⟩, fun h => h.2.2.symm⟩
  · exact typed_comparison

theorem typed_binary {op : BinaryOp} {l r : Meaning α} :
    Typed (Meaning.binary op l r) τ ↔ l.type.Scalar ∧ r.type.Scalar ∧ τ = op.resultType := by
  cases op with
  | add | subtract | multiply | divide | power => exact typed_arithmetic
  | equal | notEqual => exact typed_equality
  | less | lessEqual | greater | greaterEqual => exact typed_comparison
  | and | or =>
    rw [← exists_asBoolean, ← exists_asBoolean]
    exact typed_of_operands fun _ _ => rfl

theorem typed_unary {op : UnaryOp} {m : Meaning α} :
    Typed (Meaning.unary op m) τ ↔ m.type.Scalar ∧ τ = op.resultType := by
  cases op with
  | negate =>
    rw [← exists_asNumber]
    exact typed_of_operand fun _ => rfl
  | not =>
    rw [← exists_asBoolean]
    exact typed_of_operand fun _ => rfl

theorem typed_conditional {c : α → Option Bool} {l r : Meaning α} :
    Typed (Meaning.conditional c l r) τ ↔ l.type.Scalar ∧ r.type.Scalar ∧
      τ = if l.type = .boolean ∧ r.type = .boolean then .boolean else .number := by
  unfold Meaning.conditional
  split
  · rw [typed_ok]
    exact ⟨fun h => ⟨.inr rfl, .inr rfl, h.symm⟩, fun h => h.2.2.symm⟩
  · rename_i hne
    have hif : ¬ (l.type = .boolean ∧ r.type = .boolean) := by
      rintro ⟨hl, hr⟩
      cases l <;> cases hl
      cases r <;> cases hr
      exact hne _ _ rfl rfl
    rw [if_neg hif, ← exists_asNumber, ← exists_asNumber]
    exact typed_of_operands fun _ _ => rfl

theorem typed_indexed {n : String} {m : Meaning α} : Typed (m.indexed n) τ ↔ m.type = .object ∧ τ = .object := by
  cases m <;> simp [Meaning.indexed, Meaning.type, typed_ok, typed_error, eq_comm]

/-! ## Accessors -/

theorem typed_apply {a : Accessor α} {get : β → Option α} {n : String} {args : List Expr} :
    Typed (a.apply get n args) τ ↔ a.Yields args τ := by
  cases a with
  | number value =>
    simp only [Accessor.apply, typed_bind_iff, typed_pure, noArguments_eq_ok]
    constructor
    · rintro ⟨-, rfl, rfl⟩; exact .number value
    · rintro ⟨⟩; exact ⟨(), rfl, rfl⟩
  | boolean value =>
    simp only [Accessor.apply, typed_bind_iff, typed_pure, noArguments_eq_ok]
    constructor
    · rintro ⟨-, rfl, rfl⟩; exact .boolean value
    · rintro ⟨⟩; exact ⟨(), rfl, rfl⟩
  | numberByKey value =>
    simp only [Accessor.apply, typed_bind_iff, typed_pure, keyArgument_eq_ok]
    constructor
    · rintro ⟨key, rfl, rfl⟩; exact .numberByKey value key
    · rintro ⟨⟩; exact ⟨_, rfl, rfl⟩
  | booleanByKey value =>
    simp only [Accessor.apply, typed_bind_iff, typed_pure, keyArgument_eq_ok]
    constructor
    · rintro ⟨key, rfl, rfl⟩; exact .booleanByKey value key
    · rintro ⟨⟩; exact ⟨_, rfl, rfl⟩
  | daughter value =>
    simp only [Accessor.apply, typed_bind_iff, typed_pure, indexArgument_eq_ok]
    constructor
    · rintro ⟨i, rfl, rfl⟩; exact .daughter value i (Int.natCast_nonneg i)
    · intro h
      cases h with
      | daughter _ i hi => exact ⟨i.toNat, by rw [Int.toNat_of_nonneg hi], rfl⟩

theorem yields_comap {a : Accessor α} {f : β → α} {args : List Expr} :
    (a.comap f).Yields args τ ↔ a.Yields args τ := by
  have happly {γ : Type} (b : Accessor γ) : b.Yields args τ ↔ Typed (b.apply some "" args) τ := typed_apply.symm
  rw [happly, happly]
  cases a <;> simp only [Accessor.comap, Accessor.apply, typed_bind_iff, typed_pure, Meaning.type]

theorem typed_root {t : ObjectType} {n : String} {args : List Expr} :
    Typed (t.root n args) τ ↔ t.Yields n args τ := by
  unfold ObjectType.root ObjectType.accessor?
  rw [ObjectType.lookup_ofCandidate]
  cases hown : t.own.lookup n with
  | some a =>
    rw [typed_apply]
    constructor
    · exact .own hown
    · rintro (⟨h, ha⟩ | ⟨h, _, _⟩)
      · cases hown.symm.trans h; exact ha
      · cases hown.symm.trans h
  | none =>
    cases hshared : Accessor.shared.lookup n with
    | some a =>
      simp only [Option.map_some, typed_apply, yields_comap]
      constructor
      · exact .shared hown hshared
      · rintro (⟨h, _⟩ | ⟨_, h, ha⟩)
        · cases hown.symm.trans h
        · cases hshared.symm.trans h; exact ha
    | none =>
      simp only [Option.map_none, typed_error, false_iff]
      rintro (⟨h, _⟩ | ⟨_, h, _⟩)
      · cases hown.symm.trans h
      · cases hshared.symm.trans h

theorem typed_member {m : Meaning α} {n : String} {args : List Expr} :
    Typed (m.member n args) τ ↔ m.type = .object ∧ ∃ a, Accessor.shared.lookup n = some a ∧ a.Yields args τ := by
  cases m with
  | object get =>
    unfold Meaning.member
    cases hshared : Accessor.shared.lookup n with
    | some a => simp [typed_apply, Meaning.type]
    | none => simp [typed_error]
  | number | boolean | text => simp [Meaning.member, typed_error, Meaning.type]

theorem mem_of_lookup {γ : Type} {l : List (String × γ)} {n : String} {a : γ} (h : l.lookup n = some a) :
    (n, a) ∈ l := by
  obtain ⟨l₁, l₂, rfl, -⟩ := List.lookup_eq_some_iff.1 h
  exact List.mem_append_right l₁ List.mem_cons_self

/-- The accessors that only a type has are numbers and truth values without arguments. -/
theorem own_plain {t : ObjectType} {n : String} {a : Accessor t.Record} (h : t.own.lookup n = some a) :
    (∃ value, a = .number value) ∨ ∃ value, a = .boolean value := by
  have hplain : ∀ e ∈ t.own, (∃ value, e.2 = .number value) ∨ ∃ value, e.2 = .boolean value := by
    cases t <;> simp [ObjectType.own, Accessor.ofElectron, Accessor.ofMuon]
  exact hplain _ (mem_of_lookup h)

/-- Only daughters are objects, and they are no builtin. -/
theorem find?_eq_none_of_yields {t : ObjectType} {n : String} {args : List Expr} (h : t.Yields n args .object) :
    Builtin.find? n = none := by
  suffices hn : n = "daughter" by rw [hn]; rfl
  rcases h with ⟨h, ha⟩ | ⟨-, h, ha⟩
  · cases ha with
    | daughter value i hi =>
      have hmem := mem_of_lookup h
      cases t <;> simp [ObjectType.own, Accessor.ofElectron, Accessor.ofMuon] at hmem
  · cases ha with
    | daughter value i hi =>
      have hmem := mem_of_lookup h
      simp only [Accessor.shared, Accessor.ofCandidate, List.mem_cons, Prod.mk.injEq, reduceCtorEq, and_false, false_or, or_false,
        List.not_mem_nil] at hmem
      exact hmem.1

/-! ## Trees -/

variable {t : ObjectType}

theorem hasType_call {n : String} {args : List Expr} {τ : ValueType} (hn : Builtin.find? n = none) :
    HasType t (.call n args) τ ↔ t.Yields n args τ := by
  constructor
  · intro h
    cases h with
    | call _ h => exact h
    | builtin hsome _ _ => cases hn.symm.trans hsome
  · exact .call hn

theorem hasType_builtin {n : String} {f : Builtin} {args : List Expr} {τ : ValueType}
    (hn : Builtin.find? n = some f) :
    HasType t (.call n args) τ ↔ args.length = f.arity ∧ (∀ a ∈ args, IsScalar t a) ∧ τ = .number := by
  constructor
  · intro h
    cases h with
    | call hnone _ => cases hn.symm.trans hnone
    | builtin hsome harity hargs =>
      cases hn.symm.trans hsome
      exact ⟨harity, hargs, rfl⟩
  · rintro ⟨harity, hargs, rfl⟩
    exact .builtin hn harity hargs

theorem isScalar_iff {e : Expr} : IsScalar t e ↔ HasType t e .number ∨ HasType t e .boolean := by
  constructor
  · rintro ⟨h, rfl | rfl⟩
    · exact .inl h
    · exact .inr h
  · rintro (h | h)
    · exact .intro h (.inl rfl)
    · exact .intro h (.inr rfl)

/-! ### Typing by constructor -/

/-- `bind` finds the types that a tree has, and no other. -/
def Typable (t : ObjectType) (e : Expr) : Prop := ∀ τ, Typed (e.bind t) τ ↔ HasType t e τ

variable {n : String} {args : List Expr} {e base c l r : Expr}

/-- The meaning of a part is a scalar just if the part is. -/
theorem Typable.isScalar_iff {m : Meaning t.Record} (h : Typable t e) (hm : e.bind t = .ok m) :
    IsScalar t e ↔ m.type.Scalar := by
  constructor
  · rintro ⟨he, hτ⟩
    obtain ⟨m', hm', rfl⟩ := (h _).2 he
    cases hm.symm.trans hm'
    exact hτ
  · exact .intro ((h _).1 ⟨m, hm, rfl⟩)

theorem Typable.exists_of_isScalar (h : Typable t e) (he : IsScalar t e) : ∃ m, e.bind t = .ok m ∧ m.type.Scalar := by
  obtain ⟨he, hτ⟩ := he
  obtain ⟨m, hm, rfl⟩ := (h _).2 he
  exact ⟨m, hm, hτ⟩

theorem typable_literal (l : Literal) : Typable t (.literal l) := by
  intro τ
  rw [Expr.bind, typed_ok]
  cases l with
  | bool b => exact ⟨by rintro rfl; exact .bool b, by rintro ⟨⟩; rfl⟩
  | integer i => exact ⟨by rintro rfl; exact .integer i, by rintro ⟨⟩; rfl⟩
  | float x => exact ⟨by rintro rfl; exact .float x, by rintro ⟨⟩; rfl⟩
  | string s => exact ⟨by rintro rfl; exact .string s, by rintro ⟨⟩; rfl⟩

theorem typable_name : Typable t (.name n) := by
  intro τ
  rw [Expr.bind, typed_root]
  exact ⟨.name, by rintro ⟨⟩; assumption⟩

theorem typable_call (hn : Builtin.find? n = none) : Typable t (.call n args) := by
  intro τ
  rw [bind_call hn, typed_root, hasType_call hn]

/-- The arguments of a builtin function are numbers just if all of them are scalars. -/
theorem exists_bindNumbers_iff : ∀ {args : List Expr}, (∀ a ∈ args, Typable t a) →
    ((∃ numbers, Expr.bindNumbers t args = .ok numbers) ↔ ∀ a ∈ args, IsScalar t a)
  | [], _ => iff_of_true ⟨_, rfl⟩ (List.forall_mem_nil _)
  | a :: rest, h => by
    have ha := h a List.mem_cons_self
    have hrest := exists_bindNumbers_iff fun b hb => h b (List.mem_cons_of_mem a hb)
    rw [List.forall_mem_cons, ← hrest]
    simp only [Expr.bindNumbers, bind_eq_ok, pure_eq_ok]
    constructor
    · rintro ⟨_, m, hm, f, hf, numbers, hnumbers, rfl⟩
      exact ⟨(ha.isScalar_iff hm).2 (exists_asNumber.1 ⟨f, hf⟩), numbers, hnumbers⟩
    · rintro ⟨hscalar, numbers, hnumbers⟩
      obtain ⟨m, hm, hτ⟩ := ha.exists_of_isScalar hscalar
      obtain ⟨f, hf⟩ := exists_asNumber.2 hτ
      exact ⟨_, m, hm, f, hf, numbers, hnumbers, rfl⟩

theorem typable_builtin {f : Builtin} (hn : Builtin.find? n = some f) (harity : args.length = f.arity)
    (h : ∀ a ∈ args, Typable t a) : Typable t (.call n args) := by
  intro τ
  rw [Expr.bind_builtin hn harity, hasType_builtin hn, typed_bind_iff, ← exists_bindNumbers_iff h]
  have hcall {numbers : List (t.Record → Option Float)} (hnumbers : Expr.bindNumbers t args = .ok numbers) :
      Typed (f.call n numbers) τ ↔ τ = .number := by
    obtain ⟨g, hg, -⟩ := Builtin.call_of_arity n ((Expr.length_bindNumbers hnumbers).trans harity)
    rw [hg, typed_ok, Meaning.type, eq_comm]
  constructor
  · rintro ⟨numbers, hnumbers, hτ⟩
    exact ⟨harity, ⟨numbers, hnumbers⟩, (hcall hnumbers).1 hτ⟩
  · rintro ⟨-, ⟨numbers, hnumbers⟩, hτ⟩
    exact ⟨numbers, hnumbers, (hcall hnumbers).2 hτ⟩

theorem typable_misfit {f : Builtin} (hn : Builtin.find? n = some f) (harity : args.length ≠ f.arity) :
    Typable t (.call n args) := by
  intro τ
  rw [bind_of_arity_ne hn harity, typed_error, hasType_builtin hn, false_iff]
  exact fun h => harity h.1

theorem Typable.memberCall (h : Typable t base) (n : String) (args : List Expr) : Typable t (.memberCall base n args) := by
  intro τ
  simp only [Expr.bind, typed_bind_iff, typed_member]
  constructor
  · rintro ⟨m, hm, hobject, a, hn, ha⟩
    exact .memberCall ((h _).1 ⟨m, hm, hobject⟩) hn ha
  · intro htype
    cases htype with
    | memberCall hbase hn ha =>
      obtain ⟨m, hm, hobject⟩ := (h _).2 hbase
      exact ⟨m, hm, hobject, _, hn, ha⟩

/-- A member without arguments is one that is called without. -/
theorem Typable.member (h : Typable t base) (n : String) : Typable t (.member base n) := by
  intro τ
  refine (h.memberCall n [] τ).trans ⟨?_, ?_⟩
  · rintro ⟨⟩
    exact .member ‹_› ‹_› ‹_›
  · rintro ⟨⟩
    exact .memberCall ‹_› ‹_› ‹_›

/-- What is indexed is called with the index, and has to be an object. -/
theorem typable_indexName (i : Expr) : Typable t (.index (.name n) i) := by
  intro τ
  simp only [Expr.bind, typed_bind_iff, typed_indexed]
  constructor
  · rintro ⟨m, hm, hobject, rfl⟩
    have h := typed_root.1 ⟨m, hm, hobject⟩
    exact .indexName (.call (find?_eq_none_of_yields h) h)
  · intro h
    cases h with
    | indexName h =>
      cases h with
      | call _ h =>
        obtain ⟨m, hm, hobject⟩ := typed_root.2 h
        exact ⟨m, hm, hobject, rfl⟩

theorem Typable.indexMember (h : Typable t base) (n : String) (i : Expr) : Typable t (.index (.member base n) i) := by
  intro τ
  have hcall := h.memberCall n [i] .object
  simp only [Expr.bind, typed_bind_iff, typed_indexed] at hcall ⊢
  constructor
  · rintro ⟨m, hm, m', hm', hobject, rfl⟩
    exact .indexMember (hcall.1 ⟨m, hm, m', hm', hobject⟩)
  · intro htype
    cases htype with
    | indexMember htype =>
      obtain ⟨m, hm, m', hm', hobject⟩ := hcall.2 htype
      exact ⟨m, hm, m', hm', hobject, rfl⟩

theorem typable_indexOther {i : Expr} (hname : ∀ n, base ≠ .name n) (hmember : ∀ base' n, base ≠ .member base' n) :
    Typable t (.index base i) := by
  intro τ
  rw [bind_index_error hname hmember, typed_error, false_iff]
  intro h
  cases h with
  | indexName _ => exact hname _ rfl
  | indexMember _ => exact hmember _ _ rfl

theorem Typable.binary (op : BinaryOp) (hl : Typable t l) (hr : Typable t r) : Typable t (.binary op l r) := by
  intro τ
  simp only [Expr.bind, typed_bind_iff, typed_binary]
  constructor
  · rintro ⟨m, hm, m', hm', hσ, hτ, rfl⟩
    exact .binary op ((hl.isScalar_iff hm).2 hσ) ((hr.isScalar_iff hm').2 hτ)
  · intro h
    cases h with
    | binary _ hlscalar hrscalar =>
      obtain ⟨m, hm, hσ⟩ := hl.exists_of_isScalar hlscalar
      obtain ⟨m', hm', hτ⟩ := hr.exists_of_isScalar hrscalar
      exact ⟨m, hm, m', hm', hσ, hτ, rfl⟩

theorem Typable.unary (op : UnaryOp) (h : Typable t e) : Typable t (.unary op e) := by
  intro τ
  simp only [Expr.bind, typed_bind_iff, typed_unary]
  constructor
  · rintro ⟨m, hm, hσ, rfl⟩
    exact .unary op ((h.isScalar_iff hm).2 hσ)
  · intro htype
    cases htype with
    | unary _ hscalar =>
      obtain ⟨m, hm, hσ⟩ := h.exists_of_isScalar hscalar
      exact ⟨m, hm, hσ, rfl⟩

theorem Typable.conditional (hc : Typable t c) (hl : Typable t l) (hr : Typable t r) :
    Typable t (.conditional c l r) := by
  intro τ
  simp only [Expr.bind, typed_bind_iff, typed_conditional]
  constructor
  · rintro ⟨mc, hmc, f, hf, m, hm, m', hm', hσ, hτ, rfl⟩
    have hscalar := (hc.isScalar_iff hmc).2 (exists_asBoolean.1 ⟨f, hf⟩)
    exact .conditional hscalar ((hl _).1 ⟨m, hm, rfl⟩) hσ ((hr _).1 ⟨m', hm', rfl⟩) hτ
  · intro h
    cases h with
    | conditional hscalar hltype hσ hrtype hτ =>
      obtain ⟨mc, hmc, hmcscalar⟩ := hc.exists_of_isScalar hscalar
      obtain ⟨f, hf⟩ := exists_asBoolean.2 hmcscalar
      obtain ⟨m, hm, rfl⟩ := (hl _).2 hltype
      obtain ⟨m', hm', rfl⟩ := (hr _).2 hrtype
      exact ⟨mc, hmc, f, hf, m, hm, m', hm', hσ, hτ, rfl⟩

/-- **A tree has a meaning just if it is well typed**, and the meaning is of its type. -/
theorem typed_bind (e : Expr) : ∀ τ, Typed (e.bind t) τ ↔ HasType t e τ := by
  change Typable t e
  induction e using Expr.bindInduction with
  | literal l => exact typable_literal l
  | name n => exact typable_name
  | call n args hn => exact typable_call hn
  | builtin n f args hn harity ih => exact typable_builtin hn harity ih
  | misfit n f args hn harity => exact typable_misfit hn harity
  | member base n ih => exact ih.member n
  | memberCall base n args ih => exact ih.memberCall n args
  | indexName n i => exact typable_indexName i
  | indexMember base n i ih => exact ih.indexMember n i
  | indexOther base i hname hmember => exact typable_indexOther hname hmember
  | binary op l r ihl ihr => exact ihl.binary op ihr
  | unary op e ih => exact ih.unary op
  | conditional c l r ihc ihl ihr => exact ihc.conditional ihl ihr

/-- A tree has one type at most. -/
theorem HasType.unique {e : Expr} {σ τ : ValueType} (hσ : HasType t e σ) (hτ : HasType t e τ) : σ = τ := by
  obtain ⟨m, hm, rfl⟩ := (typed_bind e σ).2 hσ
  obtain ⟨m', hm', rfl⟩ := (typed_bind e τ).2 hτ
  cases hm.symm.trans hm'
  rfl

/-- **A tree compiles just if it is a number or a truth value**, to values of any kind, and so does a text that is read
as the tree. -/
theorem exists_results_iff (k : ReturnKind) (t : ObjectType) (e : Expr) :
    ((∃ f, e.results k t = .ok f) ↔ HasType t e .number ∨ HasType t e .boolean) ∧
    ∀ (c : CompilerConfig) (source : String), Expr.parse source c.maxDepth = .ok e →
      ((∃ f, c.compile k t source = .ok f) ↔ HasType t e .number ∨ HasType t e .boolean) := by
  have hresults : (∃ f, e.results k t = .ok f) ↔ HasType t e .number ∨ HasType t e .boolean := by
    simp only [results_eq_ok, ← isScalar_iff]
    constructor
    · rintro ⟨f, m, hm, hf⟩
      exact .intro ((typed_bind e _).1 ⟨m, hm, rfl⟩) (exists_result.1 ⟨f, hf⟩)
    · rintro ⟨h, hτ⟩
      obtain ⟨m, hm, rfl⟩ := (typed_bind e _).2 h
      obtain ⟨f, hf⟩ := exists_result.2 hτ
      exact ⟨f, m, hm, hf⟩
  refine ⟨hresults, fun c source hparse => Iff.trans ?_ hresults⟩
  simp only [compile_eq_ok, hparse, Except.ok.injEq, exists_eq_left']
  exact ⟨fun ⟨f, _, hf⟩ => ⟨f.evaluate, hf⟩, fun ⟨f, hf⟩ => ⟨⟨source, f⟩, rfl, hf⟩⟩

theorem exists_compile_daughter : ∃ f, (⟨8⟩ : CompilerConfig).compile .bool .jet "daughter[0].pt > 3" = .ok f :=
  have hdaughter : ObjectType.jet.Yields "daughter" [.literal (.integer 0)] .object :=
    .shared rfl rfl (.daughter _ 0 (Int.le_refl 0))
  have hpt : HasType .jet (.member (.index (.name "daughter") (.literal (.integer 0))) "pt") .number :=
    .member (.indexName (.call rfl hdaughter)) rfl (.number _)
  ((exists_results_iff .bool .jet _).2 ⟨8⟩ "daughter[0].pt > 3" (by cbv)).2
    (.inr (.binary .greater (.intro hpt (.inl rfl)) (.intro (.integer 3) (.inl rfl))))

end
end FlatNtuple
