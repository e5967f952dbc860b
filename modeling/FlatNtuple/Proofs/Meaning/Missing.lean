import FlatNtuple.Proofs.Dictionary
import FlatNtuple.Proofs.Meaning.Erasure
import FlatNtuple.Proofs.Meaning.Interpreter
import FlatNtuple.Proofs.Meaning.Typing
/-!
# Missing data

An object may lack a daughter or a piece of user data that an expression asks for (`Particle.Lacks`).  Apart from `&&`,
`||` and the conditional, everything needs all of its operands, so an expression without them has no value just where the
object lacks what one of its accessors asks for, wherever in the tree that accessor stands (`traces_bind`).
-/
namespace FlatNtuple

/-- An accessor with the arguments behind it. -/
structure Access where
  name : String
  args : List Expr

/-- **What an object lacks** of a chain of accessors, each asked of what the one before it leads to: a daughter, if its
index is not below the number of daughters, or a piece of user data, if there is none under its key. -/
inductive Particle.Lacks : Particle → List Access → Prop
  | daughter {p : Particle} {i : Nat} {rest : List Access} (h : p.daughters.length ≤ i) :
    Lacks p (⟨"daughter", [.literal (.integer i)]⟩ :: rest)
  | deeper {p d : Particle} {i : Nat} {rest : List Access} (h : p.daughters[i]? = some d) (hd : Lacks d rest) :
    Lacks p (⟨"daughter", [.literal (.integer i)]⟩ :: rest)
  | userFloat {p : Particle} {key : String} (h : key ∉ p.user.floats.keys) :
    Lacks p [⟨"userFloat", [.literal (.string key)]⟩]
  | userInt {p : Particle} {key : String} (h : key ∉ p.user.ints.keys) :
    Lacks p [⟨"userInt", [.literal (.string key)]⟩]

namespace Expr

/-- The accessors that a tree goes through from the object on, if it is an accessor. -/
def chain : Expr → List Access
  | .name n => [⟨n, []⟩]
  | .call n args => [⟨n, args⟩]
  | .member base n => base.chain ++ [⟨n, []⟩]
  | .memberCall base n args => base.chain ++ [⟨n, args⟩]
  | .index (.name n) i => [⟨n, [i]⟩]
  | .index (.member base n) i => base.chain ++ [⟨n, [i]⟩]
  | _ => []

mutual

/-- **The occurrences of accessors in a tree**, each as the chain that ends in it. -/
def occurrences : Expr → List (List Access)
  | .literal _ => []
  | .name n => [[⟨n, []⟩]]
  | .call n args =>
    match Builtin.find? n with
    | some _ => occurrencesOfArgs args
    | none => [[⟨n, args⟩]]
  | .member base n => base.occurrences ++ [base.chain ++ [⟨n, []⟩]]
  | .memberCall base n args => base.occurrences ++ [base.chain ++ [⟨n, args⟩]]
  | .index (.name n) i => [[⟨n, [i]⟩]]
  | .index (.member base n) i => base.occurrences ++ [base.chain ++ [⟨n, [i]⟩]]
  | .index base i => base.occurrences ++ i.occurrences
  | .binary _ l r => l.occurrences ++ r.occurrences
  | .unary _ e => e.occurrences
  | .conditional c l r => c.occurrences ++ (l.occurrences ++ r.occurrences)

def occurrencesOfArgs : List Expr → List (List Access)
  | [] => []
  | e :: rest => e.occurrences ++ occurrencesOfArgs rest

end

mutual

/-- A tree without `&&`, `||` and conditionals, which may leave an operand unread. -/
def isStrict : Expr → Bool
  | .literal _ | .name _ => true
  | .call _ args => isStrictArgs args
  | .member base _ => base.isStrict
  | .memberCall base _ args => base.isStrict && isStrictArgs args
  | .index base i => base.isStrict && i.isStrict
  | .binary op l r => op ≠ .and && op ≠ .or && l.isStrict && r.isStrict
  | .unary _ e => e.isStrict
  | .conditional _ _ _ => false

def isStrictArgs : List Expr → Bool
  | [] => true
  | e :: rest => e.isStrict && isStrictArgs rest

end

end Expr

/-- A meaning has no value for an object. -/
def Meaning.Missing {α : Type} (x : α) : Meaning α → Prop
  | number f => f x = none
  | boolean f => f x = none
  | object f => f x = none
  | text => False

section
variable {α β γ δ : Type} {l r m : Meaning α} {x : α}

/-! ## Operators -/

namespace Meaning

theorem missing_asNumber {f : α → Option Float} (h : m.asNumber = .ok f) : f x = none ↔ m.Missing x := by
  cases m with
  | number g =>
    cases h
    exact Iff.rfl
  | boolean g =>
    cases h
    exact Option.map_eq_none_iff
  | object | text => cases h

theorem missing_asBoolean {f : α → Option Bool} (h : m.asBoolean = .ok f) : f x = none ↔ m.Missing x := by
  cases m with
  | boolean g =>
    cases h
    exact Iff.rfl
  | number g =>
    cases h
    exact Option.map_eq_none_iff
  | object | text => cases h

theorem lift₂_eq_none {op : γ → δ → β} {f : α → Option γ} {g : α → Option δ} :
    lift₂ op f g x = none ↔ f x = none ∨ g x = none := by
  unfold lift₂
  cases f x <;> cases g x <;> simp

theorem missing_arithmetic {op : Float → Float → Float} (h : arithmetic op l r = .ok m) :
    m.Missing x ↔ l.Missing x ∨ r.Missing x := by
  simp only [arithmetic, bind_eq_ok, pure_eq_ok] at h
  obtain ⟨f, hf, g, hg, rfl⟩ := h
  rw [← missing_asNumber hf, ← missing_asNumber hg]
  exact lift₂_eq_none

theorem missing_comparison {op : Float → Float → Bool} (h : comparison op l r = .ok m) :
    m.Missing x ↔ l.Missing x ∨ r.Missing x := by
  simp only [comparison, bind_eq_ok, pure_eq_ok] at h
  obtain ⟨f, hf, g, hg, rfl⟩ := h
  rw [← missing_asNumber hf, ← missing_asNumber hg]
  exact lift₂_eq_none

theorem missing_equality {negate : Bool} (h : equality negate l r = .ok m) :
    m.Missing x ↔ l.Missing x ∨ r.Missing x := by
  unfold equality at h
  split at h
  · cases h
    exact lift₂_eq_none
  · exact missing_comparison h

/-- All operators but `&&` and `||` need both operands. -/
theorem missing_binary {op : BinaryOp} (hand : op ≠ .and) (hor : op ≠ .or) (h : binary op l r = .ok m) :
    m.Missing x ↔ l.Missing x ∨ r.Missing x := by
  cases op with
  | add | subtract | multiply | divide | power => exact missing_arithmetic h
  | equal | notEqual => exact missing_equality h
  | less | lessEqual | greater | greaterEqual => exact missing_comparison h
  | and => exact absurd rfl hand
  | or => exact absurd rfl hor

theorem missing_unary {op : UnaryOp} (h : unary op l = .ok m) : m.Missing x ↔ l.Missing x := by
  cases op with
  | negate =>
    simp only [unary, bind_eq_ok, pure_eq_ok] at h
    obtain ⟨f, hf, rfl⟩ := h
    rw [← missing_asNumber hf]
    exact Option.map_eq_none_iff
  | not =>
    simp only [unary, bind_eq_ok, pure_eq_ok] at h
    obtain ⟨f, hf, rfl⟩ := h
    rw [← missing_asBoolean hf]
    exact Option.map_eq_none_iff

end Meaning

/-! ## Accessors -/

namespace Particle

variable {p : Particle} {n key : String} {i : Nat} {args : List Expr} {rest : List Access}

theorem not_lacks_nil : ¬ p.Lacks [] := nofun

/-- Only daughters and user data can be lacking. -/
theorem Lacks.cases_cons (h : p.Lacks (⟨n, args⟩ :: rest)) :
    (∃ i : Nat, n = "daughter" ∧ args = [.literal (.integer i)] ∧ ∀ d, p.daughters[i]? = some d → d.Lacks rest) ∨
    (∃ key, n = "userFloat" ∧ args = [.literal (.string key)] ∧ key ∉ p.user.floats.keys) ∨
    (∃ key, n = "userInt" ∧ args = [.literal (.string key)] ∧ key ∉ p.user.ints.keys) := by
  generalize hc : (⟨n, args⟩ :: rest : List Access) = chain at h
  cases h with
  | daughter h =>
    cases hc
    exact .inl ⟨_, rfl, rfl, fun d hd => nomatch (List.getElem?_eq_none h).symm.trans hd⟩
  | deeper h hd =>
    cases hc
    exact .inl ⟨_, rfl, rfl, fun d' hd' => Option.some.inj (h.symm.trans hd') ▸ hd⟩
  | userFloat h =>
    cases hc
    exact .inr (.inl ⟨_, rfl, rfl, h⟩)
  | userInt h =>
    cases hc
    exact .inr (.inr ⟨_, rfl, rfl, h⟩)

theorem not_lacks_plain : ¬ p.Lacks (⟨n, []⟩ :: rest) := by
  intro h
  obtain ⟨_, _, h, _⟩ | ⟨_, _, h, _⟩ | ⟨_, _, h, _⟩ := h.cases_cons <;> cases h

theorem lacks_daughter : p.Lacks (⟨"daughter", [.literal (.integer i)]⟩ :: rest) ↔
    ∀ d, p.daughters[i]? = some d → d.Lacks rest := by
  constructor
  · intro h
    obtain ⟨j, -, hargs, hrest⟩ | ⟨_, hn, _⟩ | ⟨_, hn, _⟩ := h.cases_cons
    · obtain rfl : j = i := by simpa [eq_comm] using hargs
      exact hrest
    · exact absurd hn (by decide)
    · exact absurd hn (by decide)
  · intro h
    cases hd : p.daughters[i]? with
    | none => exact .daughter (List.getElem?_eq_none_iff.1 hd)
    | some d => exact .deeper hd (h d hd)

theorem lacks_userFloat : p.Lacks [⟨"userFloat", [.literal (.string key)]⟩] ↔ key ∉ p.user.floats.keys := by
  refine ⟨fun h => ?_, .userFloat⟩
  obtain ⟨_, hn, _⟩ | ⟨_, -, hargs, h⟩ | ⟨_, hn, _⟩ := h.cases_cons
  · exact absurd hn (by decide)
  · cases hargs
    exact h
  · exact absurd hn (by decide)

theorem lacks_userInt : p.Lacks [⟨"userInt", [.literal (.string key)]⟩] ↔ key ∉ p.user.ints.keys := by
  refine ⟨fun h => ?_, .userInt⟩
  obtain ⟨_, hn, _⟩ | ⟨_, hn, _⟩ | ⟨_, -, hargs, h⟩ := h.cases_cons
  · exact absurd hn (by decide)
  · exact absurd hn (by decide)
  · cases hargs
    exact h

end Particle

namespace Accessor

variable {n : String} {rest : List Access}

theorem keyed_shared {value : Particle → String → Option Float}
    (h : shared.lookup n = some (.numberByKey value)) (p : Particle) (key : String) :
    value p key = none ↔ p.Lacks [⟨n, [.literal (.string key)]⟩] := by
  have hmem := mem_of_lookup h
  simp only [shared, ofCandidate, List.mem_cons, Prod.mk.injEq, reduceCtorEq, and_false, false_or, or_false,
    List.not_mem_nil, numberByKey.injEq] at hmem
  obtain ⟨rfl, rfl⟩ | ⟨rfl, rfl⟩ := hmem
  · rw [Particle.lacks_userFloat, Option.map_eq_none_iff]
    exact lookup_eq_none_iff_notMem
  · rw [Particle.lacks_userInt, Option.map_eq_none_iff]
    exact lookup_eq_none_iff_notMem

theorem flagged_shared {value : Particle → String → Bool} (h : shared.lookup n = some (.booleanByKey value))
    (p : Particle) (args : List Expr) : ¬ p.Lacks (⟨n, args⟩ :: rest) := by
  intro hlacks
  obtain ⟨_, rfl, _⟩ | ⟨_, rfl, _⟩ | ⟨_, rfl, _⟩ := hlacks.cases_cons <;> cases h

theorem daughter_shared {value : Particle → Nat → Option Particle} (h : shared.lookup n = some (.daughter value)) :
    n = "daughter" ∧ ∀ p i, value p i = p.daughters[i]? := by
  have hmem := mem_of_lookup h
  simp only [shared, ofCandidate, List.mem_cons, Prod.mk.injEq, reduceCtorEq, and_false, false_or, or_false,
    List.not_mem_nil, daughter.injEq] at hmem
  obtain ⟨rfl, rfl⟩ := hmem
  exact ⟨rfl, fun _ _ => rfl⟩

end Accessor

/-- What a function leads to is not there or lacks a chain of accessors. -/
def LacksFrom (get : α → Option Particle) (x : α) (chain : List Access) : Prop := ∀ p, get x = some p → p.Lacks chain

theorem lacksFrom_nil {get : α → Option Particle} : LacksFrom get x [] ↔ get x = none := by
  rw [Option.eq_none_iff_forall_ne_some]
  exact forall_congr' fun p => imp_congr_right fun _ => iff_false_intro Particle.not_lacks_nil

section
variable {get : α → Option Particle} {a : Accessor Particle} {n : String} {args : List Expr} {rest : List Access}

/-- An accessor of a daughter leads on. -/
theorem lacksFrom_daughter {get' : α → Option Particle} (ha : Accessor.shared.lookup n = some a)
    (h : a.apply get n args = .ok (.object get')) : LacksFrom get x (⟨n, args⟩ :: rest) ↔ LacksFrom get' x rest := by
  cases a with
  | daughter value =>
    simp only [Accessor.apply, bind_eq_ok, pure_eq_ok, indexArgument_eq_ok] at h
    obtain ⟨i, rfl, hget⟩ := h
    obtain ⟨rfl, hvalue⟩ := Accessor.daughter_shared ha
    cases hget
    simp only [LacksFrom, Particle.lacks_daughter, hvalue]
    cases get x <;> simp
  | number | boolean | numberByKey | booleanByKey =>
    simp only [Accessor.apply, bind_eq_ok, pure_eq_ok, reduceCtorEq, and_false, exists_false] at h

/-- An accessor has no value where it cannot be asked or what it asks for is lacking. -/
theorem missing_apply (ha : Accessor.shared.lookup n = some a) (h : a.apply get n args = .ok m) :
    m.Missing x ↔ LacksFrom get x [⟨n, args⟩] := by
  cases a with
  | number value =>
    simp only [Accessor.apply, bind_eq_ok, pure_eq_ok, noArguments_eq_ok] at h
    obtain ⟨-, rfl, rfl⟩ := h
    simp [Meaning.Missing, LacksFrom, Particle.not_lacks_plain, Option.eq_none_iff_forall_ne_some]
  | boolean value =>
    simp only [Accessor.apply, bind_eq_ok, pure_eq_ok, noArguments_eq_ok] at h
    obtain ⟨-, rfl, rfl⟩ := h
    simp [Meaning.Missing, LacksFrom, Particle.not_lacks_plain, Option.eq_none_iff_forall_ne_some]
  | numberByKey value =>
    simp only [Accessor.apply, bind_eq_ok, pure_eq_ok, keyArgument_eq_ok] at h
    obtain ⟨key, rfl, rfl⟩ := h
    simp [Meaning.Missing, LacksFrom, ← Accessor.keyed_shared ha]
  | booleanByKey value =>
    simp only [Accessor.apply, bind_eq_ok, pure_eq_ok, keyArgument_eq_ok] at h
    obtain ⟨key, rfl, rfl⟩ := h
    simp [Meaning.Missing, LacksFrom, Accessor.flagged_shared ha, Option.eq_none_iff_forall_ne_some]
  | daughter value =>
    have hobject := h
    simp only [Accessor.apply, bind_eq_ok, pure_eq_ok, indexArgument_eq_ok] at h
    obtain ⟨i, rfl, rfl⟩ := h
    rw [lacksFrom_daughter ha hobject, lacksFrom_nil]
    rfl

end

/-! ## Trees -/

variable {t : ObjectType} {e base : Expr} {n : String} {args : List Expr} {m mb : Meaning t.Record}

/-- A tree has no value where one of its accessors lacks something, and as an accessor it leads where its chain does. -/
structure Traces (t : ObjectType) (e : Expr) (m : Meaning t.Record) : Prop where
  missing (x : t.Record) : m.Missing x ↔ ∃ o ∈ e.occurrences, (t.toParticle x).Lacks o
  leads (get : t.Record → Option Particle) (h : m = .object get) (x : t.Record) (rest : List Access) :
    (t.toParticle x).Lacks (e.chain ++ rest) ↔ LacksFrom get x rest

/-- A tree that is no object leads nowhere. -/
theorem Traces.of_scalar (hscalar : m.type.Scalar)
    (hmissing : ∀ x, m.Missing x ↔ ∃ o ∈ e.occurrences, (t.toParticle x).Lacks o) : Traces t e m := by
  refine ⟨hmissing, ?_⟩
  rintro get rfl
  obtain htype | htype := hscalar <;> cases htype

theorem traces_root (h : t.root n args = .ok m) (hoccurrences : e.occurrences = [[⟨n, args⟩]])
    (hchain : e.chain = [⟨n, args⟩]) : Traces t e m := by
  have hsome (x : t.Record) (chain : List Access) :
      LacksFrom (some ∘ t.toParticle) x chain ↔ (t.toParticle x).Lacks chain := by
    simp [LacksFrom]
  unfold ObjectType.root at h
  cases hshared : Accessor.shared.lookup n with
  | some a =>
    rw [ObjectType.accessor?_of_shared hshared] at h
    simp only [Accessor.apply_comap] at h
    constructor
    · intro x
      rw [missing_apply hshared h, hsome, hoccurrences]
      simp
    · rintro get rfl x rest
      rw [hchain, ← lacksFrom_daughter hshared h, hsome]
      rfl
  | none =>
    rw [ObjectType.accessor?, ObjectType.lookup_ofCandidate, hshared] at h
    cases hown : t.own.lookup n with
    | some a =>
      -- The accessors that only a type has are always there.
      rw [hown] at h
      obtain ⟨value, rfl⟩ | ⟨value, rfl⟩ := own_plain hown <;>
      · simp only [Accessor.apply, bind_eq_ok, pure_eq_ok, noArguments_eq_ok] at h
        obtain ⟨-, rfl, rfl⟩ := h
        refine .of_scalar (by simp [Meaning.type, ValueType.Scalar]) fun x => ?_
        simp [Meaning.Missing, hoccurrences, Particle.not_lacks_plain]
    | none =>
      rw [hown] at h
      cases h

theorem Traces.member (hb : Traces t base mb) (h : mb.member n args = .ok m)
    (hoccurrences : e.occurrences = base.occurrences ++ [base.chain ++ [⟨n, args⟩]])
    (hchain : e.chain = base.chain ++ [⟨n, args⟩]) : Traces t e m := by
  -- Only what is an object has members, and they are asked of what it leads to.
  cases mb with
  | object get =>
    unfold Meaning.member at h
    cases hshared : Accessor.shared.lookup n with
    | none =>
      rw [hshared] at h
      cases h
    | some a =>
      rw [hshared] at h
      have hleads := hb.leads get rfl
      constructor
      · intro x
        -- What the base lacks, the member lacks.
        have hbase : get x = none → LacksFrom get x [⟨n, args⟩] := by
          intro hget p hp
          cases hget.symm.trans hp
        simp only [hoccurrences, List.mem_append, List.mem_singleton, or_and_right, exists_or, exists_eq_left, hleads,
          ← hb.missing]
        rw [missing_apply hshared h]
        exact ⟨.inr, fun h => h.elim hbase id⟩
      · rintro get' rfl x rest
        rw [hchain, List.append_assoc, List.singleton_append, hleads, lacksFrom_daughter hshared h]
  | number | boolean | text => cases h

theorem indexed_eq_ok {m' : Meaning t.Record} (h : mb.indexed n = .ok m') : mb = m' := by
  cases mb with
  | object get => exact Except.ok.inj h
  | number | boolean | text => cases h

/-- One of some arguments is missing where one of their accessors lacks something. -/
theorem missing_bindNumbers {x : t.Record} : ∀ {args : List Expr} {numbers},
    (∀ a ∈ args, ∀ m, a.bind t = .ok m → Traces t a m) → Expr.bindNumbers t args = .ok numbers →
      ((∃ f ∈ numbers, f x = none) ↔ ∃ o ∈ Expr.occurrencesOfArgs args, (t.toParticle x).Lacks o)
  | [], _, _, h => by
    cases h
    simp [Expr.occurrencesOfArgs]
  | a :: rest, _, htraces, h => by
    simp only [Expr.bindNumbers, bind_eq_ok, pure_eq_ok] at h
    obtain ⟨m, hm, f, hf, numbers, hnumbers, rfl⟩ := h
    have hrest := missing_bindNumbers (fun b hb => htraces b (List.mem_cons_of_mem a hb)) hnumbers (x := x)
    have ha := (htraces a List.mem_cons_self m hm).missing x
    simp only [Expr.occurrencesOfArgs, List.mem_append, List.mem_cons, or_and_right, exists_or, exists_eq_left, hrest,
      ← ha, Meaning.missing_asNumber hf]

theorem isStrict_of_args : ∀ {args : List Expr}, Expr.isStrictArgs args → ∀ a ∈ args, a.isStrict
  | _ :: _, h, _, .head _ => (Bool.and_eq_true_iff.1 h).1
  | _ :: _, h, a, .tail _ ha => isStrict_of_args (Bool.and_eq_true_iff.1 h).2 a ha

/-- **A tree without `&&`, `||` and conditionals has no value just where the object lacks what one of its accessors asks
for.** -/
theorem traces_bind (e : Expr) : e.isStrict → ∀ m, e.bind t = .ok m → Traces t e m := by
  -- Accessors go on from where their base leads; all other nodes lead nowhere, and their occurrences are those of their
  -- operands.
  induction e using Expr.bindInduction with
  | literal l =>
    rintro - m h
    cases h
    constructor
    · intro x
      cases l <;> simp [Literal.meaning, Meaning.Missing, Expr.occurrences]
    · intro get h
      cases l <;> cases h
  | name n => exact fun _ m h => traces_root h rfl rfl
  | call n args hn =>
    intro _ m h
    rw [bind_call hn] at h
    exact traces_root h (by rw [Expr.occurrences, hn]) rfl
  | builtin n f args hn harity ih =>
    intro hstrict m h
    rw [Expr.bind_builtin hn harity] at h
    obtain ⟨numbers, hnumbers, h⟩ := bind_eq_ok.1 h
    obtain ⟨g, hg, hmissing⟩ := Builtin.call_of_arity n ((Expr.length_bindNumbers hnumbers).trans harity)
    cases hg.symm.trans h
    refine .of_scalar (.inl rfl) fun x => (hmissing x).trans ?_
    rw [Expr.occurrences, hn]
    exact missing_bindNumbers (fun a ha => ih a ha (isStrict_of_args hstrict a ha)) hnumbers
  | misfit n f args hn harity =>
    intro _ m h
    rw [bind_of_arity_ne hn harity] at h
    cases h
  | member base n ih =>
    intro hstrict m h
    obtain ⟨mb, hb, h⟩ := bind_eq_ok.1 h
    exact (ih hstrict mb hb).member h rfl rfl
  | memberCall base n args ih =>
    intro hstrict m h
    obtain ⟨mb, hb, h⟩ := bind_eq_ok.1 h
    exact (ih (Bool.and_eq_true_iff.1 hstrict).1 mb hb).member h rfl rfl
  | indexName n i =>
    intro _ m h
    obtain ⟨mr, hr, h⟩ := bind_eq_ok.1 h
    exact traces_root (indexed_eq_ok h ▸ hr) rfl rfl
  | indexMember base n i ih =>
    intro hstrict m h
    simp only [Expr.bind, bind_eq_ok] at h
    obtain ⟨mb, hb, mm, hm, h⟩ := h
    exact (ih (Bool.and_eq_true_iff.1 hstrict).1 mb hb).member (indexed_eq_ok h ▸ hm) rfl rfl
  | indexOther base i hname hmember =>
    intro _ m h
    rw [bind_index_error hname hmember] at h
    cases h
  | binary op l r ihl ihr =>
    intro hstrict m h
    simp only [Expr.bind, bind_eq_ok] at h
    obtain ⟨ml, hl, mr, hr, h⟩ := h
    simp only [Expr.isStrict, Bool.and_eq_true, decide_eq_true_eq] at hstrict
    obtain ⟨⟨⟨hand, hor⟩, hsl⟩, hsr⟩ := hstrict
    obtain ⟨-, -, htype⟩ := typed_binary.1 ⟨m, h, rfl⟩
    refine .of_scalar (htype ▸ op.scalar_resultType) fun x => ?_
    rw [Meaning.missing_binary hand hor h, (ihl hsl ml hl).missing, (ihr hsr mr hr).missing]
    simp only [Expr.occurrences, List.mem_append, or_and_right, exists_or]
  | unary op e ih =>
    intro hstrict m h
    obtain ⟨me, he, h⟩ := bind_eq_ok.1 h
    obtain ⟨-, htype⟩ := typed_unary.1 ⟨m, h, rfl⟩
    refine .of_scalar (htype ▸ op.scalar_resultType) fun x => ?_
    rw [Meaning.missing_unary h, (ih hstrict me he).missing, Expr.occurrences]
  | conditional c l r ihc ihl ihr =>
    intro hstrict
    cases hstrict

theorem result_of_missing {α : Type} {x : α} {m : Meaning α} {k : ReturnKind} {g : α → k.Carrier}
    (hg : m.result k = .ok g) (h : m.Missing x) : g x = k.missing := by
  cases m with
  | number f =>
    cases hg
    simp only [show f x = none from h, Option.map_none, Option.getD_none]
  | boolean f =>
    cases hg
    simp only [show f x = none from h, Option.map_none, Option.getD_none]
  | object | text => cases hg

/-- **Missing data is never swallowed.**  What a text without `&&`, `||` and conditionals compiles to has no value for an
object just where the object lacks what one of the accessors in the text asks for, and yields the kind's value for missing
data there. -/
theorem missing_iff_lacks {c : CompilerConfig} {k : ReturnKind} {t : ObjectType} {source : String} {f : Compiled k t}
    {e : Expr} (h : c.compile k t source = .ok f) (hparse : Expr.parse source c.maxDepth = .ok e) (hstrict : e.isStrict) :
    ∃ m, e.bind t = .ok m ∧ m.result k = .ok f.evaluate ∧ ∀ x,
      (m.Missing x ↔ ∃ o ∈ e.occurrences, (t.toParticle x).Lacks o) ∧
      ((∃ o ∈ e.occurrences, (t.toParticle x).Lacks o) → f.evaluate x = k.missing) := by
  obtain ⟨-, e', hparse', hresults⟩ := compile_eq_ok.1 h
  cases hparse.symm.trans hparse'
  obtain ⟨m, hm, hf⟩ := results_eq_ok.1 hresults
  have hmissing := (traces_bind e hstrict m hm).missing
  exact ⟨m, hm, hf, fun x => ⟨hmissing x, fun hlacks => result_of_missing hf ((hmissing x).2 hlacks)⟩⟩

/-- A composite without a second daughter, in one operand of a sum, and user data in the other. -/
theorem missing_iff_lacks_sum : ∃ f : Compiled .float .composite,
    (⟨8⟩ : CompilerConfig).compile .float .composite "daughter(1).pt + userFloat('iso')" = .ok f ∧
    ∀ x : Composite, x.daughters.length ≤ 1 → f.evaluate x = ReturnKind.float.missing := by
  have hparse : Expr.parse "daughter(1).pt + userFloat('iso')" 8 =
      .ok (.binary .add (.member (.call "daughter" [.literal (.integer 1)]) "pt")
        (.call "userFloat" [.literal (.string "iso")])) := by cbv
  have hcompile : (⟨8⟩ : CompilerConfig).compile .float .composite "daughter(1).pt + userFloat('iso')" = .ok ⟨_, _⟩ :=
    compile_eq_ok.2 ⟨rfl, _, hparse, rfl⟩
  obtain ⟨m, -, -, hmissing⟩ := missing_iff_lacks hcompile hparse rfl
  refine ⟨_, hcompile, fun x hx => (hmissing x).2 ?_⟩
  exact ⟨[⟨"daughter", [.literal (.integer (1 : Nat))]⟩], List.mem_cons_self, .daughter hx⟩

end
end FlatNtuple
