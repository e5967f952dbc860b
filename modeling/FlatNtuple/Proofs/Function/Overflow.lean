import FlatNtuple.Function.Overflow
import FlatNtuple.Proofs.Function.Leading
import FlatNtuple.Proofs.Meaning.Missing
import FlatNtuple.Proofs.Object.Charge
/-!
# Which functions take a charge out of range

A function takes the charges of the object and of daughters at any depth, and no others.  So none takes a charge out of
range if all of them can be summed up (`FunctionLibrary.overflows_of_addsInRange`); and the charge of the object itself
is exact unless it is out of range (`FunctionLibrary.get_charge`).
-/
namespace FlatNtuple

namespace Particle

variable {p d : Particle}

theorem overflow_chargeSum (h : p.AddsInRange) : p.chargeSum.overflow = false := p.totals_chargeSum.overflow_iff.2 h

theorem overflows_of_addsInRange (h : p.AddsInRange) (name : String) : p.overflows name = false := by
  rw [overflows, overflow_chargeSum h, Bool.and_false]

theorem AllAddInRange.of_mem : ∀ {l : List Particle}, AllAddInRange l → d ∈ l → d.AddsInRange
  | _ :: _, ⟨h, _⟩, .head _ => h
  | _ :: _, ⟨_, h⟩, .tail _ hd => h.of_mem hd

theorem AddsInRange.of_mem (h : p.AddsInRange) (hd : d ∈ p.daughters) : d.AddsInRange := by
  cases p with
  | composite c =>
    obtain ⟨daughters, _, _, _⟩ := c
    exact AllAddInRange.of_mem h.2 hd
  | electron | muon | jet => cases hd

end Particle

/-! ## What trees reach -/

section
variable {α β : Type} {n : String} {args : List Expr} {d : Particle}

/-- An object is reached through an accessor of daughters. -/
theorem object?_apply {a : Accessor α} {get : β → Option α} {m : Meaning β} {x : β} (h : a.apply get n args = .ok m)
    (hd : m.object? x = some d) : ∃ value i y, a = .daughter value ∧ get x = some y ∧ value y i = some d := by
  cases a with
  | daughter value =>
    obtain ⟨i, -, hm⟩ := bind_eq_ok.1 h
    cases hm
    obtain ⟨y, hy, hvalue⟩ := Option.bind_eq_some_iff.1 hd
    exact ⟨value, i, y, rfl, hy, hvalue⟩
  | number value | boolean value | numberByKey value | booleanByKey value =>
    obtain ⟨_, -, hm⟩ := bind_eq_ok.1 h
    cases hm
    cases hd

theorem mem_daughters_of_shared {a : Accessor Particle} {get : β → Option Particle} {m : Meaning β} {x : β}
    (ha : Accessor.shared.lookup n = some a) (h : a.apply get n args = .ok m) (hd : m.object? x = some d) :
    ∃ p, get x = some p ∧ d ∈ p.daughters := by
  obtain ⟨value, i, p, rfl, hp, hvalue⟩ := object?_apply h hd
  rw [(Accessor.daughter_shared ha).2] at hvalue
  exact ⟨p, hp, List.mem_of_getElem? hvalue⟩

variable {t : ObjectType} {x : t.Record} {m : Meaning t.Record}

theorem mem_daughters_of_root (h : t.root n args = .ok m) (hd : m.object? x = some d) :
    d ∈ (t.toParticle x).daughters := by
  unfold ObjectType.root at h
  cases hshared : Accessor.shared.lookup n with
  | some a =>
    rw [ObjectType.accessor?_of_shared hshared] at h
    simp only [Accessor.apply_comap] at h
    obtain ⟨p, hp, hmem⟩ := mem_daughters_of_shared hshared h hd
    cases hp
    exact hmem
  | none =>
    rw [ObjectType.accessor?, ObjectType.lookup_ofCandidate, hshared] at h
    cases hown : t.own.lookup n with
    | some a =>
      -- None of the accessors that only a type has yields an object.
      rw [hown] at h
      obtain ⟨value, -, -, hdaughter, -⟩ := object?_apply h hd
      obtain ⟨_, hplain⟩ | ⟨_, hplain⟩ := own_plain hown <;> cases hplain.symm.trans hdaughter
    | none =>
      rw [hown] at h
      cases h

theorem mem_daughters_of_member {mb : Meaning t.Record} (h : mb.member n args = .ok m) (hd : m.object? x = some d) :
    ∃ p, mb.object? x = some p ∧ d ∈ p.daughters := by
  cases mb with
  | object get =>
    unfold Meaning.member at h
    cases hshared : Accessor.shared.lookup n with
    | some a =>
      rw [hshared] at h
      obtain ⟨p, hp, hmem⟩ := mem_daughters_of_shared hshared h hd
      exact ⟨p, hp, hmem⟩
    | none =>
      rw [hshared] at h
      cases h
  | number | boolean | text => cases h

theorem addsInRange_of_member {mb : Meaning t.Record} (hb : ∀ p, mb.object? x = some p → p.AddsInRange)
    (h : mb.member n args = .ok m) (hd : m.object? x = some d) : d.AddsInRange := by
  obtain ⟨p, hp, hmem⟩ := mem_daughters_of_member h hd
  exact (hb p hp).of_mem hmem

/-- What is no chain of accessors is no object. -/
theorem object?_of_scalar {e : Expr} (h : e.bind t = .ok m) (hscalar : ∀ τ, HasType t e τ → τ.Scalar) :
    m.object? x = none := by
  cases m with
  | object get =>
    obtain hτ | hτ := hscalar .object ((typed_bind e .object).1 ⟨_, h, rfl⟩) <;> cases hτ
  | number | boolean | text => rfl

/-- **What a tree reaches lies in the object**, so its charges can be summed up if all of the object's can. -/
theorem addsInRange_of_object? (hx : (t.toParticle x).AddsInRange) (e : Expr) :
    ∀ m, e.bind t = .ok m → ∀ d, m.object? x = some d → d.AddsInRange := by
  induction e using Expr.bindInduction with
  | literal l =>
    intro m h d hd
    cases h
    cases l <;> cases hd
  | name n => exact fun m h d hd => hx.of_mem (mem_daughters_of_root h hd)
  | call n args hn =>
    intro m h d hd
    rw [bind_call hn] at h
    exact hx.of_mem (mem_daughters_of_root h hd)
  | builtin n f args hn harity ih =>
    intro m h d hd
    rw [object?_of_scalar h fun τ hτ => .inl ((hasType_builtin hn).1 hτ).2.2] at hd
    cases hd
  | misfit n f args hn harity =>
    intro m h
    rw [bind_of_arity_ne hn harity] at h
    cases h
  | member base n ih =>
    intro m h d hd
    obtain ⟨mb, hb, h⟩ := bind_eq_ok.1 h
    exact addsInRange_of_member (ih mb hb) h hd
  | memberCall base n args ih =>
    intro m h d hd
    obtain ⟨mb, hb, h⟩ := bind_eq_ok.1 h
    exact addsInRange_of_member (ih mb hb) h hd
  | indexName n i =>
    intro m h d hd
    obtain ⟨mr, hr, h⟩ := bind_eq_ok.1 h
    cases indexed_eq_ok h
    exact hx.of_mem (mem_daughters_of_root hr hd)
  | indexMember base n i ih =>
    intro m h d hd
    simp only [Expr.bind, bind_eq_ok] at h
    obtain ⟨mb, hb, mm, hm, h⟩ := h
    cases indexed_eq_ok h
    exact addsInRange_of_member (ih mb hb) hm hd
  | indexOther base i hname hmember =>
    intro m h
    rw [bind_index_error hname hmember] at h
    cases h
  | binary op l r ihl ihr =>
    intro m h d hd
    rw [object?_of_scalar h fun τ hτ => by cases hτ; exact op.scalar_resultType] at hd
    cases hd
  | unary op e ih =>
    intro m h d hd
    rw [object?_of_scalar h fun τ hτ => by cases hτ; exact op.scalar_resultType] at hd
    cases hd
  | conditional c l r ihc ihl ihr =>
    intro m h d hd
    rw [object?_of_scalar h fun τ hτ => by cases hτ; split <;> simp [ValueType.Scalar]] at hd
    cases hd

theorem any_object?_overflows (hx : (t.toParticle x).AddsInRange) (base : Expr) (n : String) :
    ((base.bind t).toOption.bind (Meaning.object? x)).any (fun p => p.overflows n) = false := by
  cases hbase : base.bind t with
  | error => rfl
  | ok m =>
    change (m.object? x).any _ = false
    cases hp : m.object? x with
    | none => rfl
    | some p => exact Particle.overflows_of_addsInRange (addsInRange_of_object? hx base m hbase p hp) n

mutual

/-- A tree takes no charge out of range if the object has none. -/
theorem Expr.overflows_of_addsInRange (hx : (t.toParticle x).AddsInRange) : ∀ e : Expr, e.overflows t x = false
  | .literal _ => rfl
  | .name n => Particle.overflows_of_addsInRange hx n
  | .call n args => by
    rw [Expr.overflows]
    split
    · exact Particle.overflows_of_addsInRange hx n
    · exact Expr.argsOverflow_of_addsInRange hx args
  | .member base n | .memberCall base n _ => by
    rw [Expr.overflows, Expr.overflows_of_addsInRange hx base, any_object?_overflows hx base n, Bool.or_false]
  | .index base i => by
    cases base with
    | member base n => exact Expr.overflows_of_addsInRange hx base
    | _ => rfl
  | .binary op l r => by
    rw [Expr.overflows, Expr.overflows_of_addsInRange hx l, Expr.overflows_of_addsInRange hx r, Bool.and_false,
      Bool.or_false]
  | .unary op e => by rw [Expr.overflows, Expr.overflows_of_addsInRange hx e]
  | .conditional c l r => by
    rw [Expr.overflows, Expr.overflows_of_addsInRange hx c, Expr.overflows_of_addsInRange hx l,
      Expr.overflows_of_addsInRange hx r, Bool.false_or]
    split <;> rfl

theorem Expr.argsOverflow_of_addsInRange (hx : (t.toParticle x).AddsInRange) : ∀ args : List Expr,
    Expr.argsOverflow t x args = false
  | [] => rfl
  | e :: rest => by
    rw [Expr.argsOverflow, Expr.overflows_of_addsInRange hx e, Expr.argsOverflow_of_addsInRange hx rest, Bool.and_false,
      Bool.or_false]

end

end

/-! ## Functions -/

theorem Native.overflows_of_addsInRange {p : Particle} (h : p.AddsInRange) (k : ReturnKind) (name : String) :
    Native.overflows k name p = false := by
  unfold Native.overflows
  split
  · exact Particle.overflow_chargeSum h
  · rename_i a b rest hdaughters
    have ha : a ∈ p.daughters := by rw [hdaughters]; exact List.mem_cons_self
    have hb : b ∈ p.daughters := by rw [hdaughters]; exact List.mem_cons_of_mem _ List.mem_cons_self
    rw [Particle.overflow_chargeSum (h.of_mem ha), Particle.overflow_chargeSum (h.of_mem hb), Bool.or_false]
  · rfl

namespace FunctionLibrary

variable {k : ReturnKind} {t : ObjectType} {x : t.Record}

/-- **No function takes a charge out of range if the object has none**, neither its own nor one of a composite inside. -/
theorem overflows_of_addsInRange (l : FunctionLibrary k t) (name : String) (h : (t.toParticle x).AddsInRange) :
    l.overflows name x = false := by
  unfold overflows
  split
  · exact Native.overflows_of_addsInRange h k name
  · unfold CompilerConfig.overflows
    split
    · exact Expr.overflows_of_addsInRange h _
    · rfl

/-- **The charge of an object as a function** is the total of the leaves, unless it is out of range. -/
theorem get_charge (l : FunctionLibrary .int t) : ∃ f, l.get "Charge" = (.ok f, l) ∧ ∀ x e,
    (l.overflows "Charge" x = false ↔ (t.toParticle x).AddsInRange) ∧
    (l.overflows "Charge" x = false → (f.call x e).toInt = (t.toParticle x).leafCharges.sum) := by
  have htable : (Native.table .int t).get? "Charge" =
      some ⟨"Charge", .shared, fun x _ => (t.toParticle x).chargeSum.value⟩ :=
    Native.get?_table_of_shared (by rw [t.candidate_eq]; rfl)
  have hnative : l.isNative "Charge" = true := by
    change ((Native.table .int t).get? "Charge").isSome = true
    rw [htable]
    rfl
  refine ⟨_, get_native htable, fun x e => ?_⟩
  have htotals := (t.toParticle x).totals_chargeSum
  have hiff : l.overflows "Charge" x = false ↔ (t.toParticle x).AddsInRange := by
    rw [overflows, hnative]
    exact htotals.overflow_iff
  exact ⟨hiff, fun h => htotals.toInt_value (hiff.1 h)⟩

end FunctionLibrary
end FlatNtuple
