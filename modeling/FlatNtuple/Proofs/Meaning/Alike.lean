import FlatNtuple.Proofs.Meaning.Builtin
/-!
# Meanings that say the same

Meanings over two types of objects are alike, along a relation between the objects, if they have the same values at
objects that are related.  All that meanings are built with makes like ones of like ones, and fails on neither or on
both.  The arguments of an accessor matter only as the literals that they are (`apply_congr`).
-/
namespace FlatNtuple

variable {α β γ δ : Type} {P : α → β → Prop} {p : Prop}

/-- Functions with the same values at related arguments. -/
def SameAlong (P : α → β → Prop) (f : α → γ) (g : β → γ) : Prop := ∀ x y, P x y → f x = g y

namespace SameAlong

theorem lift₂ {ε : Type} {op : γ → δ → ε} {f : α → Option γ} {f' : β → Option γ} {g : α → Option δ}
    {g' : β → Option δ} (hf : SameAlong P f f') (hg : SameAlong P g g') :
    SameAlong P (Meaning.lift₂ op f g) (Meaning.lift₂ op f' g') := by
  intro x y hxy
  rw [Meaning.lift₂, Meaning.lift₂, hf x y hxy, hg x y hxy]

theorem select {c : α → Option Bool} {c' : β → Option Bool} {f g : α → Option γ} {f' g' : β → Option γ}
    (hc : SameAlong P c c') (hf : SameAlong P f f') (hg : SameAlong P g g') :
    SameAlong P (Meaning.select c f g) (Meaning.select c' f' g') := by
  intro x y hxy
  rw [Meaning.select, Meaning.select, hc x y hxy, hf x y hxy, hg x y hxy]

end SameAlong

/-- Meanings with the same values at related objects. -/
inductive Meaning.Alike (P : α → β → Prop) : Meaning α → Meaning β → Prop
  | number {f : α → Option Float} {g : β → Option Float} (h : SameAlong P f g) : Alike P (.number f) (.number g)
  | boolean {f : α → Option Bool} {g : β → Option Bool} (h : SameAlong P f g) : Alike P (.boolean f) (.boolean g)
  | object {f : α → Option Particle} {g : β → Option Particle} (h : SameAlong P f g) : Alike P (.object f) (.object g)
  | text : Alike P .text .text

namespace Meaning

variable {l r m : Meaning α} {l' r' m' : Meaning β}

theorem Alike.refl (m : Meaning α) : Alike Eq m m := by
  cases m with
  | number f => exact .number fun x _ => congrArg f
  | boolean f => exact .boolean fun x _ => congrArg f
  | object f => exact .object fun x _ => congrArg f
  | text => exact .text

theorem Alike.eq {m m' : Meaning α} (h : Alike Eq m m') : m = m' := by
  cases h with
  | number h | boolean h | object h =>
    congr 1
    funext x
    exact h x x rfl
  | text => rfl

theorem Alike.type_eq (h : Alike P m m') : m'.type = m.type := by cases h <;> rfl

/-! ## Operators -/

theorem Alike.asNumber (h : Alike P m m') : Parallel p (SameAlong P) m.asNumber m'.asNumber := by
  cases h with
  | number h => exact .ok h
  | boolean h => exact .ok fun x y hxy => congrArg (Option.map _) (h x y hxy)
  | object | text => exact .error

theorem Alike.asBoolean (h : Alike P m m') : Parallel p (SameAlong P) m.asBoolean m'.asBoolean := by
  cases h with
  | boolean h => exact .ok h
  | number h => exact .ok fun x y hxy => congrArg (Option.map _) (h x y hxy)
  | object | text => exact .error

theorem Alike.arithmetic {op : Float → Float → Float} (hl : Alike P l l') (hr : Alike P r r') :
    Parallel p (Alike P) (arithmetic op l r) (arithmetic op l' r') :=
  hl.asNumber.bind fun _ _ hf => hr.asNumber.bind fun _ _ hg => .ok (.number (hf.lift₂ hg))

theorem Alike.comparison {op : Float → Float → Bool} (hl : Alike P l l') (hr : Alike P r r') :
    Parallel p (Alike P) (comparison op l r) (comparison op l' r') :=
  hl.asNumber.bind fun _ _ hf => hr.asNumber.bind fun _ _ hg => .ok (.boolean (hf.lift₂ hg))

theorem Alike.equality {negate : Bool} (hl : Alike P l l') (hr : Alike P r r') :
    Parallel p (Alike P) (equality negate l r) (equality negate l' r') := by
  have hnumbers : Parallel p (Alike P) (Meaning.comparison (fun a b => (a == b) != negate) l r)
      (Meaning.comparison (fun a b => (a == b) != negate) l' r') := hl.comparison hr
  cases hl with
  | boolean hf =>
    cases hr with
    | boolean hg => exact .ok (.boolean (hf.lift₂ hg))
    | number | object | text => exact hnumbers
  | number | object | text => exact hnumbers

theorem Alike.conjunction (hl : Alike P l l') (hr : Alike P r r') :
    Parallel p (Alike P) (conjunction l r) (conjunction l' r') :=
  hl.asBoolean.bind fun _ _ hf => hr.asBoolean.bind fun _ _ hg => .ok <| .boolean fun x y hxy => by
    rw [hf x y hxy, hg x y hxy]

theorem Alike.disjunction (hl : Alike P l l') (hr : Alike P r r') :
    Parallel p (Alike P) (disjunction l r) (disjunction l' r') :=
  hl.asBoolean.bind fun _ _ hf => hr.asBoolean.bind fun _ _ hg => .ok <| .boolean fun x y hxy => by
    rw [hf x y hxy, hg x y hxy]

theorem Alike.binary (op : BinaryOp) (hl : Alike P l l') (hr : Alike P r r') :
    Parallel p (Alike P) (binary op l r) (binary op l' r') := by
  cases op with
  | add | subtract | multiply | divide | power => exact hl.arithmetic hr
  | equal | notEqual => exact hl.equality hr
  | less | lessEqual | greater | greaterEqual => exact hl.comparison hr
  | and => exact hl.conjunction hr
  | or => exact hl.disjunction hr

theorem Alike.unary (op : UnaryOp) (h : Alike P m m') : Parallel p (Alike P) (unary op m) (unary op m') := by
  cases op with
  | negate =>
    exact h.asNumber.bind fun _ _ hf => .ok <| .number fun x y hxy => congrArg (Option.map _) (hf x y hxy)
  | not =>
    exact h.asBoolean.bind fun _ _ hf => .ok <| .boolean fun x y hxy => congrArg (Option.map _) (hf x y hxy)

theorem Alike.conditional {c : α → Option Bool} {c' : β → Option Bool} (hc : SameAlong P c c') (hl : Alike P l l')
    (hr : Alike P r r') : Parallel p (Alike P) (conditional c l r) (conditional c' l' r') := by
  have hnumbers : Parallel p (Alike P)
      (do let f ← l.asNumber; let g ← r.asNumber; return Meaning.number (Meaning.select c f g))
      (do let f ← l'.asNumber; let g ← r'.asNumber; return Meaning.number (Meaning.select c' f g)) :=
    hl.asNumber.bind fun _ _ hf => hr.asNumber.bind fun _ _ hg => .ok (.number (hc.select hf hg))
  cases hl with
  | boolean hf =>
    cases hr with
    | boolean hg => exact .ok (.boolean (hc.select hf hg))
    | number | object | text => exact hnumbers
  | number | object | text => exact hnumbers

theorem Alike.indexed (name : String) (h : Alike P m m') :
    Parallel p (Alike P) (m.indexed name) (m'.indexed name) := by
  cases h with
  | object h => exact .ok (.object h)
  | number | boolean | text => exact .error

theorem Alike.result (k : ReturnKind) (h : Alike P m m') : Parallel p (SameAlong P) (m.result k) (m'.result k) := by
  cases h with
  | number h => exact .ok fun x y hxy => by rw [h x y hxy]
  | boolean h => exact .ok fun x y hxy => by rw [h x y hxy]
  | object | text => exact .error

end Meaning

/-- A literal says the same of all objects. -/
theorem Literal.alike_meaning (l : Literal) : Meaning.Alike P l.meaning l.meaning := by
  cases l with
  | bool => exact .boolean fun _ _ _ => rfl
  | integer | float => exact .number fun _ _ _ => rfl
  | string => exact .text

/-! ## Arguments -/

/-- The literal that a tree is, if it is one. -/
def Expr.literal? : Expr → Option Literal
  | .literal l => some l
  | _ => none

theorem map_literal?_eq_singleton {args : List Expr} {l : Literal} :
    args.map Expr.literal? = [some l] ↔ args = [.literal l] := by
  match args with
  | [] | _ :: _ :: _ => simp
  | [e] => cases e <;> simp [Expr.literal?]

namespace Accessor

theorem keyArgument_eq (name : String) (args : List Expr) :
    keyArgument name args = match args.map Expr.literal? with
      | [some (.string key)] => .ok key
      | _ => .error (.invalidArguments name .key) := by
  unfold keyArgument
  split
  · rfl
  · rename_i hne
    split
    · rename_i key h
      exact absurd (map_literal?_eq_singleton.1 h) (hne key)
    · rfl

theorem indexArgument_eq (name : String) (args : List Expr) :
    indexArgument name args = match args.map Expr.literal? with
      | [some (.integer i)] => if i < 0 then .error (.invalidArguments name (.negativeIndex i)) else .ok i.toNat
      | _ => .error (.invalidArguments name .index) := by
  unfold indexArgument
  split
  · rfl
  · rename_i hne
    split
    · rename_i i h
      exact absurd (map_literal?_eq_singleton.1 h) (hne i)
    · rfl

theorem noArguments_eq (name : String) (args : List Expr) :
    noArguments name args = if args.length = 0 then .ok () else .error (.invalidArguments name (.none args.length)) := by
  cases args <;> rfl

/-- **An accessor sees of its arguments only which literals they are.** -/
theorem apply_congr {args args' : List Expr} (h : args'.map Expr.literal? = args.map Expr.literal?) (a : Accessor α)
    (get : β → Option α) (name : String) : a.apply get name args' = a.apply get name args := by
  have hlength : args'.length = args.length := by simpa using congrArg List.length h
  cases a with
  | number | boolean => simp only [apply, noArguments_eq, hlength]
  | numberByKey | booleanByKey => simp only [apply, keyArgument_eq, h]
  | daughter => simp only [apply, indexArgument_eq, h]

theorem alike_apply (a : Accessor γ) {get : α → Option γ} {get' : β → Option γ} (hget : SameAlong P get get')
    (name : String) (args : List Expr) :
    Parallel p (Meaning.Alike P) (a.apply get name args) (a.apply get' name args) := by
  cases a with
  | number value =>
    exact (Parallel.refl _).bind fun _ _ _ => .ok <| .number fun x y hxy => by rw [hget x y hxy]
  | boolean value =>
    exact (Parallel.refl _).bind fun _ _ _ => .ok <| .boolean fun x y hxy => by rw [hget x y hxy]
  | numberByKey value =>
    refine (Parallel.refl _).bind ?_
    rintro key _ rfl
    exact .ok <| .number fun x y hxy => by rw [hget x y hxy]
  | booleanByKey value =>
    refine (Parallel.refl _).bind ?_
    rintro key _ rfl
    exact .ok <| .boolean fun x y hxy => by rw [hget x y hxy]
  | daughter value =>
    refine (Parallel.refl _).bind ?_
    rintro i _ rfl
    exact .ok <| .object fun x y hxy => by rw [hget x y hxy]

end Accessor

theorem ObjectType.root_congr {args args' : List Expr} (h : args'.map Expr.literal? = args.map Expr.literal?)
    (t : ObjectType) (name : String) : t.root name args' = t.root name args := by
  simp only [root, Accessor.apply_congr h]

theorem Meaning.member_congr {args args' : List Expr} (h : args'.map Expr.literal? = args.map Expr.literal?)
    (m : Meaning α) (name : String) : m.member name args' = m.member name args := by
  cases m with
  | object get => simp only [member, Accessor.apply_congr h]
  | number | boolean | text => rfl

theorem Meaning.Alike.member {m : Meaning α} {m' : Meaning β} (h : Alike P m m') (name : String) (args : List Expr) :
    Parallel p (Alike P) (m.member name args) (m'.member name args) := by
  cases h with
  | object hget =>
    unfold Meaning.member
    cases Accessor.shared.lookup name with
    | some a => exact a.alike_apply hget name args
    | none => exact .error
  | number | boolean | text => exact .error

/-! ## Builtin functions -/

theorem Builtin.parallel_next {R : γ → δ → Prop} (name : String) : ∀ {args : List γ} {args' : List δ},
    List.Forall₂ R args args' →
      Parallel p (fun q q' => R q.1 q'.1 ∧ List.Forall₂ R q.2 q'.2) (next name args) (next name args')
  | _, _, .nil => .error
  | _, _, .cons ha hargs => .ok ⟨ha, hargs⟩

theorem Builtin.alike_call (name : String) (f : Builtin) {args : List (α → Option Float)}
    {args' : List (β → Option Float)} (h : List.Forall₂ (SameAlong P) args args') :
    Parallel p (Meaning.Alike P) (f.call name args) (f.call name args') := by
  cases f with
  | unary f =>
    exact (parallel_next name h).bind fun _ _ ha => .ok <| .number fun x y hxy => by rw [ha.1 x y hxy]
  | binary f =>
    exact (parallel_next name h).bind fun _ _ ha => (parallel_next name ha.2).bind fun _ _ hb =>
      .ok <| .number fun x y hxy => by rw [ha.1 x y hxy, hb.1 x y hxy]
  | quaternary f =>
    exact (parallel_next name h).bind fun _ _ ha => (parallel_next name ha.2).bind fun _ _ hb =>
      (parallel_next name hb.2).bind fun _ _ hc => (parallel_next name hc.2).bind fun _ _ hd =>
        .ok <| .number fun x y hxy => by rw [ha.1 x y hxy, hb.1 x y hxy, hc.1 x y hxy, hd.1 x y hxy]

section
variable {n : String} {f : Builtin} {args args' : List Expr}

theorem parallel_bindNumbers {t t' : ObjectType} {P : t.Record → t'.Record → Prop} : ∀ {args args' : List Expr},
    List.Forall₂ (fun a a' => Parallel p (Meaning.Alike P) (a.bind t) (a'.bind t')) args args' →
      Parallel p (List.Forall₂ (SameAlong P)) (Expr.bindNumbers t args) (Expr.bindNumbers t' args')
  | _, _, .nil => .ok .nil
  | _, _, .cons ha hargs => ha.bind fun _ _ hm => hm.asNumber.bind fun _ _ hf =>
    (parallel_bindNumbers hargs).bind fun _ _ hfs => .ok (.cons hf hfs)

/-- **Calls of a builtin function are alike if its arguments are.** -/
theorem parallel_builtin (t t' : ObjectType) {P : t.Record → t'.Record → Prop} (hn : Builtin.find? n = some f)
    (harity : args.length = f.arity)
    (h : List.Forall₂ (fun a a' => Parallel p (Meaning.Alike P) (a.bind t) (a'.bind t')) args args') :
    Parallel p (Meaning.Alike P) ((Expr.call n args).bind t) ((Expr.call n args').bind t') := by
  rw [Expr.bind_builtin hn harity, Expr.bind_builtin hn (h.length_eq.symm.trans harity)]
  exact (parallel_bindNumbers h).bind fun _ _ hargs => f.alike_call n hargs

theorem parallel_misfit (t t' : ObjectType) {P : t.Record → t'.Record → Prop} (hn : Builtin.find? n = some f)
    (harity : args.length ≠ f.arity) (hlength : args'.length = args.length) :
    Parallel p (Meaning.Alike P) ((Expr.call n args).bind t) ((Expr.call n args').bind t') := by
  rw [bind_of_arity_ne hn harity, bind_of_arity_ne hn (hlength ▸ harity)]
  exact .error

end
end FlatNtuple
