import FlatNtuple.Proofs.Dictionary
import FlatNtuple.Proofs.Meaning.Alike
import FlatNtuple.Proofs.Meaning.Typing
/-!
# Forms of accessors

An accessor without arguments may be written with empty parentheses or without any, and a child with its index in
brackets or in parentheses.  Writing every accessor as a call (`Expr.callForm`) changes nothing in what a tree means.
It can only make a tree meaningful where something other than a child is indexed: brackets are for children alone, and a
call may also be one of a builtin function.
-/
namespace FlatNtuple

namespace Expr

mutual

/-- **A tree with every accessor as a call**, at all depths. -/
def callForm : Expr → Expr
  | .literal l => .literal l
  | .name n => .call n []
  | .call n args => .call n (callFormArgs args)
  | .member base n => .memberCall base.callForm n []
  | .memberCall base n args => .memberCall base.callForm n (callFormArgs args)
  | .index (.name n) i => .call n [i.callForm]
  | .index (.member base n) i => .memberCall base.callForm n [i.callForm]
  | .index base i => .index base.callForm i.callForm
  | .binary op l r => .binary op l.callForm r.callForm
  | .unary op e => .unary op e.callForm
  | .conditional c l r => .conditional c.callForm l.callForm r.callForm

def callFormArgs : List Expr → List Expr
  | [] => []
  | e :: rest => e.callForm :: callFormArgs rest

end

mutual

/-- The names that stand in front of brackets. -/
def indexedNames : Expr → List String
  | .literal _ | .name _ => []
  | .call _ args => indexedNamesOfArgs args
  | .member base _ => base.indexedNames
  | .memberCall base _ args => base.indexedNames ++ indexedNamesOfArgs args
  | .index (.name n) i => n :: i.indexedNames
  | .index (.member base n) i => n :: (base.indexedNames ++ i.indexedNames)
  | .index base i => base.indexedNames ++ i.indexedNames
  | .binary _ l r => l.indexedNames ++ r.indexedNames
  | .unary _ e => e.indexedNames
  | .conditional c l r => c.indexedNames ++ (l.indexedNames ++ r.indexedNames)

def indexedNamesOfArgs : List Expr → List String
  | [] => []
  | e :: rest => e.indexedNames ++ indexedNamesOfArgs rest

end

theorem literal?_callForm (e : Expr) : e.callForm.literal? = e.literal? := by
  cases e with
  | index base i => cases base <;> rfl
  | literal | name | member | call | memberCall | binary | unary | conditional => rfl

theorem callFormArgs_eq_map : ∀ args : List Expr, callFormArgs args = args.map callForm
  | [] => rfl
  | e :: rest => by rw [callFormArgs, List.map_cons, callFormArgs_eq_map rest]

theorem map_literal?_callFormArgs (args : List Expr) : (callFormArgs args).map literal? = args.map literal? := by
  rw [callFormArgs_eq_map, List.map_map]
  exact List.map_congr_left fun e _ => literal?_callForm e

theorem mem_indexedNamesOfArgs {n : String} {e : Expr} (hn : n ∈ e.indexedNames) : ∀ {args : List Expr}, e ∈ args →
    n ∈ indexedNamesOfArgs args
  | _ :: _, .head _ => List.mem_append_left _ hn
  | _ :: _, .tail _ he => List.mem_append_right _ (mem_indexedNamesOfArgs hn he)

theorem callForm_ne_name (e : Expr) (n : String) : e.callForm ≠ .name n := by
  cases e with
  | index base i => cases base <;> nofun
  | literal | name | member | call | memberCall | binary | unary | conditional => nofun

theorem callForm_ne_member (e base : Expr) (n : String) : e.callForm ≠ .member base n := by
  cases e with
  | index base i => cases base <;> nofun
  | literal | name | member | call | memberCall | binary | unary | conditional => nofun

end Expr

/-- A name stands for the children of an object. -/
def ObjectType.IsChild (t : ObjectType) (n : String) : Prop := ∃ a, t.accessor? n = some a ∧ a.type = .object

variable {t : ObjectType} {n : String} {p : Prop}

/-- No accessor has the name of a builtin function. -/
theorem accessor?_of_builtin {f : Builtin} (h : Builtin.find? n = some f) : t.accessor? n = none := by
  have hdisjoint : ∀ n ∈ Builtin.table.map Prod.fst,
      n ∉ t.own.map Prod.fst ∧ n ∉ Accessor.shared.map Prod.fst := by
    cases t <;> decide +kernel
  obtain ⟨hown, hshared⟩ := hdisjoint n (List.mem_map.2 ⟨_, mem_of_lookup h, rfl⟩)
  rw [ObjectType.accessor?, lookup_eq_none_iff_notMem.2 hown, ObjectType.lookup_ofCandidate,
    lookup_eq_none_iff_notMem.2 hshared]
  rfl

theorem find?_of_isChild (h : t.IsChild n) : Builtin.find? n = none := by
  obtain ⟨a, ha, -⟩ := h
  rw [Option.eq_none_iff_forall_not_mem]
  intro f hf
  cases ha.symm.trans (accessor?_of_builtin hf)

/-- Children are shared by all objects. -/
theorem shared_of_isChild (h : t.IsChild n) : ∃ a, Accessor.shared.lookup n = some a ∧ a.type = .object := by
  obtain ⟨a, ha, htype⟩ := h
  unfold ObjectType.accessor? at ha
  cases hown : t.own.lookup n with
  | some b =>
    have hnone : ∀ e ∈ t.own, e.2.type ≠ .object := by cases t <;> decide
    rw [hown] at ha
    cases ha
    exact absurd htype (hnone _ (mem_of_lookup hown))
  | none =>
    rw [hown, ObjectType.lookup_ofCandidate] at ha
    obtain ⟨b, hb, rfl⟩ := Option.map_eq_some_iff.1 ha
    refine ⟨b, hb, ?_⟩
    rw [← htype]
    cases b <;> rfl

theorem type_of_apply {α β : Type} {a : Accessor α} {get : β → Option α} {args : List Expr} {m : Meaning β}
    (h : a.apply get n args = .ok m) : m.type = a.type := by
  have hyields : a.Yields args m.type := typed_apply.1 ⟨m, h, rfl⟩
  generalize m.type = τ at hyields
  cases hyields <;> rfl

theorem type_of_root {args : List Expr} {m : Meaning t.Record} (h : t.IsChild n) (hm : t.root n args = .ok m) :
    m.type = .object := by
  obtain ⟨a, ha, htype⟩ := h
  rw [ObjectType.root, ha] at hm
  exact (type_of_apply hm).trans htype

theorem type_of_member {α : Type} {base m : Meaning α} {args : List Expr} (h : t.IsChild n)
    (hm : base.member n args = .ok m) : m.type = .object := by
  obtain ⟨a, ha, htype⟩ := shared_of_isChild h
  cases base with
  | object get =>
    rw [Meaning.member, ha] at hm
    exact (type_of_apply hm).trans htype
  | number | boolean | text => cases hm

/-- Brackets only check that what is indexed is a child. -/
theorem parallel_indexed {α : Type} {x : Except Fault (Meaning α)} (h : p → ∀ m, x = .ok m → m.type = .object) :
    Parallel p Eq (do (← x).indexed n) x where
  forth := by
    intro m hm
    obtain ⟨m', hx, hindexed⟩ := bind_eq_ok.1 hm
    cases m' with
    | object get =>
      cases hindexed
      exact ⟨_, hx, rfl⟩
    | number | boolean | text => cases hindexed
  back := by
    intro hp m hm
    have htype := h hp m hm
    cases m with
    | object get => exact ⟨_, bind_eq_ok.2 ⟨_, hm, rfl⟩, rfl⟩
    | number | boolean | text => cases htype

/-- **Writing accessors as calls keeps the meaning of a tree**, and gives none to a tree in which only children are
indexed. -/
theorem parallel_callForm (t : ObjectType) (e : Expr) :
    Parallel (∀ n ∈ e.indexedNames, t.IsChild n) Eq (e.bind t) (e.callForm.bind t) := by
  induction e using Expr.bindInduction with
  | literal l => exact .refl _
  | name n =>
    cases hn : Builtin.find? n with
    | none =>
      rw [Expr.callForm, bind_call hn]
      exact .refl _
    | some f =>
      rw [Expr.callForm, Expr.bind, ObjectType.root, accessor?_of_builtin hn,
        bind_of_arity_ne hn (by cases f <;> simp [Builtin.arity])]
      exact .error
  | call n args hn =>
    rw [Expr.callForm, bind_call hn, bind_call hn,
      t.root_congr (Expr.map_literal?_callFormArgs args)]
    exact .refl _
  | builtin n f args hn harity ih =>
    rw [Expr.callForm, Expr.callFormArgs_eq_map]
    refine (parallel_builtin t t hn harity ?_).imp fun _ _ h => Meaning.Alike.eq h
    refine List.forall₂_map_right_iff.2 (List.forall₂_same.2 fun a ha => ?_)
    refine ((ih a ha).mono fun h m hm => h m (Expr.mem_indexedNamesOfArgs hm ha)).imp fun m _ h => ?_
    exact h ▸ .refl m
  | misfit n f args hn harity =>
    rw [Expr.callForm, Expr.callFormArgs_eq_map, bind_of_arity_ne hn harity,
      bind_of_arity_ne hn (by rwa [List.length_map])]
    exact .error
  | member base n ih => exact ih.bind_eq fun _ => .refl _
  | memberCall base n args ih =>
    refine (ih.mono fun h n hn => h n (List.mem_append_left _ hn)).bind_eq fun m => ?_
    rw [Meaning.member_congr (Expr.map_literal?_callFormArgs args)]
    exact .refl _
  | indexName n i =>
    have hi : [i.callForm].map Expr.literal? = [i].map Expr.literal? := Expr.map_literal?_callFormArgs [i]
    cases hn : Builtin.find? n with
    | none =>
      rw [Expr.callForm, bind_call hn, t.root_congr hi]
      exact parallel_indexed fun h _ hm => type_of_root (h n List.mem_cons_self) hm
    | some f =>
      -- A builtin function is no accessor, but may be called.
      have hroot : t.root n [i] = .error (.unknownAccessor t.kind n) := by
        rw [ObjectType.root, accessor?_of_builtin hn]
      rw [Expr.bind, hroot]
      refine .error_of_not fun h => ?_
      cases hn.symm.trans (find?_of_isChild (h n List.mem_cons_self))
  | indexMember base n i ih =>
    have hi : [i.callForm].map Expr.literal? = [i].map Expr.literal? := Expr.map_literal?_callFormArgs [i]
    have hnames : ∀ {q : String → Prop}, (∀ m ∈ (Expr.index (.member base n) i).indexedNames, q m) →
        q n ∧ ∀ m ∈ base.indexedNames, q m :=
      fun h => ⟨h n List.mem_cons_self, fun m hm => h m (List.mem_cons_of_mem _ (List.mem_append_left _ hm))⟩
    refine (ih.mono fun h => (hnames h).2).bind_eq fun m => ?_
    rw [Meaning.member_congr hi]
    exact parallel_indexed fun h _ hm => type_of_member (hnames h).1 hm
  | indexOther base i hname hmember =>
    rw [bind_index_error hname hmember, Expr.callForm, bind_index_error base.callForm_ne_name base.callForm_ne_member]
    · exact .error
    · exact hname
    · exact hmember
  | binary op l r ihl ihr =>
    simp only [Expr.indexedNames, List.forall_mem_append]
    exact (ihl.mono fun h => h.1).bind_eq fun _ => (ihr.mono fun h => h.2).bind_eq fun _ => .refl _
  | unary op e ih => exact ih.bind_eq fun _ => .refl _
  | conditional c l r ihc ihl ihr =>
    simp only [Expr.indexedNames, List.forall_mem_append]
    exact (ihc.mono fun h => h.1).bind_eq fun _ => (Parallel.refl _).bind_eq fun _ =>
      (ihl.mono fun h => h.2.1).bind_eq fun _ => (ihr.mono fun h => h.2.2).bind_eq fun _ => .refl _

/-- **The forms of accessors are interchangeable.**  A tree with a meaning keeps it, and with it its type and its values,
when every accessor is written as a call.  If the tree that is written so has a meaning, the tree had it already, unless
something other than a child is indexed in it. -/
theorem bind_callForm (t : ObjectType) (e : Expr) :
    (∀ m, e.bind t = .ok m → e.callForm.bind t = .ok m) ∧
    ((∀ n ∈ e.indexedNames, t.IsChild n) → ∀ m, e.callForm.bind t = .ok m → e.bind t = .ok m) := by
  have hparallel := parallel_callForm t e
  refine ⟨fun m hm => ?_, fun hnames m hm => ?_⟩
  · obtain ⟨m', hm', rfl⟩ := hparallel.forth m hm
    exact hm'
  · obtain ⟨m', hm', rfl⟩ := hparallel.back hnames m hm
    exact hm'

/-- Every form of an accessor in one tree. -/
theorem bind_callForm_forms :
    let e : Expr := .binary .add (.member (.index (.member (.index (.name "daughter") (.literal (.integer 1))) "daughter")
      (.literal (.integer 0))) "pt") (.call "max" [.name "eta", .call "userFloat" [.literal (.string "iso")]])
    ∃ m, e.bind .composite = .ok m ∧ e.callForm.bind .composite = .ok m ∧
      ∀ n ∈ e.indexedNames, ObjectType.composite.IsChild n := by
  intro e
  have hm : e.bind .composite = .ok (.number _) := rfl
  have hnames : ∀ n ∈ e.indexedNames, ObjectType.composite.IsChild n := by
    have hchild : ObjectType.composite.IsChild "daughter" := ⟨_, rfl, rfl⟩
    intro n hn
    obtain rfl : n = "daughter" := by simpa [e, Expr.indexedNames, Expr.indexedNamesOfArgs] using hn
    exact hchild
  have hcall := (bind_callForm .composite e).1 _ hm
  exact ⟨_, (bind_callForm .composite e).2 hnames _ hcall, hcall, hnames⟩

/-- A key in brackets is refused, and in parentheses it is not. -/
example :
    let e : Expr := .index (.name "userFloat") (.literal (.string "iso"))
    (e.bind .muon).isOk = false ∧ (e.callForm.bind .muon).isOk = true := ⟨rfl, rfl⟩

end FlatNtuple
