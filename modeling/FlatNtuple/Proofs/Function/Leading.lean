import FlatNtuple.Proofs.Function.Erasure
/-!
# What functions read of events

But for the three counts, the native functions read of an event only its id, the missing momentum, the generator's
weight, the first vertex, the two leading jets and generated jets and the pileup of the bunch crossing that was
triggered, and compiled expressions read nothing.  So a function takes events that agree on these parts to the same
value, and a quantity whose part is absent has the value that stands for it (`get_leading`).
-/
namespace FlatNtuple

/-- The first pileup of the bunch crossing that was triggered. -/
def Event.inTime? (e : Event) : Option Pileup := (e.pileup.getD []).find? fun p => p.bunchCrossing = 0

/-- Two events agree on the parts that functions read. -/
structure Event.Agree (e e' : Event) : Prop where
  id : e.id = e'.id
  met : e.met = e'.met
  genWeight : e.genWeight = e'.genWeight
  vertex : e.vertices[0]? = e'.vertices[0]?
  jet : ∀ i < 2, e.jets[i]? = e'.jets[i]?
  genJet : ∀ i < 2, e.genJets[i]? = e'.genJets[i]?
  inTime : e.inTime? = e'.inTime?

/-- A function of events that takes events which agree to the same value. -/
def Leading {β : Type} (f : Event → β) : Prop := ∀ e e', e.Agree e' → f e = f e'

namespace Leading

variable {β γ : Type}

theorem const (b : β) : Leading fun _ => b := fun _ _ _ => rfl

theorem comp {g : Event → β} (hg : Leading g) (f : β → γ) : Leading fun e => f (g e) :=
  fun e e' h => congrArg f (hg e e' h)

theorem id : Leading Event.id := fun _ _ h => h.id

theorem met : Leading Event.met := fun _ _ h => h.met

theorem genWeight : Leading Event.genWeight := fun _ _ h => h.genWeight

theorem primaryVertex? : Leading Event.primaryVertex? := fun e e' h => by
  rw [Event.primaryVertex?, Event.primaryVertex?, List.head?_eq_getElem?, List.head?_eq_getElem?, h.vertex]

theorem trueInteractions? : Leading Event.trueInteractions? := fun _ _ h =>
  congrArg (Option.map Pileup.trueInteractions) h.inTime

theorem floatOr {g : Event → Option β} (hg : Leading g) (missing : Float32) (f : β → Float) :
    Leading fun e => Native.floatOr missing ((g e).map f) := hg.comp fun o => Native.floatOr missing (o.map f)

end Leading

namespace Native

variable {k : ReturnKind} {t : ObjectType} {name : String}

theorem leading_jet? {i : ℕ} (hi : i < 2) : Leading (jet? i) := fun _ _ h => congrArg (Option.map Jet.p4) (h.jet i hi)

theorem leading_genJet? {i : ℕ} (hi : i < 2) : Leading (genJet? i) := fun _ _ h => h.genJet i hi

theorem leading_qgLikelihood {i : ℕ} (hi : i < 2) : Leading (qgLikelihood i) := fun e e' h => by
  rw [qgLikelihood, qgLikelihood, h.jet i hi]

theorem leading_pair? {get : ℕ → Event → Option FourVector} (h : ∀ i < 2, Leading (get i)) : Leading (pair? get) :=
  fun e e' he => by rw [pair?, pair?, h 0 (by decide) e e' he, h 1 (by decide) e e' he]

theorem leading_mtToMet (p4 : FourVector) : Leading (mtToMet p4) := fun e e' h => by
  rw [mtToMet, mtToMet, h.met]

theorem leading_eventFloats : ∀ q ∈ eventFloats, Leading q.2 := by
  have hvertex (f : Vertex → Float) : Leading (ofVertex f) := Leading.primaryVertex?.floatOr _ f
  have hmet (f : FourVector → Float) : Leading fun e => Binary.narrow (f e.met) :=
    Leading.met.comp fun p4 => Binary.narrow (f p4)
  have hjet {i : ℕ} (hi : i < 2) (s : Float32) (f : FourVector → Float) := (leading_jet? hi).floatOr s f
  have hpair (s : Float32) (f : FourVector → Float) := (leading_pair? fun i => leading_jet? (i := i)).floatOr s f
  have hgenJet {i : ℕ} (hi : i < 2) (s : Float32) (f : FourVector → Float) := (leading_genJet? hi).floatOr s f
  simp only [eventFloats, List.forall_mem_cons, List.not_mem_nil, false_imp_iff, implies_true, and_true]
  exact ⟨hvertex _, hvertex _, hvertex _, Leading.trueInteractions?.comp fun o => o.getD missingMomentum,
    hmet _, hmet _, Leading.genWeight.comp _, hjet Nat.two_pos _ _, hjet Nat.two_pos _ _, hjet Nat.two_pos _ _,
    hjet Nat.one_lt_two _ _, hjet Nat.one_lt_two _ _, hjet Nat.one_lt_two _ _, hpair _ _, hpair _ _, hpair _ _,
    hpair _ _, leading_qgLikelihood Nat.two_pos, leading_qgLikelihood Nat.one_lt_two, hgenJet Nat.two_pos _ _,
    hgenJet Nat.one_lt_two _ _, hgenJet Nat.two_pos _ _, hgenJet Nat.one_lt_two _ _, hgenJet Nat.two_pos _ _,
    hgenJet Nat.one_lt_two _ _, (leading_pair? fun i => leading_genJet? (i := i)).floatOr _ _⟩

/-- The functions that count. -/
def counts : List String := ["nvtx", "nJets", "nGenJets"]

theorem leading_shared {α : Type} (c : Candidate α) (k : ReturnKind) :
    ∀ q ∈ shared c k, q.1 ∉ counts → ∀ x, Leading (q.2 x) := by
  cases k with
  | float =>
    rw [shared, List.forall_mem_cons, List.forall_mem_map]
    exact ⟨fun _ x => leading_mtToMet (c.p4 x), fun q hq _ x => leading_eventFloats q hq⟩
  | bool =>
    simp only [shared, List.forall_mem_cons, List.not_mem_nil, false_imp_iff, implies_true, and_true]
    exact ⟨fun _ _ => Leading.primaryVertex?.comp fun v => (v.map Vertex.isValid).getD false,
      fun _ _ => Leading.primaryVertex?.comp fun v => (v.map Vertex.isFake).getD true⟩
  | int =>
    simp only [shared, List.forall_mem_cons, List.not_mem_nil, false_imp_iff, implies_true, and_true]
    exact ⟨fun _ x => .const _, fun _ x => .const _⟩
  | uint =>
    simp only [shared, List.forall_mem_cons, List.not_mem_nil, false_imp_iff, implies_true, and_true]
    exact ⟨fun _ x => Leading.id.comp _, fun _ x => Leading.id.comp _, fun h => absurd (by decide) h,
      fun h => absurd (by decide) h, fun h => absurd (by decide) h⟩
  | ulong =>
    simp only [shared, List.forall_mem_cons, List.not_mem_nil, false_imp_iff, implies_true, and_true]
    exact fun _ x => Leading.id.comp _

theorem leading_toVertex (f : Track → Point → Float) (track : Option Track) : Leading (toVertex f track) :=
  Leading.primaryVertex?.comp fun v => floatOr missingPosition do return f (← track) (← v).position

theorem leading_own (k : ReturnKind) (t : ObjectType) : ∀ q ∈ own k t, ∀ x, Leading (q.2 x) := by
  cases k <;> cases t <;>
    simp only [own, List.forall_mem_cons, List.not_mem_nil, false_imp_iff, implies_true, and_true]
  case float.electron =>
    exact ⟨fun _ => .const _, fun _ => leading_toVertex _ _, fun _ => leading_toVertex _ _⟩
  case float.muon =>
    exact ⟨fun _ => .const _, fun _ => leading_toVertex _ _, fun _ => leading_toVertex _ _⟩
  case uint.electron => exact fun _ => .const _
  case uint.muon => exact ⟨fun _ => .const _, fun _ => .const _⟩
  case bool.muon => exact ⟨fun _ => .const _, fun _ => .const _, fun _ => .const _⟩
  case bool.composite => exact fun _ => .const _
  case float.composite =>
    exact ⟨fun _ => .const _, fun _ => .const _, fun _ => .const _, fun _ => .const _, fun _ => .const _,
      fun _ => .const _⟩

/-! ## What is not there -/

/-- What a quantity takes from an event or, beside it, from the object. -/
inductive Part
  | vertex
  | jet (i : ℕ)
  | genJet (i : ℕ)
  /-- The likelihood in the user data of a jet. -/
  | likelihood (i : ℕ)
  /-- The best track of a muon. -/
  | track

def Part.Absent (x : t.Record) (e : Event) : Part → Prop
  | vertex => e.vertices = []
  | jet i => e.jets.length ≤ i
  | genJet i => e.genJets.length ≤ i
  | likelihood i => ∀ j, e.jets[i]? = some j → j.user.floats.get? "qgLikelihood" = none
  | track => ∃ m, t.toParticle x = .muon m ∧ m.bestTrack = none

/-- A quantity, by its name: the parts that it needs, and its value where one of them is absent. -/
structure Quantity (k : ReturnKind) where
  name : String
  needs : List Part
  sentinel : k.Carrier

/-- The quantities of vertices and jets that all objects have: `-1` stands for a momentum, a mass or a likelihood and
`-999` for a place or an angle. -/
def sharedQuantities : (k : ReturnKind) → List (Quantity k)
  | .float =>
    [⟨"pvZ", [.vertex], -999⟩, ⟨"pvndof", [.vertex], -999⟩, ⟨"pvRho", [.vertex], -999⟩,
     ⟨"jet1Pt", [.jet 0], -1⟩, ⟨"jet1Eta", [.jet 0], -999⟩, ⟨"jet1Phi", [.jet 0], -999⟩,
     ⟨"jet2Pt", [.jet 1], -1⟩, ⟨"jet2Eta", [.jet 1], -999⟩, ⟨"jet2Phi", [.jet 1], -999⟩,
     ⟨"dijetMass", [.jet 0, .jet 1], -1⟩, ⟨"dijetPt", [.jet 0, .jet 1], -1⟩,
     ⟨"dijetEta", [.jet 0, .jet 1], -999⟩, ⟨"dijetPhi", [.jet 0, .jet 1], -999⟩,
     ⟨"jet1QGLikelihood", [.jet 0, .likelihood 0], -1⟩, ⟨"jet2QGLikelihood", [.jet 1, .likelihood 1], -1⟩,
     ⟨"genJet1Pt", [.genJet 0], -1⟩, ⟨"genJet1Eta", [.genJet 0], -999⟩, ⟨"genJet1Phi", [.genJet 0], -999⟩,
     ⟨"genJet2Pt", [.genJet 1], -1⟩, ⟨"genJet2Eta", [.genJet 1], -999⟩, ⟨"genJet2Phi", [.genJet 1], -999⟩,
     ⟨"mjjGen", [.genJet 0, .genJet 1], -1⟩]
  | .bool => [⟨"pvIsValid", [.vertex], false⟩, ⟨"pvIsFake", [.vertex], true⟩]
  | _ => []

/-- The quantities of a vertex that objects of one type have. -/
def ownQuantities : (k : ReturnKind) → (t : ObjectType) → List (Quantity k)
  | .float, .electron => [⟨"PVDZ", [.vertex], -999⟩, ⟨"PVDXY", [.vertex], -999⟩]
  | .float, .muon => [⟨"PVDZ", [.vertex, .track], -999⟩, ⟨"PVDXY", [.vertex, .track], -999⟩]
  | _, _ => []

/-- A function has the value of a quantity where a part is absent that the quantity needs. -/
def Quantity.Holds (q : Quantity k) (g : t.Record → Event → k.Carrier) : Prop :=
  ∀ x e, (∃ part ∈ q.needs, part.Absent x e) → g x e = q.sentinel

theorem missingPosition_eq : missingPosition = -999 := by decide +kernel

theorem missingMomentum_eq : missingMomentum = -1 := by decide +kernel

section
variable {x : t.Record} {e : Event} {i : ℕ}

theorem primaryVertex?_eq_none (h : Part.vertex.Absent x e) : e.primaryVertex? = none :=
  congrArg List.head? (show e.vertices = [] from h)

theorem jet?_eq_none (h : (Part.jet i).Absent x e) : jet? i e = none :=
  congrArg (Option.map Jet.p4) (List.getElem?_eq_none h)

theorem genJet?_eq_none (h : (Part.genJet i).Absent x e) : genJet? i e = none := List.getElem?_eq_none h

theorem pair?_eq_none {get : ℕ → Event → Option FourVector} (h : get 0 e = none ∨ get 1 e = none) :
    pair? get e = none := by
  unfold pair?
  obtain h | h := h
  · rw [h]
    rfl
  · rw [h]
    cases get 0 e <;> rfl

theorem qgLikelihood_eq (h : (Part.jet i).Absent x e ∨ (Part.likelihood i).Absent x e) : qgLikelihood i e = -1 := by
  rw [qgLikelihood, ← missingMomentum_eq]
  cases hj : e.jets[i]? with
  | none => rfl
  | some j =>
    obtain h | h := h
    · cases hj.symm.trans (List.getElem?_eq_none h)
    · rw [Option.bind_some, h j hj]
      rfl

theorem toVertex_eq {f : Track → Point → Float} {track : Option Track}
    (h : track = none ∨ (Part.vertex).Absent x e) : toVertex f track e = -999 := by
  rw [toVertex, ← missingPosition_eq]
  cases track with
  | none => rfl
  | some tr =>
    rw [primaryVertex?_eq_none (h.resolve_left nofun)]
    rfl

end

theorem get?_table_of_shared {g : t.Record → Event → k.Carrier} (h : (shared t.candidate k).lookup name = some g) :
    (table k t).get? name = some ⟨name, .shared, g⟩ := by
  have hown : (own k t).lookup name = none := by
    refine lookup_eq_none_iff_notMem.2 fun hmem => ?_
    have hnone := lookup_eq_none_iff_notMem.2 (own_names k t name hmem).2.1
    rw [lookup_shared, hnone] at h
    cases h
  rw [get?_table, hown, h]
  rfl

theorem get?_table_of_own {g : t.Record → Event → k.Carrier} (h : (own k t).lookup name = some g) :
    (table k t).get? name = some ⟨name, .object, g⟩ := by
  rw [get?_table, h]
  rfl

/-! ### Quantities of all objects -/

section
variable {i : ℕ} {missing s : Float32} {f : FourVector → Float} {get : ℕ → Event → Option FourVector}

theorem holds_floatOr {α : Type} {parts : List Part} {o : Event → Option α} {f : α → Float} (hs : missing = s)
    (h : ∀ (x : t.Record) e, (∃ part ∈ parts, part.Absent x e) → o e = none) :
    (⟨name, parts, s⟩ : Quantity .float).Holds fun (_ : t.Record) e => floatOr missing ((o e).map f) := by
  intro x e he
  change floatOr missing ((o e).map f) = s
  rw [h x e he]
  exact hs

theorem holds_vertex {f : Vertex → Float} :
    (⟨name, [.vertex], -999⟩ : Quantity .float).Holds fun (_ : t.Record) => ofVertex f :=
  holds_floatOr missingPosition_eq fun x e he => primaryVertex?_eq_none (x := x) (by simpa using he)

theorem holds_jet (hs : missing = s) : (⟨name, [.jet i], s⟩ : Quantity .float).Holds fun (_ : t.Record) e =>
    floatOr missing ((jet? i e).map f) :=
  holds_floatOr hs fun x e he => jet?_eq_none (x := x) (by simpa using he)

theorem holds_genJet (hs : missing = s) : (⟨name, [.genJet i], s⟩ : Quantity .float).Holds fun (_ : t.Record) e =>
    floatOr missing ((genJet? i e).map f) :=
  holds_floatOr hs fun x e he => genJet?_eq_none (x := x) (by simpa using he)

theorem holds_jets (hs : missing = s) : (⟨name, [.jet 0, .jet 1], s⟩ : Quantity .float).Holds fun (_ : t.Record) e =>
    floatOr missing ((pair? jet? e).map f) := by
  refine holds_floatOr hs fun x e he => pair?_eq_none ?_
  have habsent : (Part.jet 0).Absent x e ∨ (Part.jet 1).Absent x e := by simpa using he
  exact habsent.imp jet?_eq_none jet?_eq_none

theorem holds_genJets (hs : missing = s) :
    (⟨name, [.genJet 0, .genJet 1], s⟩ : Quantity .float).Holds fun (_ : t.Record) e =>
      floatOr missing ((pair? genJet? e).map f) := by
  refine holds_floatOr hs fun x e he => pair?_eq_none ?_
  have habsent : (Part.genJet 0).Absent x e ∨ (Part.genJet 1).Absent x e := by simpa using he
  exact habsent.imp genJet?_eq_none genJet?_eq_none

theorem holds_qgLikelihood : (⟨name, [.jet i, .likelihood i], -1⟩ : Quantity .float).Holds fun (_ : t.Record) =>
    qgLikelihood i :=
  fun x _ he => qgLikelihood_eq (x := x) (by simpa using he)

theorem holds_flag {f : Vertex → Bool} {b : Bool} :
    (⟨name, [.vertex], b⟩ : Quantity .bool).Holds fun (_ : t.Record) e => (e.primaryVertex?.map f).getD b := by
  intro x e he
  change (e.primaryVertex?.map f).getD b = b
  rw [primaryVertex?_eq_none (x := x) (by simpa using he)]
  rfl

end

theorem holds_sharedQuantities (k : ReturnKind) (t : ObjectType) : ∀ q ∈ sharedQuantities k,
    ∃ g, (shared t.candidate k).lookup q.name = some g ∧ q.Holds g := by
  have position := missingPosition_eq
  have momentum := missingMomentum_eq
  cases k with
  | float =>
    simp only [sharedQuantities, List.forall_mem_cons, List.not_mem_nil, false_imp_iff, implies_true, and_true]
    exact ⟨⟨_, rfl, holds_vertex⟩, ⟨_, rfl, holds_vertex⟩, ⟨_, rfl, holds_vertex⟩,
      ⟨_, rfl, holds_jet momentum⟩, ⟨_, rfl, holds_jet position⟩, ⟨_, rfl, holds_jet position⟩,
      ⟨_, rfl, holds_jet momentum⟩, ⟨_, rfl, holds_jet position⟩, ⟨_, rfl, holds_jet position⟩,
      ⟨_, rfl, holds_jets momentum⟩, ⟨_, rfl, holds_jets momentum⟩, ⟨_, rfl, holds_jets position⟩,
      ⟨_, rfl, holds_jets position⟩, ⟨_, rfl, holds_qgLikelihood⟩, ⟨_, rfl, holds_qgLikelihood⟩,
      ⟨_, rfl, holds_genJet momentum⟩, ⟨_, rfl, holds_genJet position⟩, ⟨_, rfl, holds_genJet position⟩,
      ⟨_, rfl, holds_genJet momentum⟩, ⟨_, rfl, holds_genJet position⟩, ⟨_, rfl, holds_genJet position⟩,
      ⟨_, rfl, holds_genJets momentum⟩⟩
  | bool =>
    simp only [sharedQuantities, List.forall_mem_cons, List.not_mem_nil, false_imp_iff, implies_true, and_true]
    exact ⟨⟨_, rfl, holds_flag⟩, ⟨_, rfl, holds_flag⟩⟩
  | int | uint | ulong => nofun

theorem holds_ownQuantities (k : ReturnKind) (t : ObjectType) : ∀ q ∈ ownQuantities k t,
    ∃ g, (own k t).lookup q.name = some g ∧ q.Holds g := by
  have helectron (name : String) (f : Track → Point → Float) : (⟨name, [.vertex], -999⟩ : Quantity .float).Holds
      fun (x : ObjectType.electron.Record) => toVertex f (some x.track) :=
    fun x _ he => toVertex_eq (x := x) (.inr (by simpa using he))
  have hmuon (name : String) (f : Track → Point → Float) : (⟨name, [.vertex, .track], -999⟩ : Quantity .float).Holds
      fun (x : ObjectType.muon.Record) => toVertex f x.bestTrack := by
    intro x e he
    have habsent : Part.vertex.Absent x e ∨ Part.track.Absent x e := by simpa using he
    refine toVertex_eq (x := x) (habsent.symm.imp_left ?_)
    rintro ⟨m, hm, htrack⟩
    cases hm
    exact htrack
  cases k <;> cases t
  case float.electron =>
    simp only [ownQuantities, List.forall_mem_cons, List.not_mem_nil, false_imp_iff, implies_true, and_true]
    exact ⟨⟨_, rfl, helectron _ _⟩, ⟨_, rfl, helectron _ _⟩⟩
  case float.muon =>
    simp only [ownQuantities, List.forall_mem_cons, List.not_mem_nil, false_imp_iff, implies_true, and_true]
    exact ⟨⟨_, rfl, hmuon _ _⟩, ⟨_, rfl, hmuon _ _⟩⟩
  all_goals nofun

/-- **The functions of the quantities have their values.** -/
theorem get?_table_of_quantity {q : Quantity k} (hq : q ∈ sharedQuantities k ++ ownQuantities k t) :
    ∃ f, (table k t).get? q.name = some f ∧ q.Holds f.call := by
  obtain hq | hq := List.mem_append.1 hq
  · obtain ⟨g, hg, hholds⟩ := holds_sharedQuantities k t q hq
    exact ⟨_, get?_table_of_shared hg, hholds⟩
  · obtain ⟨g, hg, hholds⟩ := holds_ownQuantities k t q hq
    exact ⟨_, get?_table_of_own hg, hholds⟩

theorem origin_of_get?_table {f : NamedFunction k t} (h : (table k t).get? name = some f) : f.origin ≠ .compiled := by
  rw [get?_table, Option.or_eq_some_iff, Option.map_eq_some_iff, Option.map_eq_some_iff] at h
  obtain ⟨g, -, rfl⟩ | ⟨-, g, -, rfl⟩ := h
  · nofun
  · nofun

/-- **Native functions but the counts read the parts on which events agree.** -/
theorem leading_of_get?_table {f : NamedFunction k t} (h : (table k t).get? name = some f) (hname : name ∉ counts)
    (x : t.Record) : Leading (f.call x) := by
  rw [get?_table, Option.or_eq_some_iff, Option.map_eq_some_iff, Option.map_eq_some_iff] at h
  obtain ⟨g, hg, rfl⟩ | ⟨-, g, hg, rfl⟩ := h
  · obtain ⟨before, after, heq, -⟩ := List.lookup_eq_some_iff.1 hg
    exact leading_own k t (name, g) (heq ▸ by simp) x
  · obtain ⟨before, after, heq, -⟩ := List.lookup_eq_some_iff.1 hg
    exact leading_shared t.candidate k (name, g) (heq ▸ by simp) hname x

end Native

namespace FunctionLibrary

variable {k : ReturnKind} {t : ObjectType} {name : String}

/-- What is handed out under a name is a native function or compiled. -/
theorem resolve_eq_ok {l : FunctionLibrary k t} {f : NamedFunction k t} (h : l.resolve name = .ok f) :
    (Native.table k t).get? name = some f ∨ ∃ g : Compiled k t, f = g.toFunction := by
  unfold resolve native at h
  split at h
  · cases h
  · split at h
    · rename_i hnative
      exact .inl (hnative.trans (congrArg some (Except.ok.inj h)))
    · split at h
      · exact .inr ⟨_, (Except.ok.inj h).symm⟩
      · cases h

/-- **What functions read of events.**  Whatever a library was asked before, a function that it hands out takes events
that agree to the same value, unless it is one of the three counts, and a compiled expression takes all events to the
same value.  A quantity of vertices or jets is handed out, and has its sentinel where a part is absent that it needs. -/
theorem get_leading (c : CompilerConfig) (k : ReturnKind) (t : ObjectType) (asked : List String) :
    let l := ({ compiler := c } : FunctionLibrary k t).after asked
    (∀ name f, (l.get name).1 = .ok f → name ∉ ["nvtx", "nJets", "nGenJets"] →
      ∀ x e e', e.Agree e' → f.call x e = f.call x e') ∧
    (∀ name f, (l.get name).1 = .ok f → f.origin = .compiled → ∀ x e e', f.call x e = f.call x e') ∧
    ∀ q ∈ Native.sharedQuantities k ++ Native.ownQuantities k t, ∃ f, (l.get q.name).1 = .ok f ∧
      ∀ x e, (∃ part ∈ q.needs, part.Absent x e) → f.call x e = q.sentinel := by
  intro l
  have hl := (remembers_nil (k := k) (t := t) c).after asked
  refine ⟨fun name f hf hname x => ?_, fun name f hf horigin x e e' => ?_, fun q hq => ?_⟩
  · rw [(hl.get name).1] at hf
    obtain hnative | ⟨g, rfl⟩ := resolve_eq_ok hf
    · exact Native.leading_of_get?_table hnative hname x
    · exact fun _ _ _ => rfl
  · rw [(hl.get name).1] at hf
    obtain hnative | ⟨g, rfl⟩ := resolve_eq_ok hf
    · exact absurd horigin (Native.origin_of_get?_table hnative)
    · rfl
  · obtain ⟨f, hf, hholds⟩ := Native.get?_table_of_quantity hq
    exact ⟨f, congrArg Prod.fst (get_native hf), hholds⟩

/-- A third jet, a second vertex and pileup of another bunch crossing do not matter, and one jet is too few for two. -/
theorem get_leading_muon :
    let l := ({ compiler := {} } : FunctionLibrary .float .muon).after ["pt * 2", "jet2Pt"]
    let jet (pt : Float) : Jet := { p4 := { px := pt, energy := pt } }
    let v (z : Float) : Vertex := { position := { z := z } }
    let e : Event := { vertices := [v 1, v 2], jets := [jet 50, jet 40, jet 30], pileup := some [⟨-1, 20⟩, ⟨0, 25⟩] }
    let e' : Event := { vertices := [v 1], jets := [jet 50, jet 40], pileup := some [⟨0, 25⟩] }
    e.Agree e' ∧
    (∃ f, (l.get "dijetMass").1 = .ok f ∧ (∀ x, f.call x e = f.call x e') ∧ ∀ x, f.call x { jets := [jet 50] } = -1) ∧
    ∃ f, (l.get "pt * 2").1 = .ok f ∧ f.origin = .compiled ∧ ∀ x, f.call x e = f.call x {} := by
  intro l jet v e e'
  have hagree : e.Agree e' :=
    ⟨rfl, rfl, rfl, rfl, fun | 0, _ => rfl | 1, _ => rfl, fun | 0, _ => rfl | 1, _ => rfl, rfl⟩
  obtain ⟨hleading, hcompiled, hquantities⟩ := get_leading {} .float .muon ["pt * 2", "jet2Pt"]
  obtain ⟨f, hf, hsentinel⟩ := hquantities ⟨"dijetMass", [.jet 0, .jet 1], -1⟩ (by simp [Native.sharedQuantities])
  have hok : (l.get "pt * 2").1.isOk := by decide +kernel
  obtain ⟨g, hg⟩ := exists_of_isOk hok
  have horigin : g.origin = .compiled := by
    have hsome : (l.get "pt * 2").1.toOption.map NamedFunction.origin = some .compiled := by decide +kernel
    rw [hg] at hsome
    exact Option.some.inj hsome
  refine ⟨hagree, ⟨f, hf, fun x => hleading _ f hf (by decide) x e e' hagree, fun x => ?_⟩, g, hg, horigin,
    fun x => hcompiled _ g hg horigin x e {}⟩
  exact hsentinel x _ ⟨.jet 1, by simp, by simp [Native.Part.Absent]⟩

end FunctionLibrary
end FlatNtuple
