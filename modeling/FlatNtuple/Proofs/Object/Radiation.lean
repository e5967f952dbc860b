import FlatNtuple.Proofs.Binary.NegativeZero
import FlatNtuple.Proofs.Function.Leading
/-!
# Photons radiated in the final state

The momentum without radiated photons is the momentum that a composite has once every composite in it has lost its
photons (`Composite.p4WithoutFsr_eq`).  A composite without photons still adds their sum, which is zero, to that of its
daughters; a sum does not change when zero is added to it, since it starts from zero and so has no negative zero among its
components (`FourVector.sum_add_zero`).
-/
namespace FlatNtuple

/-! ## Adding zero to a sum -/

namespace FourVector

/-- What holds of every sum, and lets zero be added without effect. -/
structure Steady (v : FourVector) : Prop where
  px : v.px ≠ -0
  py : v.py ≠ -0
  pz : v.pz ≠ -0
  energy : v.energy ≠ -0
  isNaN_of_nanBackward : v.nanBackward = true → v.pz.isNaN = true

theorem steady_zero : zero.Steady := ⟨by decide, by decide, by decide, by decide, nofun⟩

theorem Steady.add {v : FourVector} (h : v.Steady) (w : FourVector) : (v.add w).Steady where
  px := Binary.add_ne_negZero h.px w.px
  py := Binary.add_ne_negZero h.py w.py
  pz := Binary.add_ne_negZero h.pz w.pz
  energy := Binary.add_ne_negZero h.energy w.energy
  isNaN_of_nanBackward := fun hback => (Bool.and_eq_true_iff.1 hback).1

theorem steady_foldl {v : FourVector} (h : v.Steady) (l : List FourVector) : (l.foldl FourVector.add v).Steady := by
  induction l generalizing v with
  | nil => exact h
  | cons w rest ih => exact ih (h.add w)

theorem Steady.add_zero {v : FourVector} (h : v.Steady) : v + zero = v := by
  have hpz : v.pz + 0 = v.pz := Binary.add_zero_of_ne h.pz
  have hback : ((v.pz + 0).isNaN && nanBackwardOf v zero) = v.nanBackward := by
    rw [hpz, nanBackwardOf]
    cases hnan : v.pz.isNaN with
    | true => rfl
    | false =>
      cases hv : v.nanBackward with
      | false => rfl
      | true => cases hnan.symm.trans (h.isNaN_of_nanBackward hv)
  change v.add zero = v
  cases v
  simp only [FourVector.add, zero, FourVector.mk.injEq]
  exact ⟨Binary.add_zero_of_ne h.px, Binary.add_zero_of_ne h.py, hpz, Binary.add_zero_of_ne h.energy, hback⟩

/-- **A sum does not change when zero is added.** -/
theorem sum_add_zero (l : List FourVector) : sum l + zero = sum l := (steady_foldl steady_zero l).add_zero

end FourVector

/-! ## Composites without photons -/

mutual

/-- A particle in which no composite has photons. -/
def Particle.withoutPhotons : Particle → Particle
  | .electron e => .electron e
  | .muon m => .muon m
  | .jet j => .jet j
  | .composite c => .composite c.withoutPhotons

def Composite.withoutPhotons : Composite → Composite
  | ⟨daughters, _, pdgId, user⟩ => ⟨Particle.allWithoutPhotons daughters, [], pdgId, user⟩

def Particle.allWithoutPhotons : List Particle → List Particle
  | [] => []
  | d :: rest => d.withoutPhotons :: Particle.allWithoutPhotons rest

end

mutual

theorem Particle.p4WithoutFsr_eq : ∀ p : Particle, p.p4WithoutFsr = p.withoutPhotons.p4
  | .electron _ | .muon _ | .jet _ => rfl
  | .composite c => Composite.p4WithoutFsr_eq c

/-- **The momentum without radiated photons is that of the composite without photons at any level.** -/
theorem Composite.p4WithoutFsr_eq : ∀ c : Composite, c.p4WithoutFsr = c.withoutPhotons.p4
  | ⟨daughters, photons, pdgId, user⟩ => by
    change FourVector.sum (Particle.momentaWithoutFsr daughters) =
      .sum (Particle.momenta (Particle.allWithoutPhotons daughters)) + .zero
    rw [FourVector.sum_add_zero, Particle.momentaWithoutFsr_eq]

theorem Particle.momentaWithoutFsr_eq : ∀ l : List Particle,
    Particle.momentaWithoutFsr l = Particle.momenta (Particle.allWithoutPhotons l)
  | [] => rfl
  | d :: rest => congrArg₂ List.cons (Particle.p4WithoutFsr_eq d) (Particle.momentaWithoutFsr_eq rest)

end

mutual

/-- Two particles differ at most in the photons of the composites inside. -/
inductive Particle.SameButPhotons : Particle → Particle → Prop
  | electron (e : Electron) : Particle.SameButPhotons (.electron e) (.electron e)
  | muon (m : Muon) : Particle.SameButPhotons (.muon m) (.muon m)
  | jet (j : Jet) : Particle.SameButPhotons (.jet j) (.jet j)
  | composite {c c' : Composite} (h : c.SameButPhotons c') : Particle.SameButPhotons (.composite c) (.composite c')

/-- Two composites differ at most in their photons and those of the composites inside. -/
inductive Composite.SameButPhotons : Composite → Composite → Prop
  | mk {daughters daughters' : List Particle} (h : Particle.AllSameButPhotons daughters daughters')
      (photons photons' : List FourVector) (pdgId : Int32) (user : UserData) :
      Composite.SameButPhotons ⟨daughters, photons, pdgId, user⟩ ⟨daughters', photons', pdgId, user⟩

inductive Particle.AllSameButPhotons : List Particle → List Particle → Prop
  | nil : Particle.AllSameButPhotons [] []
  | cons {d d' : Particle} {rest rest' : List Particle} (h : d.SameButPhotons d')
      (hrest : Particle.AllSameButPhotons rest rest') : Particle.AllSameButPhotons (d :: rest) (d' :: rest')

end

mutual

theorem Particle.SameButPhotons.withoutPhotons_eq : ∀ {p p' : Particle}, p.SameButPhotons p' →
    p.withoutPhotons = p'.withoutPhotons
  | _, _, .electron _ | _, _, .muon _ | _, _, .jet _ => rfl
  | _, _, .composite h => congrArg Particle.composite h.withoutPhotons_eq

/-- Composites that differ in photons only are the same without them. -/
theorem Composite.SameButPhotons.withoutPhotons_eq : ∀ {c c' : Composite}, c.SameButPhotons c' →
    c.withoutPhotons = c'.withoutPhotons
  | _, _, .mk h _ _ pdgId user => congrArg (fun l => (⟨l, [], pdgId, user⟩ : Composite)) h.allWithoutPhotons_eq

theorem Particle.AllSameButPhotons.allWithoutPhotons_eq : ∀ {l l' : List Particle}, Particle.AllSameButPhotons l l' →
    Particle.allWithoutPhotons l = Particle.allWithoutPhotons l'
  | _, _, .nil => rfl
  | _, _, .cons h hrest => congrArg₂ List.cons h.withoutPhotons_eq hrest.allWithoutPhotons_eq

end

/-! ## Quantities without photons -/

namespace Native

/-- The quantities of composites that leave the radiated photons out, by their names. -/
def photonFree : List (String × (FourVector → Float)) :=
  [("massNoFSR", FourVector.mass), ("ptNoFSR", FourVector.pt), ("etaNoFSR", FourVector.eta),
   ("phiNoFSR", FourVector.phi), ("energyNoFSR", FourVector.energy)]

theorem get?_table_of_photonFree {q : String × (FourVector → Float)} (hq : q ∈ photonFree) :
    (table .float .composite).get? q.1 = some ⟨q.1, .object, withoutFsr q.2⟩ := by
  revert q
  simp only [photonFree, List.forall_mem_cons, List.not_mem_nil, false_imp_iff, implies_true, and_true]
  exact ⟨get?_table_of_own rfl, get?_table_of_own rfl, get?_table_of_own rfl, get?_table_of_own rfl,
    get?_table_of_own rfl⟩

end Native

/-- **Radiated photons are left out at every level.**  The momentum without them is that of the composite in which no
composite has photons.  A library hands a function out for each quantity without them; it takes the quantity of that
momentum, so that composites which differ in photons only, however deep, have the same value. -/
theorem FunctionLibrary.get_photonFree (l : FunctionLibrary .float .composite) :
    (∀ c : Composite, c.p4WithoutFsr = c.withoutPhotons.p4) ∧
    ∀ q ∈ Native.photonFree, ∃ f, (l.get q.1).1 = .ok f ∧
      (∀ (c : Composite) (e : Event), f.call c e = Binary.narrow (q.2 c.withoutPhotons.p4)) ∧
      ∀ (c c' : Composite) (e e' : Event), c.SameButPhotons c' → f.call c e = f.call c' e' := by
  refine ⟨Composite.p4WithoutFsr_eq, fun q hq => ?_⟩
  have hvalue (c : Composite) (e : Event) : Native.withoutFsr q.2 c e = Binary.narrow (q.2 c.withoutPhotons.p4) := by
    rw [Native.withoutFsr, c.p4WithoutFsr_eq]
  refine ⟨_, congrArg Prod.fst (get_native (Native.get?_table_of_photonFree hq)), hvalue, fun c c' e e' h => ?_⟩
  change Native.withoutFsr q.2 c e = Native.withoutFsr q.2 c' e'
  rw [hvalue, hvalue, h.withoutPhotons_eq]

/-- Photons move from one daughter to the other and off the pair: the momentum changes, and without photons it does not. -/
theorem FunctionLibrary.get_photonFree_pair :
    let l : FunctionLibrary .float .composite := {}
    let muon : Particle := .muon { p4 := { px := 3, energy := 5 } }
    let z (photons : List FourVector) : Particle := .composite ⟨[muon, muon], photons, 23, {}⟩
    let c : Composite := ⟨[z [{ px := 1, energy := 1 }], z []], [{ py := 2, energy := 2 }], 25, {}⟩
    let c' : Composite := ⟨[z [], z [{ pz := 4, energy := 4 }]], [], 25, {}⟩
    c.SameButPhotons c' ∧ c.p4.energy = 23 ∧ c'.p4.energy = 24 ∧ c.withoutPhotons.p4.energy = 20 ∧
    c.p4WithoutFsr = c.withoutPhotons.p4 ∧
    ∃ f, (l.get "massNoFSR").1 = .ok f ∧ ∀ e e', f.call c e = f.call c' e' := by
  intro l muon z c c'
  have hz (photons photons' : List FourVector) : (z photons).SameButPhotons (z photons') :=
    .composite (.mk (.cons (.muon _) (.cons (.muon _) .nil)) _ _ _ _)
  have hsame : c.SameButPhotons c' := .mk (.cons (hz _ _) (.cons (hz _ _) .nil)) _ _ _ _
  obtain ⟨hp4, hlibrary⟩ := FunctionLibrary.get_photonFree l
  obtain ⟨f, hf, -, hcall⟩ := hlibrary ("massNoFSR", FourVector.mass) (by simp [Native.photonFree])
  exact ⟨hsame, by decide +kernel, by decide +kernel, by decide +kernel, hp4 c, f, hf,
    fun e e' => hcall c c' e e' hsame⟩

end FlatNtuple
