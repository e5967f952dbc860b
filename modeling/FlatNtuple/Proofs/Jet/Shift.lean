import FlatNtuple.Jet.Shift
import FlatNtuple.Proofs.Kinematics.Scaling
/-!
# Which shifted jets are finite

Of jets with moderate components, those with a transverse momentum have finite shifted jets, unless they are so near the
beam that the ratio of their momenta is out of range.  Jets along the beam have none (`shift_outcome`).
-/
namespace FlatNtuple

open Binary

/-- The factors that an uncertainty below one scales by. -/
theorem within_factor {u : Float} (hu : 0 ≤ u) (hu' : u < 1) : Within 1 (1 + u) ∧ Within 1 (1 - u) := by
  have hfinite := isFinite_of_le_of_lt hu hu' (by decide)
  have hlow := value_le (by decide) hfinite hu
  have hhigh := (value_le hfinite between_one.isFinite (le_of_lt hu')).trans between_one.le
  rw [value_of_zero (s := .positive) rfl] at hlow
  have hwithin : Within 0 u := ⟨hfinite, by rwa [abs_of_nonneg hlow]⟩
  exact ⟨between_one.within.add hwithin le_rfl (by omega) (by omega),
    between_one.within.sub hwithin le_rfl (by omega) (by omega)⟩

namespace Elementary
variable {f : Elementary} {factor : Float}

def relative (f : Elementary) (s : UncertaintySource) (j : Jet) : Float := s (f.eta j.p4) j.p4.pt

def shift (f : Elementary) (s : UncertaintySource) (jets : List Jet) : ShiftedJets where
  up := jets.map fun j => { j with p4 := f.scalePt j.p4 (1 + f.relative s j) }
  down := jets.map fun j => { j with p4 := f.scalePt j.p4 (1 - f.relative s j) }

/-- With the functions of the core library, jets are shifted as the program does. -/
theorem core_shift (s : UncertaintySource) (jets : List Jet) : core.shift s jets = s.shift jets := rfl

/-- What becomes of a jet that is scaled. -/
structure Outcome (f : Elementary) (j j' : Jet) : Prop where
  isFinite_iff : j'.p4.IsFinite ↔ (f.slope j.p4).isFinite = true
  /-- A momentum of moderate slope stays finite, -/
  moderate : (j.p4.pt == 0) = false → (j.p4.pz / j.p4.pt).abs ≤ powerOfTwo 1000 → j'.p4.IsFinite
  /-- and so does none at all. -/
  at_rest : (j.p4.pt == 0) = true → (j.p4.pz == 0) = true → j'.p4.IsFinite
  /-- One so near the beam that its slope is infinite does not, -/
  steep : (j.p4.pt == 0) = false → (j.p4.pz / j.p4.pt).isFinite = false → ¬j'.p4.IsFinite
  /-- nor does one along it. -/
  along_beam : (j.p4.pt == 0) = true → (j.p4.pz == 0) = false →
    j'.p4.pz.isNaN = true ∧ j'.p4.energy.isNaN = true

theorem outcome (hf : f.Lawful) {j : Jet} (h : j.p4.Moderate) (hfactor : Within 1 factor) :
    f.Outcome j { j with p4 := f.scalePt j.p4 factor } where
  isFinite_iff := scalePt_isFinite_iff hf h hfactor
  moderate hpt hratio := (scalePt_isFinite_iff hf h hfactor).2 (slope_isFinite_of_le hf hpt hratio)
  at_rest hpt hpz := (scalePt_isFinite_iff hf h hfactor).2 (slope_isFinite_at_rest hf hpt hpz)
  steep hpt hratio hfinite := by
    rw [ratio_isFinite hf h hpt ((scalePt_isFinite_iff hf h hfactor).1 hfinite)] at hratio
    cases hratio
  along_beam hpt hpz := scalePt_along_beam hpt hpz factor

/-- **Which shifted jets are finite.**  Those of jets with moderate components are, both up and down, unless a jet goes
along the beam or so near it that the ratio of the momenta is out of range. -/
theorem shift_outcome (hf : f.Lawful) {s : UncertaintySource} {jets : List Jet} (h : ∀ j ∈ jets, j.p4.Moderate)
    (hu : ∀ j ∈ jets, 0 ≤ f.relative s j ∧ f.relative s j < 1) :
    List.Forall₂ f.Outcome jets (f.shift s jets).up ∧ List.Forall₂ f.Outcome jets (f.shift s jets).down := by
  have hfactor : ∀ j ∈ jets, Within 1 (1 + f.relative s j) ∧ Within 1 (1 - f.relative s j) :=
    fun j hj => within_factor (hu j hj).1 (hu j hj).2
  constructor <;> rw [shift, List.forall₂_map_right_iff, List.forall₂_same]
  · exact fun j hj => outcome hf (h j hj) (hfactor j hj).1
  · exact fun j hj => outcome hf (h j hj) (hfactor j hj).2

/-- Functions that are exact for a momentum in the plane of the beam whose slope is four thirds. -/
def sampled : Elementary where
  sin _ := 0
  cos _ := 1
  sinh x := if x = 1.0986122886681098 then 4 / 3 else 0
  asinh x := if x.isInf then x else if x = 4 / 3 then 1.0986122886681098 else 0
  atan2 _ _ := 0

theorem sampled_lawful : sampled.Lawful where
  sin_le _ := (by decide : (0 : Float).abs ≤ 1)
  cos_le _ := (by decide : (1 : Float).abs ≤ 1)
  atan2_isFinite _ _ := (by decide : (0 : Float).isFinite = true)
  asinh_isInf {x} h := by
    change (if x.isInf then x else _).isInf = true
    rwa [if_pos h]
  asinh_le {x} h := by
    change (if x.isInf then x else if x = 4 / 3 then 1.0986122886681098 else 0 : Float).abs ≤ 711
    rw [isInf_of_isFinite (isFinite_of_abs_le h (by decide +kernel)), if_neg Bool.false_ne_true]
    split <;> decide
  sinh_zero := by decide
  sinh_asinh_isFinite _ := by
    change (if _ = _ then 4 / 3 else 0 : Float).isFinite = true
    split <;> decide
  sinh_asinh_le {x} h _ := by
    have hasinh : sampled.asinh x = if x = 4 / 3 then 1.0986122886681098 else 0 := by
      change (if x.isInf then x else _) = _
      rw [isInf_of_isFinite h, if_neg Bool.false_ne_true]
    rw [hasinh]
    split
    · rename_i hx
      rw [hx, show sampled.sinh 1.0986122886681098 = 4 / 3 by decide]
      linarith [abs_nonneg (value (4 / 3))]
    · rw [show sampled.sinh 0 = 0 by decide, value_of_zero (s := .positive) rfl, abs_zero]
      positivity

/-- A jet with a transverse momentum. -/
def central : Jet := { p4 := { px := 3, pz := 4, energy := 5 } }

/-- A jet without. -/
def forward : Jet := { p4 := { pz := 10, energy := 10 } }

theorem moderate_central_forward : ∀ j ∈ [central, forward], j.p4.Moderate := by
  unfold FourVector.Moderate
  decide +kernel

theorem shift_outcome_central_forward : ∃ j j', (sampled.shift (.constant 0.1) [central, forward]).up = [j, j'] ∧
    j.p4.IsFinite ∧ j'.p4.pz.isNaN = true := by
  have hu : ∀ j ∈ [central, forward],
      0 ≤ sampled.relative (.constant 0.1) j ∧ sampled.relative (.constant 0.1) j < 1 :=
    fun _ _ => (by decide : (0 : Float) ≤ 0.1 ∧ (0.1 : Float) < 1)
  have hup := (shift_outcome sampled_lawful moderate_central_forward hu).1
  generalize (sampled.shift (.constant 0.1) [central, forward]).up = up at hup ⊢
  cases hup with
  | cons h hrest =>
    cases hrest with
    | cons h' hnil =>
      cases hnil
      exact ⟨_, _, rfl, h.moderate (by decide +kernel) (by decide +kernel),
        (h'.along_beam (by decide) (by decide)).1⟩

/-- The jet along the beam has no finite shifted jet, up or down. -/
theorem forward_not_isFinite : forward.p4.Moderate ∧ (0 : Float) ≤ 0.1 ∧ (0.1 : Float) < 1 ∧
    (∀ j ∈ ((UncertaintySource.constant 0.1).shift [forward]).up, ¬j.p4.IsFinite) ∧
    ∀ j ∈ ((UncertaintySource.constant 0.1).shift [forward]).down, ¬j.p4.IsFinite := by
  have hscaled : ∀ factor, ¬(forward.p4.scalePt factor).IsFinite := by
    intro factor h
    have hnan := (scalePt_along_beam (f := core) (v := forward.p4) (by decide +kernel) (by decide +kernel) factor).1
    rw [← core_scalePt] at h
    rw [(isFinite_iff.1 h.pz).1] at hnan
    cases hnan
  refine ⟨moderate_central_forward _ (by simp), by decide, by decide, ?_, ?_⟩ <;> intro j hj <;>
    rw [List.mem_singleton.1 hj] <;> exact hscaled _

end Elementary
end FlatNtuple
