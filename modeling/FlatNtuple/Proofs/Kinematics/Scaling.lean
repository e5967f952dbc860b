import FlatNtuple.Kinematics.FourVector
import FlatNtuple.Proofs.Binary.Hypot
/-!
# Momenta scaled by way of their polar components

The transverse momentum of a vector is scaled by taking its polar components and making a vector of them again.  A
vector along the beam does not come back: its pseudorapidity stands in for an infinite one, whose hyperbolic sine no
transverse momentum can make up for, and zero times infinity is NaN (`scalePt_along_beam`).  Any other vector in range
comes back finite if the ratio of its momenta does (`scalePt_isFinite_iff`).

Nothing is known here of the elementary functions of the core library, so they are parameters, of which the laws of
`Elementary.Lawful` are asked.
-/
namespace FlatNtuple

open Binary

namespace FourVector
variable {v : FourVector}

/-- The components are numbers, and not infinite. -/
structure IsFinite (v : FourVector) : Prop where
  px : v.px.isFinite = true
  py : v.py.isFinite = true
  pz : v.pz.isFinite = true
  energy : v.energy.isFinite = true

/-- The components are far below the end of the range. -/
def Moderate (v : FourVector) : Prop := ∀ c ∈ [v.px, v.py, v.pz, v.energy], c.abs ≤ 1e100

end FourVector

/-- The functions that polar components are made with, of some library. -/
structure Elementary where
  sin : Float → Float
  cos : Float → Float
  sinh : Float → Float
  asinh : Float → Float
  atan2 : Float → Float → Float

namespace Elementary
variable (f : Elementary)

/-- The functions of the core library. -/
def core : Elementary := ⟨Float.sin, Float.cos, Float.sinh, Float.asinh, Float.atan2⟩

/-- What is relied on of a library: its functions keep to the ranges of the exact ones, and the hyperbolic sine undoes
its inverse, up to a factor of two and as long as the result is not near the end of the range.  There the inverse may
overflow, as it does where it doubles its argument first. -/
structure Lawful : Prop where
  sin_le {x : Float} : x.isFinite = true → (f.sin x).abs ≤ 1
  cos_le {x : Float} : x.isFinite = true → (f.cos x).abs ≤ 1
  atan2_isFinite {y x : Float} : y.isFinite = true → x.isFinite = true → (f.atan2 y x).isFinite = true
  asinh_isInf {x : Float} : x.isInf = true → (f.asinh x).isInf = true
  asinh_le {x : Float} : x.abs ≤ powerOfTwo 1000 → (f.asinh x).abs ≤ 711
  sinh_zero : f.sinh 0 = 0
  sinh_asinh_isFinite {x : Float} : x.abs ≤ powerOfTwo 1000 → (f.sinh (f.asinh x)).isFinite = true
  sinh_asinh_le {x : Float} : x.isFinite = true → (f.sinh (f.asinh x)).isFinite = true →
    |value (f.sinh (f.asinh x))| ≤ 2 * |value x|

/-! ## Kinematics with the functions of a library -/

def hyperbolicSine (x : Float) : Float := if x.abs > 711 then x * infinity else f.sinh x

def ofPolar (etaBackward : Bool) (pt eta phi mass : Float) : FourVector :=
  let px := pt * f.cos phi
  let py := pt * f.sin phi
  let pz := pt * f.hyperbolicSine eta
  { px, py, pz
    energy := (px * px + py * py + pz * pz + mass * mass).sqrt
    nanBackward := pz.isNaN && if pt.isNaN then false else if eta.isNaN then etaBackward else true }

def phi (v : FourVector) : Float := if v.px == 0 && v.py == 0 then 0 else f.atan2 v.py v.px

def eta (v : FourVector) : Float :=
  let pt := v.pt
  if pt == 0 then
    if v.pz == 0 then 0 else if v.isBackward then -FourVector.etaAlongBeam else FourVector.etaAlongBeam
  else f.asinh (v.pz / pt)

def scalePt (v : FourVector) (factor : Float) : FourVector :=
  f.ofPolar (!v.pz.isNaN || v.nanBackward) (v.pt * factor) (f.eta v) (f.phi v) v.mass

theorem core_scalePt (v : FourVector) (factor : Float) : core.scalePt v factor = v.scalePt factor := rfl

/-- The ratio of the momentum along the beam to the transverse one, as the pseudorapidity has it. -/
def slope (v : FourVector) : Float := f.hyperbolicSine (f.eta v)

variable {f} {v : FourVector}

/-! ## Momenta along the beam -/

theorem hyperbolicSine_isInf {x : Float} (h : x.isInf = true) : (f.hyperbolicSine x).isInf = true := by
  obtain rfl | rfl := isInf_iff_eq.1 h <;> rw [hyperbolicSine, if_pos (by decide)] <;> decide

/-- Where the hyperbolic sine is finite, it is the library's. -/
theorem hyperbolicSine_eq {x : Float} (h : (f.hyperbolicSine x).isFinite = true) : f.hyperbolicSine x = f.sinh x := by
  unfold hyperbolicSine at h ⊢
  split at h
  · exact absurd (isFinite_of_mul h) (by decide)
  · rename_i hle
    rw [if_neg hle]

theorem slope_along_beam (hpt : (v.pt == 0) = true) (hpz : (v.pz == 0) = false) : (f.slope v).isInf = true := by
  have hlarge : ∀ x, x = -FourVector.etaAlongBeam ∨ x = FourVector.etaAlongBeam →
      (f.hyperbolicSine x).isInf = true := by
    rintro x (rfl | rfl) <;> rw [hyperbolicSine, if_pos (by decide)] <;> decide
  refine hlarge _ ?_
  unfold eta
  simp only [hpt, hpz, if_true, Bool.false_eq_true, if_false]
  split
  · exact .inl rfl
  · exact .inr rfl

/-- **A momentum along the beam becomes NaN, whatever it is scaled by.** -/
theorem scalePt_along_beam (hpt : (v.pt == 0) = true) (hpz : (v.pz == 0) = false) (factor : Float) :
    (f.scalePt v factor).pz.isNaN = true ∧ (f.scalePt v factor).energy.isNaN = true := by
  have hslope := slope_along_beam (f := f) hpt hpz
  have hnan : (v.pt * factor * f.slope v).isNaN = true := by
    obtain hzero | hnan := zero_mul_cases (y := factor) hpt
    · exact isNaN_zero_mul_infinity hzero hslope
    · exact isNaN_mul (.inl hnan)
  refine ⟨hnan, isNaN_sqrt (isNaN_add (.inl (isNaN_add (.inr (isNaN_mul (.inl ?_))))))⟩
  exact hnan

end Elementary

/-! ## Momenta in range -/

section
variable {a b c : Float} {n : ℤ}

/-- The sum of three squares. -/
theorem within_squares (ha : Within n a) (hb : Within n b) (hc : Within n c) (hlow : -500 ≤ n) (hhigh : n ≤ 500) :
    Within (n + n + 2) (a * a + b * b + c * c) ∧ 0 ≤ value (a * a + b * b + c * c) := by
  have haa : Within (n + n) (a * a) := ha.mul ha le_rfl (by omega) (by omega)
  have hbb : Within (n + n) (b * b) := hb.mul hb le_rfl (by omega) (by omega)
  have hcc : Within (n + n + 1) (c * c) := hc.mul hc (by omega) (by omega) (by omega)
  have hab : Within (n + n + 1) (a * a + b * b) := haa.add hbb le_rfl (by omega) (by omega)
  have hnonneg := value_add_nonneg haa hbb (by omega) (value_mul_self_nonneg ha (by omega))
    (value_mul_self_nonneg hb (by omega))
  exact ⟨hab.add hcc (by omega) (by omega) (by omega),
    value_add_nonneg hab hcc (by omega) hnonneg (value_mul_self_nonneg hc (by omega))⟩

end

namespace FourVector
variable {v : FourVector}

theorem within_bound : Within 333 1e100 := by
  have hbound : ofFloat 1e100 = .finite false 5147557589468029 280 := by decide +kernel
  refine ⟨isFinite_of_ofFloat hbound, ?_⟩
  rw [value, hbound]
  have hle : (5147557589468029 : ℚ) * 2 ^ (280 : ℤ) ≤ 2 ^ (333 : ℤ) := by
    calc (5147557589468029 : ℚ) * 2 ^ (280 : ℤ) ≤ 2 ^ (53 : ℤ) * 2 ^ (280 : ℤ) := by gcongr; norm_num
      _ = 2 ^ (53 + 280 : ℤ) := (zpow_add₀ two_ne_zero ..).symm
  change |((5147557589468029 : ℕ) : ℚ) * 2 ^ (280 : ℤ)| ≤ _
  rw [abs_of_nonneg (by positivity)]
  exact_mod_cast hle

namespace Moderate
variable (h : v.Moderate)
include h

theorem within {c : Float} (hc : c ∈ [v.px, v.py, v.pz, v.energy]) : Within 333 c :=
  within_of_abs_le (h c hc) within_bound

theorem pt : Within 343 v.pt := within_hypot (h.within (by simp)) (h.within (by simp))

theorem p : Within 335 v.p := by
  obtain ⟨hwithin, hnonneg⟩ := within_squares (h.within (by simp : v.px ∈ _)) (h.within (by simp : v.py ∈ _))
    (h.within (by simp : v.pz ∈ _)) (by omega) (by omega)
  exact hwithin.sqrt hnonneg (by omega) (by omega)

theorem mass : Within 336 v.mass := by
  have henergy := h.within (by simp : v.energy ∈ _)
  have hee : Within 670 (v.energy * v.energy) := henergy.mul henergy (by omega) (by omega) (by omega)
  have hpp : Within 670 (v.p * v.p) := h.p.mul h.p (by omega) (by omega) (by omega)
  have hsquare : Within 671 v.massSquared := hee.sub hpp (by omega) (by omega) (by omega)
  have hzero : value 0 = 0 := value_of_zero (s := .positive) rfl
  unfold FourVector.mass
  simp only
  split
  · rename_i hneg
    have hle := value_le hsquare.isFinite (by decide : (0 : Float).isFinite = true) (le_of_lt hneg)
    rw [hzero] at hle
    have hvalue := (isFinite_neg hsquare.isFinite).2
    exact (hsquare.neg.sqrt (by rw [hvalue]; linarith) (by omega) (by omega)).neg
  · rename_i hneg
    have hle := value_le (by decide : (0 : Float).isFinite = true) hsquare.isFinite
      (le_of_not_lt (by decide) (isFinite_iff.1 hsquare.isFinite).1 hneg)
    rw [hzero] at hle
    exact hsquare.sqrt hle (by omega) (by omega)

end Moderate
end FourVector

namespace Elementary
variable {f : Elementary} {v : FourVector} {factor : Float}

theorem phi_isFinite (hf : f.Lawful) (h : v.Moderate) : (f.phi v).isFinite = true := by
  unfold phi
  split
  · decide
  · exact hf.atan2_isFinite (h.within (by simp)).isFinite (h.within (by simp)).isFinite

theorem eta_eq (hpt : (v.pt == 0) = false) : f.eta v = f.asinh (v.pz / v.pt) := by
  unfold eta
  simp only [hpt, Bool.false_eq_true, if_false]

theorem slope_eq (hpt : (v.pt == 0) = false) (hslope : (f.slope v).isFinite = true) :
    f.slope v = f.sinh (f.asinh (v.pz / v.pt)) := by
  rw [slope, hyperbolicSine_eq hslope, eta_eq hpt]

/-- An infinite ratio stays infinite. -/
theorem ratio_isFinite (hf : f.Lawful) (h : v.Moderate) (hpt : (v.pt == 0) = false)
    (hslope : (f.slope v).isFinite = true) : (v.pz / v.pt).isFinite = true := by
  by_contra hratio
  have hnan := isNaN_div (h.within (by simp : v.pz ∈ _)).isFinite h.pt.isFinite hpt
  have hinf := hf.asinh_isInf (isInf_of_not_isFinite (Bool.eq_false_iff.2 hratio) hnan)
  have hslope' := isInf_of_isFinite hslope
  rw [slope, eta_eq hpt, hyperbolicSine_isInf hinf] at hslope'
  cases hslope'

/-- The slope is in proportion to the transverse momentum. -/
theorem within_slope (hf : f.Lawful) (h : v.Moderate) (hpt : (v.pt == 0) = false) (hslope : (f.slope v).isFinite = true)
    {k : ℤ} (hge : 2 ^ k ≤ |value v.pt|) (hlow : -600 ≤ k) (hhigh : k ≤ 343) : Within (334 - k) (f.slope v) := by
  have hle := hf.sinh_asinh_le (ratio_isFinite hf h hpt hslope)
  rw [← slope_eq hpt hslope] at hle
  have hratio : Within (333 - k) (v.pz / v.pt) :=
    (h.within (by simp : v.pz ∈ _)).div h.pt.isFinite hge (by omega) (by omega) (by omega)
  refine ⟨hslope, ?_⟩
  calc |value (f.slope v)| ≤ 2 * |value (v.pz / v.pt)| := hle hslope
    _ ≤ 2 * 2 ^ (333 - k) := by gcongr; exact hratio.le
    _ = 2 ^ (334 - k) := by rw [← zpow_one_add₀ two_ne_zero]; congr 1; omega

/-- The scaled momentum along the beam is not much longer than the one before. -/
theorem within_pz (hf : f.Lawful) (h : v.Moderate) (hfactor : Within 1 factor) (hslope : (f.slope v).isFinite = true) :
    Within 430 (v.pt * factor * f.slope v) := by
  cases hpt : v.pt == 0 with
  | true =>
    obtain ⟨s, hs⟩ := beq_zero_iff.1 hpt
    have hwithin : Within (-1074) v.pt := ⟨h.pt.isFinite, by rw [value_of_zero hs, abs_zero]; positivity⟩
    have hscaled : Within (-1073) (v.pt * factor) := hwithin.mul hfactor le_rfl (by omega) (by omega)
    exact hscaled.mul (within_of_isFinite hslope) (by omega) (by omega) (by omega)
  | false =>
    have hne : value v.pt ≠ 0 := fun h0 => by
      rw [(value_eq_zero_iff h.pt.isFinite).1 h0] at hpt
      cases hpt
    obtain ⟨k, hk, hge, hpt'⟩ := exists_within h.pt.isFinite hne
    have hk' : k ≤ 343 := (zpow_le_zpow_iff_right₀ one_lt_two).1 (hge.trans h.pt.le)
    have hscaled : Within (k + 2) (v.pt * factor) := hpt'.mul hfactor (by omega) (by omega) (by omega)
    -- For a tiny transverse momentum the slope can be near the end of the range.
    obtain hsmall | hsmall := lt_or_ge k (-600)
    · exact hscaled.mul (within_of_isFinite hslope) (by omega) (by omega) (by omega)
    · exact hscaled.mul (within_slope hf h hpt hslope hge hsmall hk') (by omega) (by omega) (by omega)

theorem scalePt_isFinite_iff (hf : f.Lawful) (h : v.Moderate) (hfactor : Within 1 factor) :
    (f.scalePt v factor).IsFinite ↔ (f.slope v).isFinite = true := by
  constructor
  · exact fun hfinite => isFinite_of_mul hfinite.pz
  · intro hslope
    have hpt : Within 344 (v.pt * factor) := h.pt.mul hfactor (by omega) (by omega) (by omega)
    have hphi := phi_isFinite hf h
    have hx : Within 430 (v.pt * factor * f.cos (f.phi v)) :=
      hpt.mul (within_of_abs_le (hf.cos_le hphi) between_one.within) (by omega) (by omega) (by omega)
    have hy : Within 430 (v.pt * factor * f.sin (f.phi v)) :=
      hpt.mul (within_of_abs_le (hf.sin_le hphi) between_one.within) (by omega) (by omega) (by omega)
    have hz := within_pz hf h hfactor hslope
    have hmass : Within 672 (v.mass * v.mass) := h.mass.mul h.mass (by omega) (by omega) (by omega)
    obtain ⟨hsquares, hnonneg⟩ := within_squares hx hy hz (by omega) (by omega)
    have hsum := hsquares.add (hmass.mono (by omega)) le_rfl (by omega) (by omega)
    have hnonneg' := value_add_nonneg hsquares (hmass.mono (by omega)) (by omega) hnonneg
      (value_mul_self_nonneg h.mass (by omega))
    exact ⟨hx.isFinite, hy.isFinite, hz.isFinite, (hsum.sqrt hnonneg' (c := 432) (by omega) (by omega)).isFinite⟩

theorem slope_isFinite_of_le (hf : f.Lawful) (hpt : (v.pt == 0) = false) (h : (v.pz / v.pt).abs ≤ powerOfTwo 1000) :
    (f.slope v).isFinite = true := by
  rw [slope, eta_eq hpt, hyperbolicSine, if_neg (not_lt_of_le (hf.asinh_le h))]
  exact hf.sinh_asinh_isFinite h

theorem slope_isFinite_at_rest (hf : f.Lawful) (hpt : (v.pt == 0) = true) (hpz : (v.pz == 0) = true) :
    (f.slope v).isFinite = true := by
  have heta : f.eta v = 0 := by
    unfold eta
    simp only [hpt, hpz, if_true]
  rw [slope, heta, hyperbolicSine, if_neg (by decide), hf.sinh_zero]
  decide

end Elementary
end FlatNtuple
