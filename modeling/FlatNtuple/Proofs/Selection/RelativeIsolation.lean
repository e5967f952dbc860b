import FlatNtuple.Selection.LooseElectron
import FlatNtuple.Proofs.Binary.Special
/-!
# Isolation relative to no transverse momentum

The isolations of an electron are cut on relative to its transverse momentum, and no cut asks whether that is zero.  For
a zero each quotient is NaN or infinite: an isolation of the other sign passes however large it is, and all others fail
(`passes_of_pt_zero`).
-/
namespace FlatNtuple

def IdVariables.isolations (v : IdVariables) : List Float := [v.ecalIso, v.hcalIso, v.trackIso]

namespace RegionCuts

/-- The cuts on all quantities but the isolations. -/
def passesUnisolated (c : RegionCuts) (v : IdVariables) : Bool :=
  decide (v.deltaEtaIn < c.deltaEtaIn) &&
  decide (v.deltaPhiIn < c.deltaPhiIn) &&
  decide (v.sigmaIetaIeta < c.sigmaIetaIeta) &&
  decide (v.hcalOverEcal < c.hcalOverEcal) &&
  decide (v.inverseDifference < c.inverseDifference) &&
  decide (v.missingHits ≤ c.missingHits) &&
  decide (v.dxy < c.dxy) &&
  decide (v.dz < c.dz) &&
  v.passConversionVeto

variable {c : RegionCuts} {v : IdVariables}

theorem passes_iff : c.passes v = true ↔ c.passesUnisolated v = true ∧
    v.ecalIso / v.pt < c.ecalIso ∧ v.hcalIso / v.pt < c.hcalIso ∧ v.trackIso / v.pt < c.trackIso := by
  simp only [passes, passesUnisolated, Bool.and_eq_true, decide_eq_true_iff]
  tauto

/-- **Without transverse momentum, an isolation passes if it has a sign, and not that of the zero.** -/
theorem passes_of_pt_zero (hc : c = .barrel ∨ c = .endcap) (hpt : (v.pt == 0) = true) :
    c.passes v = true ↔ c.passesUnisolated v = true ∧ ∀ iso ∈ v.isolations, Binary.Opposes v.pt iso := by
  have hecal : 0 < c.ecalIso := by obtain rfl | rfl := hc <;> decide
  have hhcal : 0 < c.hcalIso := by obtain rfl | rfl := hc <;> decide
  have htrack : 0 < c.trackIso := by obtain rfl | rfl := hc <;> decide
  rw [passes_iff, Binary.div_lt_of_zero hpt hecal, Binary.div_lt_of_zero hpt hhcal, Binary.div_lt_of_zero hpt htrack]
  simp [IdVariables.isolations]

/-- An electron along the beam, perfect but for its isolations. -/
def alongBeam (iso : Float) : IdVariables where
  pt := 0
  deltaEtaIn := 0
  deltaPhiIn := 0
  sigmaIetaIeta := 0
  hcalOverEcal := 0
  inverseDifference := 0
  ecalIso := iso
  hcalIso := iso
  trackIso := iso
  missingHits := 0
  dxy := 0
  dz := 0
  passConversionVeto := true

/-- An electron along the beam fails with nothing around it. -/
theorem passes_of_pt_zero_isolated : RegionCuts.endcap.passes (alongBeam 0) = false := by
  rw [Bool.eq_false_iff, Ne, passes_of_pt_zero (.inr rfl) (by decide)]
  exact fun h => absurd (h.2 0 (by simp [IdVariables.isolations, alongBeam])) (by decide)

/-- Isolations below zero let it pass. -/
theorem alongBeam_passes : ((alongBeam (-1)).pt == 0) = true ∧
    RegionCuts.barrel.passes (alongBeam (-1)) = true ∧ RegionCuts.endcap.passes (alongBeam (-1)) = true := by
  decide

end RegionCuts
end FlatNtuple
