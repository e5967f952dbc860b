import FlatNtuple.Proofs.Binary.Value
import FlatNtuple.Proofs.Jet.Lookup
/-!
# Pseudorapidities in no bin

A table may leave gaps between its bins.  Beyond its ends the look-up takes the nearest bin.  In a gap it takes the one
above, which is nearest only in the upper half of the gap (`outside_nearest`).
-/
namespace FlatNtuple

open Binary (value value_le)

namespace UncertaintyBin

/-- How far a pseudorapidity lies from a bin. -/
def distance (b : UncertaintyBin) (eta : Float) : ℚ :=
  if eta < b.etaMin then value b.etaMin - value eta else if b.etaMax ≤ eta then value eta - value b.etaMax else 0

variable {a b : UncertaintyBin} {eta : Float}

theorem distance_below (h : eta < b.etaMin) : b.distance eta = value b.etaMin - value eta := if_pos h

theorem Sound.distance_above (hb : b.Sound) (h : b.etaMax ≤ eta) : b.distance eta = value eta - value b.etaMax := by
  rw [distance, if_neg (Binary.not_lt_of_le (Binary.le_of_lt (Binary.lt_of_lt_of_le hb.nonempty h))), if_pos h]

/-- Of two bins above a pseudorapidity the lower one is the nearer. -/
theorem Before.distance_le_of_below (h : a.Before b) (ha : a.Sound) (hb : b.Sound) (hfinite : eta.isFinite = true)
    (hlt : eta < a.etaMin) : a.distance eta ≤ b.distance eta := by
  have hab := h.etaMin_lt ha
  have haFinite := Binary.isFinite_of_le_of_lt (Binary.le_of_lt hlt) ha.nonempty hfinite
  have hbFinite := Binary.isFinite_of_le_of_lt (Binary.le_of_lt (Binary.lt_trans hlt hab)) hb.nonempty hfinite
  rw [distance_below hlt, distance_below (Binary.lt_trans hlt hab)]
  exact sub_le_sub_right (value_le haFinite hbFinite (Binary.le_of_lt hab)) _

/-- Of two bins below a pseudorapidity the upper one is the nearer. -/
theorem Before.distance_le_of_above (h : a.Before b) (ha : a.Sound) (hb : b.Sound) (hfinite : eta.isFinite = true)
    (hle : b.etaMax ≤ eta) : b.distance eta ≤ a.distance eta := by
  have hab := Binary.le_of_lt (h.etaMax_lt hb)
  have haFinite := Binary.isFinite_of_lt_of_le ha.nonempty (Binary.le_trans hab hle) hfinite
  have hbFinite := Binary.isFinite_of_lt_of_le hb.nonempty hle hfinite
  rw [hb.distance_above hle, ha.distance_above (Binary.le_trans hab hle)]
  exact sub_le_sub_left (value_le haFinite hbFinite hab) _

end UncertaintyBin

namespace UncertaintyTable

/-- No bin of the table is nearer to a pseudorapidity. -/
def Nearest (t : UncertaintyTable) (eta : Float) (b : UncertaintyBin) : Prop :=
  b ∈ t.bins ∧ ∀ a ∈ t.bins, b.distance eta ≤ a.distance eta

variable {bins pre post : List UncertaintyBin} {b : UncertaintyBin} {t : UncertaintyTable} {eta : Float}

theorem Sound.distance_le_of_below (ht : t.Sound) (hbins : t.bins = pre ++ b :: post) (hfinite : eta.isFinite = true)
    (hlt : eta < b.etaMin) : ∀ c ∈ post, b.distance eta ≤ c.distance eta := by
  intro c hc
  obtain ⟨-, hordered, -⟩ := List.pairwise_append.1 (hbins ▸ ht.ordered)
  have hbc : b.Before c := (List.pairwise_cons.1 hordered).1 c hc
  exact hbc.distance_le_of_below (ht.bins b (by simp [hbins])) (ht.bins c (by simp [hbins, hc])) hfinite hlt

theorem Sound.distance_le_of_above (ht : t.Sound) (hbins : t.bins = pre ++ b :: post) (hfinite : eta.isFinite = true)
    (hle : b.etaMax ≤ eta) : ∀ c ∈ pre, b.distance eta ≤ c.distance eta := by
  intro c hc
  obtain ⟨-, -, hcross⟩ := List.pairwise_append.1 (hbins ▸ ht.ordered)
  have hcb : c.Before b := hcross c hc b List.mem_cons_self
  exact hcb.distance_le_of_above (ht.bins c (by simp [hbins, hc])) (ht.bins b (by simp [hbins])) hfinite hle

theorem nearest_of_append (hbins : t.bins = pre ++ b :: post) (hpre : ∀ c ∈ pre, b.distance eta ≤ c.distance eta)
    (hpost : ∀ c ∈ post, b.distance eta ≤ c.distance eta) : t.Nearest eta b := by
  refine ⟨by simp [hbins], fun c hc => ?_⟩
  rw [hbins, List.mem_append, List.mem_cons] at hc
  obtain hc | rfl | hc := hc
  · exact hpre c hc
  · exact le_rfl
  · exact hpost c hc

/-- **Beyond the ends of a table the nearest bin is used.**  In a gap between two bins the upper one is used, which is
the nearest if the lower one is not nearer. -/
theorem outside_nearest (ht : ofBins bins = .ok t) (hfinite : eta.isFinite = true)
    (hout : ∀ b ∈ t.bins, ¬b.Contains eta) :
    ∃ b, t.binFor? eta = some b ∧
      ((t.bins.head? = some b ∧ eta < b.etaMin ∧ t.Nearest eta b) ∨
        (t.bins.getLast? = some b ∧ b.etaMax ≤ eta ∧ t.Nearest eta b) ∨
        ∃ pre a post, t.bins = pre ++ a :: b :: post ∧ a.etaMax ≤ eta ∧ eta < b.etaMin ∧
          (t.Nearest eta b ↔ b.distance eta ≤ a.distance eta)) := by
  have hsound := sound_of_ofBins ht
  obtain ⟨pre, b, post, hbins, hbin, hpre, hpost⟩ := hsound.exists_binFor? eta
  refine ⟨b, hbin, ?_⟩
  by_cases hle : b.etaMax ≤ eta
  · obtain rfl := hpost hle
    have hbelow := hsound.distance_le_of_above hbins hfinite hle
    exact .inr (.inl ⟨by simp [hbins], hle, nearest_of_append hbins hbelow nofun⟩)
  · have hmem : b ∈ t.bins := by simp [hbins]
    have hnan := (Binary.isFinite_iff.1 hfinite).1
    obtain ⟨hmin, hmax, -⟩ := Binary.lt_iff.1 (hsound.bins b hmem).nonempty
    have hlt : eta < b.etaMin := (Binary.lt_iff_not_le hnan hmin).2 fun h =>
      hout b hmem ⟨h, (Binary.lt_iff_not_le hnan hmax).2 hle⟩
    have habove := hsound.distance_le_of_below hbins hfinite hlt
    obtain rfl | ⟨front, a, rfl⟩ := List.eq_nil_or_concat' pre
    · exact .inl ⟨by simp [hbins], hlt, nearest_of_append hbins nofun habove⟩
    · have hbins' : t.bins = front ++ a :: b :: post := by simp [hbins]
      have ha : a.etaMax ≤ eta := hpre a (by simp)
      have hfront := hsound.distance_le_of_above hbins' hfinite ha
      refine .inr (.inr ⟨front, a, post, hbins', ha, hlt, fun h => h.2 a (by simp [hbins]), fun h => ?_⟩)
      refine nearest_of_append hbins (fun c hc => ?_) habove
      obtain hc | hc := List.mem_append.1 hc
      · exact h.trans (hfront c hc)
      · exact List.mem_singleton.1 hc ▸ h

/-- Two bins with a gap from 1 to 2. -/
def gapped : UncertaintyTable := ⟨[⟨0, 1, [⟨10, 0.1⟩]⟩, ⟨2, 3, [⟨10, 0.2⟩]⟩]⟩

theorem gapped_sound : gapped.Sound where
  nonempty := nofun
  bins := by
    refine List.forall_mem_cons.2 ⟨?_, List.forall_mem_cons.2 ⟨?_, nofun⟩⟩ <;>
      exact ⟨by decide +kernel, nofun, by decide +kernel⟩
  ordered := List.pairwise_pair.2 (show (1 : Float) ≤ 2 by decide +kernel)

/-- In the upper half of a gap the bin that is used is the nearest. -/
theorem outside_nearest_gap : ∃ b, gapped.binFor? 1.75 = some b ∧ b.etaMin = 2 ∧ gapped.Nearest 1.75 b := by
  have hout : ∀ b ∈ gapped.bins, ¬b.Contains 1.75 := by decide +kernel
  obtain ⟨b, hbin, ⟨hfirst, hlt, -⟩ | ⟨hlast, hle, -⟩ | ⟨pre, a, post, hbins, -, -, hnearest⟩⟩ :=
    outside_nearest gapped_sound.ofBins (by decide +kernel) hout
  · cases hfirst
    exact absurd hlt (by decide +kernel)
  · cases hlast
    exact absurd hle (by decide +kernel)
  · have hlength : 2 = pre.length + (post.length + 2) := by simpa [gapped] using congrArg List.length hbins
    obtain rfl : pre = [] := List.eq_nil_of_length_eq_zero (by omega)
    cases hbins
    exact ⟨_, hbin, rfl, hnearest.2 (by decide +kernel)⟩

/-- In the lower half of a gap the bin that is used is not the nearest. -/
theorem gapped_not_nearest : ofBins gapped.bins = .ok gapped ∧ (1.25 : Float).isFinite = true ∧
    (∀ a ∈ gapped.bins, ¬a.Contains 1.25) ∧ ∃ b, gapped.binFor? 1.25 = some b ∧ ¬gapped.Nearest 1.25 b := by
  have hsplit : gapped.bins = [gapped.bins[0]] ++ [gapped.bins[1]] := rfl
  have hbin : gapped.binFor? 1.25 = gapped.bins[1]? := binFor?_append hsplit (by decide +kernel) (by decide +kernel)
  refine ⟨gapped_sound.ofBins, by decide +kernel, by decide +kernel, _, hbin, fun h => ?_⟩
  exact absurd (h.2 gapped.bins[0] (by simp [gapped])) (by decide +kernel)

end UncertaintyTable
end FlatNtuple
