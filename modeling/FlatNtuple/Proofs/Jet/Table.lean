import FlatNtuple.Jet.Uncertainty
import FlatNtuple.Proofs.Binary.Order
import FlatNtuple.Proofs.Except
/-!
# Which bins make a table

Bins make a table if there are any, each is sound by itself, and no two overlap (`ofBins_apart`).  Only neighbours in the
order of the ranks are compared.  That is enough because sound bins of which each ends before the next one are all apart
(`overlap?_eq_none_iff`), and bins that are apart come one before the other in this order (`Before.of_apart`).
-/
namespace FlatNtuple

open Binary (totalRank)

namespace UncertaintyBin

/-- A bin that is sound by itself. -/
structure Sound (b : UncertaintyBin) : Prop where
  nonempty : b.etaMin < b.etaMax
  hasKnots : b.knots ≠ []
  increasing : b.knots.Pairwise fun k k' => k.pt < k'.pt

/-- One bin ends where another begins, or below. -/
def Before (a b : UncertaintyBin) : Prop := a.etaMax ≤ b.etaMin

/-- One of two bins ends where the other begins, or below. -/
def Apart (a b : UncertaintyBin) : Prop := a.Before b ∨ b.Before a

variable {a b c : UncertaintyBin}

/-! ## Faults of a bin -/

theorem increasing_iff {knots : List Knot} : increasing knots = true ↔ knots.Pairwise fun k k' => k.pt < k'.pt := by
  have : IsTrans Knot fun k k' => k.pt < k'.pt := ⟨fun _ _ _ => Binary.lt_trans⟩
  rw [← List.isChain_iff_pairwise]
  induction knots with
  | nil => simp [UncertaintyBin.increasing]
  | cons k knots ih =>
    cases knots with
    | nil => simp [UncertaintyBin.increasing]
    | cons k' knots => simp [UncertaintyBin.increasing, ih]

theorem fault?_eq_none_iff : b.fault? = none ↔ b.Sound := by
  unfold fault?
  constructor
  · intro h
    split at h
    · cases h
    · split at h
      · cases h
      · split at h
        · cases h
        · rename_i hempty hknots hincreasing
          exact ⟨by simpa using hempty, by simpa using hknots, increasing_iff.1 (by simpa using hincreasing)⟩
  · intro h
    rw [if_neg (by simp [h.nonempty]), if_neg (by simpa using h.hasKnots), if_neg (by simp [increasing_iff.2 h.increasing])]

/-! ## Bins one after the other -/

theorem Before.etaMin_lt (h : a.Before b) (ha : a.Sound) : a.etaMin < b.etaMin := Binary.lt_of_lt_of_le ha.nonempty h

theorem Before.etaMax_lt (h : a.Before b) (hb : b.Sound) : a.etaMax < b.etaMax := Binary.lt_of_le_of_lt h hb.nonempty

/-- Of two bins that are apart, the one that begins first is before the other. -/
theorem Before.of_apart (h : a.Apart b) (hb : b.Sound) (hrank : totalRank a.etaMin ≤ totalRank b.etaMin) :
    a.Before b :=
  h.resolve_right fun hba => not_lt_of_ge hrank (Binary.totalRank_lt (hba.etaMin_lt hb))

end UncertaintyBin

open UncertaintyBin (Before Apart fault? fault?_eq_none_iff)

namespace UncertaintyTable

variable {bins bins' : List UncertaintyBin} {t : UncertaintyTable}

/-- **Sound bins of which no two neighbours overlap are all apart**, each before those behind it. -/
theorem overlap?_eq_none_iff (hsound : ∀ b ∈ bins, b.Sound) : overlap? bins = none ↔ bins.Pairwise Before := by
  induction bins with
  | nil => simp [overlap?]
  | cons a bins ih =>
    cases bins with
    | nil => simp [overlap?]
    | cons b rest =>
      obtain ⟨ha, hbins⟩ := List.forall_mem_cons.1 hsound
      have hb := hbins b List.mem_cons_self
      rw [overlap?, List.pairwise_cons]
      by_cases hlt : b.etaMin < a.etaMax
      · rw [if_pos (decide_eq_true hlt)]
        exact iff_of_false nofun fun h => Binary.not_lt_of_le (h.1 b List.mem_cons_self) hlt
      · rw [if_neg (by simpa using hlt), ih hbins]
        refine ⟨fun h => ⟨fun c hc => ?_, h⟩, And.right⟩
        have hab : a.Before b :=
          Binary.le_of_not_lt (Binary.lt_iff.1 ha.nonempty).2.1 (Binary.lt_iff.1 hb.nonempty).1 hlt
        obtain rfl | hc := List.mem_cons.1 hc
        · exact hab
        · have hbc : b.Before c := (List.pairwise_cons.1 h).1 c hc
          exact Binary.le_of_lt (Binary.lt_of_le_of_lt hab (hbc.etaMin_lt hb))

/-! ## Bins in order -/

theorem sort_perm (bins : List UncertaintyBin) : (sort bins).Perm bins := List.mergeSort_perm bins _

theorem sort_pairwise (bins : List UncertaintyBin) :
    (sort bins).Pairwise fun a b => totalRank a.etaMin ≤ totalRank b.etaMin := by
  have hsorted : (sort bins).Pairwise fun a b => decide (totalRank a.etaMin ≤ totalRank b.etaMin) = true := by
    refine List.pairwise_mergeSort (fun a b c hab hbc => ?_) (fun a b => ?_) bins
    · exact decide_eq_true ((of_decide_eq_true hab).trans (of_decide_eq_true hbc))
    · rw [Bool.or_eq_true, decide_eq_true_iff, decide_eq_true_iff]
      exact le_total _ _
  exact hsorted.imp of_decide_eq_true

theorem sound_sort (hsound : ∀ b ∈ bins, b.Sound) : ∀ b ∈ sort bins, b.Sound :=
  fun b hb => hsound b ((sort_perm bins).mem_iff.1 hb)

theorem pairwise_sort_iff (hsound : ∀ b ∈ bins, b.Sound) : (sort bins).Pairwise Before ↔ bins.Pairwise Apart := by
  have hapart : (sort bins).Pairwise Apart ↔ bins.Pairwise Apart := (sort_perm bins).pairwise_iff Or.symm
  rw [← hapart]
  constructor
  · exact List.Pairwise.imp Or.inl
  · intro h
    exact (h.and (sort_pairwise bins)).imp_of_mem fun _ hb hab => Before.of_apart hab.1 (sound_sort hsound _ hb) hab.2

/-- Bins that are apart have only one order. -/
theorem sort_eq_of_perm (hsound : ∀ b ∈ bins, b.Sound) (h : (sort bins).Pairwise Before) (hperm : bins'.Perm bins) :
    sort bins' = sort bins := by
  have hranks : ((sort bins).map fun b => totalRank b.etaMin).Nodup := by
    rw [List.Nodup, List.pairwise_map]
    exact h.imp_of_mem fun ha _ hab => (Binary.totalRank_lt (hab.etaMin_lt (sound_sort hsound _ ha))).ne
  have hperm' : (sort bins').Perm (sort bins) := ((sort_perm bins').trans hperm).trans (sort_perm bins).symm
  refine hperm'.eq_of_pairwise (fun a b ha hb hab hba => ?_) (sort_pairwise bins') (sort_pairwise bins)
  exact List.inj_on_of_nodup_map hranks (hperm'.mem_iff.1 ha) hb (le_antisymm hab hba)

/-! ## Tables -/

theorem ofBins_eq_ok_iff : ofBins bins = .ok t ↔
    bins ≠ [] ∧ (∀ b ∈ bins, b.Sound) ∧ (sort bins).Pairwise Before ∧ t = ⟨sort bins⟩ := by
  have hfaults : (sort bins).findSome? fault? = none ↔ ∀ b ∈ bins, b.Sound := by
    rw [List.findSome?_eq_none_iff]
    simp only [fault?_eq_none_iff, (sort_perm bins).mem_iff]
  unfold ofBins
  by_cases hnil : bins = []
  · simp [hnil]
  · rw [if_neg (by simpa using hnil)]
    by_cases hsound : ∀ b ∈ bins, b.Sound
    · have hoverlap := overlap?_eq_none_iff (sound_sort hsound)
      simp only [hfaults.2 hsound]
      by_cases hbefore : (sort bins).Pairwise Before
      · simp only [hoverlap.2 hbefore, Except.ok.injEq]
        exact ⟨fun h => ⟨hnil, hsound, hbefore, h.symm⟩, fun h => h.2.2.2.symm⟩
      · obtain ⟨e, he⟩ := Option.ne_none_iff_exists'.1 (mt hoverlap.1 hbefore)
        simp only [he]
        exact iff_of_false nofun fun h => hbefore h.2.2.1
    · obtain ⟨e, he⟩ := Option.ne_none_iff_exists'.1 (mt hfaults.1 hsound)
      simp only [he]
      exact iff_of_false nofun fun h => hsound h.2.1

/-- **Bins make a table if there are any, each is sound, and all are apart.**  The table has them in increasing order,
whatever order they came in, and is the one that its own bins make. -/
theorem ofBins_apart (bins : List UncertaintyBin) :
    ((∃ t, ofBins bins = .ok t) ↔ bins ≠ [] ∧ (∀ b ∈ bins, b.Sound) ∧ bins.Pairwise Apart) ∧
    ∀ t, ofBins bins = .ok t →
      (∀ bins', bins'.Perm bins → ofBins bins' = .ok t) ∧ t.bins.Perm bins ∧
      t.bins.Pairwise (fun a b => a.etaMin < b.etaMin ∧ a.etaMax < b.etaMax) ∧ ofBins t.bins = .ok t := by
  constructor
  · constructor
    · rintro ⟨t, ht⟩
      obtain ⟨hnil, hsound, hbefore, -⟩ := ofBins_eq_ok_iff.1 ht
      exact ⟨hnil, hsound, (pairwise_sort_iff hsound).1 hbefore⟩
    · rintro ⟨hnil, hsound, hapart⟩
      exact ⟨_, ofBins_eq_ok_iff.2 ⟨hnil, hsound, (pairwise_sort_iff hsound).2 hapart, rfl⟩⟩
  · intro t ht
    obtain ⟨hnil, hsound, hbefore, rfl⟩ := ofBins_eq_ok_iff.1 ht
    have hperm (bins' : List UncertaintyBin) (h : bins'.Perm bins) : ofBins bins' = .ok ⟨sort bins⟩ := by
      have hsort := sort_eq_of_perm hsound hbefore h
      refine ofBins_eq_ok_iff.2 ⟨fun hnil' => hnil ?_, fun b hb => hsound b (h.mem_iff.1 hb), ?_, ?_⟩
      · exact (hnil' ▸ h).nil_eq.symm
      · rwa [hsort]
      · rw [hsort]
    refine ⟨hperm, sort_perm bins, ?_, hperm _ (sort_perm bins)⟩
    exact hbefore.imp_of_mem fun ha hb hab =>
      ⟨hab.etaMin_lt (sound_sort hsound _ ha), hab.etaMax_lt (sound_sort hsound _ hb)⟩

/-- Bins that touch at a zero of either sign are apart. -/
theorem ofBins_touching :
    let low : UncertaintyBin := ⟨-2.5, -0.0, [⟨10, 0.2⟩]⟩
    let high : UncertaintyBin := ⟨0.0, 2.5, [⟨10, 0.1⟩, ⟨20, 0.05⟩]⟩
    ∃ t, ofBins [high, low] = .ok t ∧ ofBins [low, high] = .ok t := by
  intro low high
  have hlow : low.Sound := ⟨by decide +kernel, by simp [low], by decide +kernel⟩
  have hhigh : high.Sound := ⟨by decide +kernel, by simp [high], by decide +kernel⟩
  have hapart : [high, low].Pairwise Apart := by
    rw [List.pairwise_pair]
    exact .inr (show low.etaMax ≤ high.etaMin by decide +kernel)
  obtain ⟨t, ht⟩ := (ofBins_apart [high, low]).1.2 ⟨nofun, by simp [hlow, hhigh], hapart⟩
  exact ⟨t, ht, ((ofBins_apart [high, low]).2 t ht).1 _ (.swap high low [])⟩

end UncertaintyTable
end FlatNtuple
