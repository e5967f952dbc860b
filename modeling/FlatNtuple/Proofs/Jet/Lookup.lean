import FlatNtuple.Proofs.Jet.Table
/-!
# Looking uncertainties up

Halving a range finds where a test begins to fail, if it fails from there on (`partitionPoint_eq`).  The tests of both
look-ups do: the ends of the bins of a table increase, though only their beginnings are put in order, and so do the
knots of a bin.  So a look-up splits its list in two (`exists_partition`) and takes what stands next to the split: the
first bin that ends above a pseudorapidity (`binFor?_append`), and the knots on both sides of a transverse momentum
(`interpolate?_append`).  These are what a search from one end to the other finds (`lookup_bin_and_knots`).
-/
namespace FlatNtuple

/-! ## Halving a range -/

theorem partitionPoint_eq {p : ℕ → Bool} {lo hi k : ℕ} (hlo : lo ≤ k) (hhi : k ≤ hi)
    (hbelow : ∀ i, lo ≤ i → i < k → p i = true) (habove : ∀ i, k ≤ i → i < hi → p i = false) :
    partitionPoint p lo hi = k := by
  fun_induction partitionPoint p lo hi with
  | case1 lo hi h mid hmid ih =>
    have hlt : mid < k := by
      by_contra hge
      rw [habove mid (by omega) (by omega)] at hmid
      cases hmid
    exact ih (by omega) hhi (fun i hi => hbelow i (by omega)) habove
  | case2 lo hi h mid hmid ih =>
    have hge : k ≤ mid := by
      by_contra hlt
      exact hmid (hbelow mid (by omega) (by omega))
    exact ih hlo hge hbelow fun i hi hlt => habove i hi (by omega)
  | case3 lo hi h => omega

section
variable {α : Type} {p : α → Prop} [DecidablePred p]

theorem partitionIndex_append {pre post : List α} (hpre : ∀ a ∈ pre, p a) (hpost : ∀ b ∈ post, ¬p b) :
    partitionIndex (fun a => decide (p a)) (pre ++ post).toArray = pre.length := by
  refine partitionPoint_eq (Nat.zero_le _) (by simp) (fun i _ hi => ?_) fun i hge hi => ?_
  · rw [dif_pos (by simp; omega)]
    exact decide_eq_true (hpre _ (by simp [List.getElem_append_left hi]))
  · rw [dif_pos hi]
    exact decide_eq_false (hpost _ (by simp [List.getElem_append_right hge]))

/-- What is true of all that stands before something it is true of splits a list in two. -/
theorem exists_partition {l : List α} (h : l.Pairwise fun a b => p b → p a) :
    ∃ pre post, l = pre ++ post ∧ (∀ a ∈ pre, p a) ∧ ∀ b ∈ post, ¬p b := by
  induction l with
  | nil => exact ⟨[], [], rfl, nofun, nofun⟩
  | cons a l ih =>
    obtain ⟨ha, hl⟩ := List.pairwise_cons.1 h
    by_cases hpa : p a
    · obtain ⟨pre, post, rfl, hpre, hpost⟩ := ih hl
      exact ⟨a :: pre, post, rfl, List.forall_mem_cons.2 ⟨hpa, hpre⟩, hpost⟩
    · exact ⟨[], a :: l, rfl, nofun, List.forall_mem_cons.2 ⟨hpa, fun b hb hpb => hpa (ha b hb hpb)⟩⟩

/-- Where a list is split are the only neighbours of which it is true of the first and not of the second. -/
theorem filter_neighbours {pre post : List α} {a b : α} (hpre : ∀ x ∈ pre ++ [a], p x) (hpost : ∀ x ∈ b :: post, ¬p x) :
    ((pre ++ a :: b :: post).zip (pre ++ a :: b :: post).tail).filter (fun q => p q.1 ∧ ¬p q.2) = [(a, b)] := by
  induction pre with
  | nil =>
    obtain ⟨hb, -⟩ := List.forall_mem_cons.1 hpost
    have ha : p a := hpre a (by simp)
    have hrest : ((b :: post).zip post).filter (fun q => p q.1 ∧ ¬p q.2) = [] := by
      refine List.filter_eq_nil_iff.2 fun q hq => ?_
      simp [hpost q.1 (List.of_mem_zip hq).1]
    rw [List.nil_append, List.tail_cons, List.zip_cons_cons, List.filter_cons_of_pos (by simp [ha, hb]), hrest]
  | cons c pre ih =>
    obtain ⟨-, hpre'⟩ := List.forall_mem_cons.1 hpre
    rw [← ih hpre']
    -- The first element goes with the next one, and it is true of that too.
    cases pre with
    | nil => simp [hpre' a (by simp)]
    | cons d pre => simp [hpre' d (by simp)]

end

namespace UncertaintyBin

/-- The bin has a pseudorapidity in it. -/
def Contains (b : UncertaintyBin) (eta : Float) : Prop := b.etaMin ≤ eta ∧ eta < b.etaMax

instance (b : UncertaintyBin) (eta : Float) : Decidable (b.Contains eta) := inferInstanceAs (Decidable (_ ∧ _))

/-- What the knots of a bin say about a transverse momentum: the first one if it is not reached, the last one if that is
reached, and else the only two neighbours that it lies between.  NaN reaches no knot, and a knot at NaN is alone in its
bin and not reached. -/
structure Reads (b : UncertaintyBin) (pt u : Float) : Prop where
  below : ∀ first ∈ b.knots.head?, ¬first.pt ≤ pt → u = first.uncertainty
  above : ∀ last ∈ b.knots.getLast?, last.pt ≤ pt → u = last.uncertainty
  inside : ∀ first ∈ b.knots.head?, ∀ last ∈ b.knots.getLast?, first.pt ≤ pt → pt < last.pt →
    ∃ low high, (b.knots.zip b.knots.tail).filter (fun k => k.1.pt ≤ pt ∧ pt < k.2.pt) = [(low, high)] ∧
      u = between low high pt

variable {a b : UncertaintyBin} {eta pt : Float}

/-! ## Knots -/

/-- An interpolation takes the knots on both sides of a split by the transverse momentum. -/
theorem interpolate?_append {pre post : List Knot} (hknots : b.knots = pre ++ post) (hpre : ∀ k ∈ pre, k.pt ≤ pt)
    (hpost : ∀ k ∈ post, ¬k.pt ≤ pt) : b.interpolate? pt =
      match pre.getLast?, post.head? with
      | some low, some high => some (between low high pt)
      | some low, none => some low.uncertainty
      | none, high => high.map Knot.uncertainty := by
  unfold interpolate?
  simp only [hknots, partitionIndex_append hpre hpost]
  obtain rfl | ⟨pre, low, rfl⟩ := List.eq_nil_or_concat' pre
  · simp [List.head?_eq_getElem?]
  · cases post with
    | nil => simp
    | cons high post => simp

theorem Sound.exists_split (hb : b.Sound) (pt : Float) :
    ∃ pre post, b.knots = pre ++ post ∧ (∀ k ∈ pre, k.pt ≤ pt) ∧ ∀ k ∈ post, ¬k.pt ≤ pt :=
  exists_partition (hb.increasing.imp fun hlt hle => Binary.le_of_lt (Binary.lt_of_lt_of_le hlt hle))

/-- With knots in increasing order, none of two neighbours is NaN. -/
theorem Sound.lt_iff_of_mem_zip (hb : b.Sound) {k : Knot × Knot} (hk : k ∈ b.knots.zip b.knots.tail)
    (hpt : pt.isNaN = false) : pt < k.2.pt ↔ ¬k.2.pt ≤ pt := by
  have hmem := (List.of_mem_zip hk).2
  cases hknots : b.knots with
  | nil => simp [hknots] at hmem
  | cons first rest =>
    rw [hknots, List.tail_cons] at hmem
    have hlt : first.pt < k.2.pt := (List.pairwise_cons.1 (hknots ▸ hb.increasing)).1 k.2 hmem
    exact Binary.lt_iff_not_le hpt (Binary.lt_iff.1 hlt).2.1

/-- **A sound bin has an uncertainty for every transverse momentum**, the one that its knots say. -/
theorem Sound.exists_reads (hb : b.Sound) (pt : Float) : ∃ u, b.interpolate? pt = some u ∧ b.Reads pt u := by
  obtain ⟨pre, post, hknots, hpre, hpost⟩ := hb.exists_split pt
  have hfirst (hne : pre ≠ []) : ∀ first ∈ b.knots.head?, first.pt ≤ pt := by
    intro first hfirst
    rw [hknots, List.head?_append_of_ne_nil _ hne] at hfirst
    exact hpre first (List.mem_of_mem_head? hfirst)
  have hlast (hne : post ≠ []) : ∀ last ∈ b.knots.getLast?, ¬last.pt ≤ pt := by
    intro last hlast
    rw [hknots, List.getLast?_append_of_ne_nil _ hne] at hlast
    exact hpost last (List.mem_of_mem_getLast? hlast)
  have hread := interpolate?_append hknots hpre hpost
  obtain rfl | ⟨pre, low, rfl⟩ := List.eq_nil_or_concat' pre
  · rw [List.nil_append] at hknots
    obtain ⟨high, post, rfl⟩ := List.exists_cons_of_ne_nil (hknots ▸ hb.hasKnots)
    refine ⟨high.uncertainty, hread, fun first hf _ => ?_, fun last hl hle => ?_, fun first hf last hl hle => ?_⟩
    · rw [hknots] at hf
      cases hf
      rfl
    · exact absurd hle (hlast nofun last hl)
    · rw [hknots] at hf
      cases hf
      exact absurd hle (hpost high List.mem_cons_self)
  · have hfirst := hfirst (by simp)
    cases post with
    | nil =>
      rw [List.append_nil] at hknots
      have hlow {last : Knot} (hl : last ∈ b.knots.getLast?) : last = low := by
        rw [hknots, List.getLast?_concat] at hl
        exact (Option.mem_some_iff.1 hl).symm
      refine ⟨low.uncertainty, by simpa using hread, fun first hf hle => ?_, fun last hl _ => ?_,
        fun _ _ last hl _ hlt => ?_⟩
      · exact absurd (hfirst first hf) hle
      · rw [hlow hl]
      · rw [hlow hl] at hlt
        exact absurd hlt (Binary.not_lt_of_le (hpre low (by simp)))
    | cons high post =>
      have hlast := hlast nofun
      refine ⟨between low high pt, by simpa using hread, fun first hf hle => ?_, fun last hl hle => ?_,
        fun first hf last hl hle hlt => ⟨low, high, ?_, rfl⟩⟩
      · exact absurd (hfirst first hf) hle
      · exact absurd hle (hlast last hl)
      · have hsides : (b.knots.zip b.knots.tail).filter (fun k => k.1.pt ≤ pt ∧ ¬k.2.pt ≤ pt) = [(low, high)] := by
          rw [hknots, List.append_assoc, List.singleton_append]
          exact filter_neighbours hpre hpost
        rw [← hsides]
        refine List.filter_congr fun k hk => ?_
        exact decide_eq_decide.2 (and_congr_right' (hb.lt_iff_of_mem_zip hk (Binary.lt_iff.1 hlt).1))

/-! ## Bins -/

theorem not_contains_of_le (h : a.etaMax ≤ eta) : ¬a.Contains eta := fun hc => Binary.not_lt_of_le h hc.2

theorem Before.not_contains (h : b.Before a) (hb : ¬b.etaMax ≤ eta) : ¬a.Contains eta :=
  fun hc => hb (Binary.le_trans h hc.1)

end UncertaintyBin

namespace UncertaintyTable

/-- A table as `ofBins` makes it. -/
structure Sound (t : UncertaintyTable) : Prop where
  nonempty : t.bins ≠ []
  bins : ∀ b ∈ t.bins, b.Sound
  ordered : t.bins.Pairwise UncertaintyBin.Before

/-- The bin that is meant by a pseudorapidity: the only one that has it, the first one below all of them and the last
one above. -/
structure Selects (t : UncertaintyTable) (eta : Float) (b : UncertaintyBin) : Prop where
  mem : b ∈ t.bins
  below : ∀ first ∈ t.bins.head?, eta < first.etaMin → b = first
  inside : (∃ a ∈ t.bins, a.Contains eta) → t.bins.filter (fun a => a.Contains eta) = [b]
  above : ∀ last ∈ t.bins.getLast?, last.etaMax ≤ eta → b = last

variable {bins : List UncertaintyBin} {t : UncertaintyTable} {eta : Float}

theorem sound_of_ofBins (h : ofBins bins = .ok t) : t.Sound := by
  obtain ⟨hnil, hsound, hbefore, rfl⟩ := ofBins_eq_ok_iff.1 h
  have hnil' : sort bins ≠ [] := fun h => hnil (List.nil_perm.1 (h ▸ sort_perm bins))
  exact ⟨hnil', sound_sort hsound, hbefore⟩

theorem Sound.ofBins (ht : t.Sound) : ofBins t.bins = .ok t := by
  have hranks : t.bins.Pairwise fun a b => Binary.totalRank a.etaMin ≤ Binary.totalRank b.etaMin :=
    ht.ordered.imp_of_mem fun ha _ hab => (Binary.totalRank_lt (hab.etaMin_lt (ht.bins _ ha))).le
  have hsort : sort t.bins = t.bins := List.mergeSort_of_pairwise (hranks.imp decide_eq_true)
  exact ofBins_eq_ok_iff.2 ⟨ht.nonempty, ht.bins, hsort.symm ▸ ht.ordered, by rw [hsort]⟩

/-- A look-up takes the bin behind a split by the pseudorapidity, or the one before it if there is none behind. -/
theorem binFor?_append {pre post : List UncertaintyBin} (hbins : t.bins = pre ++ post)
    (hpre : ∀ a ∈ pre, a.etaMax ≤ eta) (hpost : ∀ b ∈ post, ¬b.etaMax ≤ eta) :
    t.binFor? eta = post.head?.or pre.getLast? := by
  unfold binFor?
  simp only [hbins, partitionIndex_append hpre hpost]
  cases post with
  | nil => obtain rfl | ⟨pre, last, rfl⟩ := List.eq_nil_or_concat' pre <;> simp
  | cons b post => simp

/-- **The look-up takes the first bin that ends above a pseudorapidity**, or the last of all. -/
theorem Sound.exists_binFor? (ht : t.Sound) (eta : Float) : ∃ pre b post, t.bins = pre ++ b :: post ∧
    t.binFor? eta = some b ∧ (∀ a ∈ pre, a.etaMax ≤ eta) ∧ (b.etaMax ≤ eta → post = []) := by
  have hmono : t.bins.Pairwise fun a b => b.etaMax ≤ eta → a.etaMax ≤ eta := ht.ordered.imp_of_mem fun _ hb hab hle =>
    Binary.le_of_lt (Binary.lt_of_lt_of_le (hab.etaMax_lt (ht.bins _ hb)) hle)
  obtain ⟨pre, post, hbins, hpre, hpost⟩ := exists_partition hmono
  have hbin := binFor?_append hbins hpre hpost
  cases post with
  | nil =>
    rw [List.append_nil] at hbins
    obtain rfl | ⟨front, last, rfl⟩ := List.eq_nil_or_concat' pre
    · exact absurd hbins ht.nonempty
    · exact ⟨front, last, [], hbins, by simpa using hbin, fun a ha => hpre a (by simp [ha]), fun _ => rfl⟩
  | cons b post => exact ⟨pre, b, post, hbins, hbin, hpre, fun hle => absurd hle (hpost b List.mem_cons_self)⟩

theorem Sound.exists_selects (ht : t.Sound) (eta : Float) : ∃ b, t.binFor? eta = some b ∧ t.Selects eta b := by
  obtain ⟨pre, b, post, hbins, hbin, hpre, hpost⟩ := ht.exists_binFor? eta
  obtain ⟨-, hordered, -⟩ := List.pairwise_append.1 (hbins ▸ ht.ordered)
  have hmem : b ∈ t.bins := by simp [hbins]
  have hrest : post ≠ [] → ∀ a ∈ post, ¬a.Contains eta := fun hne a ha =>
    ((List.pairwise_cons.1 hordered).1 a ha).not_contains (mt hpost hne)
  refine ⟨b, hbin, hmem, fun first hf hlt => ?_, ?_, fun last hl hle => ?_⟩
  · cases pre with
    | nil =>
      rw [hbins] at hf
      cases hf
      rfl
    | cons a pre =>
      rw [hbins] at hf
      cases hf
      have hsound := ht.bins first (by simp [hbins])
      exact absurd (Binary.lt_trans hlt hsound.nonempty) (Binary.not_lt_of_le (hpre first List.mem_cons_self))
  · rintro ⟨a, ha, hcontains⟩
    have hpre' : pre.filter (fun a => a.Contains eta) = [] := List.filter_eq_nil_iff.2 fun a ha =>
      by simpa using UncertaintyBin.not_contains_of_le (hpre a ha)
    have hpost' : post.filter (fun a => a.Contains eta) = [] := List.filter_eq_nil_iff.2 fun a ha =>
      by simpa using hrest (List.ne_nil_of_mem ha) a ha
    have hab : a ∈ t.bins.filter (fun a => a.Contains eta) := List.mem_filter.2 ⟨ha, decide_eq_true hcontains⟩
    rw [hbins, List.filter_append, hpre', List.filter_cons, hpost', List.nil_append] at hab ⊢
    split at hab
    · rename_i hb
      rw [if_pos hb]
    · cases hab
  · obtain rfl | ⟨front, last', rfl⟩ := List.eq_nil_or_concat' post
    · rw [hbins, List.getLast?_concat] at hl
      exact Option.mem_some_iff.1 hl
    · have hlast : last' = last := by
        rw [hbins, ← List.cons_append, ← List.append_assoc, List.getLast?_concat] at hl
        exact Option.mem_some_iff.1 hl
      subst hlast
      have hbefore : b.Before last' := (List.pairwise_cons.1 hordered).1 last' (by simp)
      have hsound := ht.bins last' (by simp [hbins])
      have hb : b.etaMax ≤ eta := Binary.le_of_lt (Binary.lt_of_lt_of_le (hbefore.etaMax_lt hsound) hle)
      exact absurd (hpost hb) (by simp)

/-- **Both look-ups find what they look for.**  No index is out of range; a table gives the bin that a pseudorapidity
means, and the bin gives what its knots say about a transverse momentum. -/
theorem lookup_bin_and_knots (ht : ofBins bins = .ok t) (eta pt : Float) :
    ∃ b u, t.binFor? eta = some b ∧ b.interpolate? pt = some u ∧ t.uncertainty eta pt = u ∧
      t.Selects eta b ∧ b.Reads pt u := by
  have hsound := sound_of_ofBins ht
  obtain ⟨b, hbin, hselects⟩ := hsound.exists_selects eta
  obtain ⟨u, hread, hreads⟩ := (hsound.bins b hselects.mem).exists_reads pt
  refine ⟨b, u, hbin, hread, ?_, hselects, hreads⟩
  rw [uncertainty, hbin, Option.bind_some, hread, Option.getD_some]

/-- A zero of either sign is in the bin that begins at zero, and not in the one that ends there. -/
theorem lookup_bin_and_knots_edge :
    let low : UncertaintyBin := ⟨-2.5, 0, [⟨10, 0.2⟩]⟩
    let high : UncertaintyBin := ⟨0, 2.5, [⟨10, 0.1⟩, ⟨20, 0.05⟩, ⟨40, 0.01⟩]⟩
    let t : UncertaintyTable := ⟨[low, high]⟩
    ofBins [low, high] = .ok t ∧ t.binFor? (-0.0) = some high ∧
      high.interpolate? 20 = some (UncertaintyBin.between ⟨20, 0.05⟩ ⟨40, 0.01⟩ 20) := by
  intro low high t
  have hlow : low.Sound := ⟨by decide +kernel, nofun, by decide +kernel⟩
  have hhigh : high.Sound := ⟨by decide +kernel, nofun, by decide +kernel⟩
  have hbefore : low.Before high := show low.etaMax ≤ high.etaMin by decide +kernel
  have ht : ofBins [low, high] = .ok t := Sound.ofBins ⟨nofun, by simp [hlow, hhigh], by simpa [t] using hbefore⟩
  obtain ⟨b, u, hbin, hread, -, hselects, hreads⟩ := lookup_bin_and_knots ht (-0.0) 20
  have hcontains : high.Contains (-0.0) := by decide +kernel
  have hfilter : t.bins.filter (fun a => a.Contains (-0.0)) = [high] := by
    simp [t, hcontains, show ¬low.Contains (-0.0) by decide +kernel]
  have hb : high = b := by simpa [hfilter] using hselects.inside ⟨high, by simp [t], hcontains⟩
  subst hb
  obtain ⟨left, right, hneighbours, hu⟩ :=
    hreads.inside ⟨10, 0.1⟩ rfl ⟨40, 0.01⟩ rfl (by decide +kernel) (by decide +kernel)
  have hknots : (high.knots.zip high.knots.tail).filter (fun k => k.1.pt ≤ 20 ∧ (20 : Float) < k.2.pt) =
      [(⟨20, 0.05⟩, ⟨40, 0.01⟩)] := by
    simp [high, show ¬(20 : Float) < 20 by decide +kernel, show (10 : Float) ≤ 20 by decide +kernel,
      show (20 : Float) ≤ 20 by decide +kernel, show (20 : Float) < 40 by decide +kernel]
  rw [hknots] at hneighbours
  cases hneighbours
  exact ⟨ht, hbin, hu ▸ hread⟩

end UncertaintyTable
end FlatNtuple
