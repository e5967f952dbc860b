import FlatNtuple.Proofs.Dictionary
import FlatNtuple.Proofs.Except
import FlatNtuple.Selection.Counter
/-!
# What a counter counts

Cuts and labels make a counter if there are as many of the ones as of the others, no label comes twice and every cut
that is not blank compiles.  Else the first of them that is at fault is refused, for its label rather than for its cut.
A counter counts each label once, in the order of the labels: the objects that its cut lets pass, up to the greatest
32-bit integer (`ofCuts_count`).
-/
namespace FlatNtuple
namespace ObjectCounter

variable {t : ObjectType} {c : CompilerConfig} {text label : String} {seen : List String}
  {pairs : List (String × String)} {cuts : List (LabelledCut t)} {e : CounterError}

/-! ## One cut -/

/-- A cut is blank, or an expression without the blanks around it. -/
def Sound (t : ObjectType) (c : CompilerConfig) (text : String) : Prop :=
  Text.trim text ≠ "" → ∃ f, c.compile .bool t (Text.trim text) = .ok f

theorem compileCut_of_blank (h : Text.trim text = "") : compileCut (t := t) c text = .ok none := if_pos h

theorem compileCut_of_not_blank (h : Text.trim text ≠ "") :
    compileCut c text = (c.compile .bool t (Text.trim text)).map some := if_neg h

theorem sound_iff : Sound t c text ↔ ∃ cut, compileCut (t := t) c text = .ok cut := by
  by_cases hblank : Text.trim text = ""
  · exact iff_of_true (fun h => absurd hblank h) ⟨none, compileCut_of_blank hblank⟩
  · simp [Sound, hblank, compileCut_of_not_blank hblank, map_eq_ok]

theorem compileCut_eq_error_iff {e : CompileError} : compileCut (t := t) c text = .error e ↔
    Text.trim text ≠ "" ∧ c.compile .bool t (Text.trim text) = .error e := by
  by_cases hblank : Text.trim text = ""
  · simp [hblank, compileCut_of_blank hblank]
  · rw [compileCut_of_not_blank hblank]
    cases c.compile .bool t (Text.trim text) <;> simp [Except.map, hblank]

/-! ## Cuts one after the other -/

/-- What is wrong with a cut and its label behind other labels.  A label that is taken comes before a cut that does not
compile. -/
def Faulty (t : ObjectType) (c : CompilerConfig) (seen : List String) (text label : String) (e : CounterError) : Prop :=
  label ∈ seen ∧ e = .duplicateLabel label ∨
  label ∉ seen ∧ Text.trim text ≠ "" ∧ ∃ e', c.compile .bool t (Text.trim text) = .error e' ∧ e = .cut e'

theorem compileAll_cons_of_faulty (h : Faulty t c seen text label e) :
    compileAll (t := t) c seen ((text, label) :: pairs) = .error e := by
  rw [compileAll]
  obtain ⟨hseen, rfl⟩ | ⟨hseen, hblank, e', he', rfl⟩ := h
  · rw [if_pos hseen]
  · rw [if_neg hseen, compileCut_eq_error_iff.2 ⟨hblank, he'⟩]

/-- A label and its cut are at fault, or the cut is compiled and the label is taken from there on. -/
theorem faulty_or_compileAll_cons (t : ObjectType) (c : CompilerConfig) (seen : List String) (text label : String) :
    (∃ e, Faulty t c seen text label e) ∨ label ∉ seen ∧ ∃ cut, compileCut (t := t) c text = .ok cut ∧
      ∀ pairs, compileAll c seen ((text, label) :: pairs) =
        (compileAll c (label :: seen) pairs).map fun cuts => ⟨label, cut⟩ :: cuts := by
  by_cases hseen : label ∈ seen
  · exact .inl ⟨_, .inl ⟨hseen, rfl⟩⟩
  · cases hcut : compileCut (t := t) c text with
    | error e' =>
      obtain ⟨hblank, he'⟩ := compileCut_eq_error_iff.1 hcut
      exact .inl ⟨_, .inr ⟨hseen, hblank, e', he', rfl⟩⟩
    | ok cut =>
      refine .inr ⟨hseen, cut, rfl, fun pairs => ?_⟩
      rw [compileAll, if_neg hseen, hcut]

/-- **Cuts compile to cuts of the same labels, one by one.** -/
theorem compileAll_eq_ok_iff : compileAll c seen pairs = .ok cuts ↔
    (pairs.map Prod.snd).Nodup ∧ (∀ label ∈ pairs.map Prod.snd, label ∉ seen) ∧
      List.Forall₂ (fun p cut => cut.label = p.2 ∧ compileCut c p.1 = .ok cut.cut) pairs cuts := by
  induction pairs generalizing seen cuts with
  | nil =>
    rw [compileAll, Except.ok.injEq, List.forall₂_nil_left_iff]
    simp [eq_comm]
  | cons p pairs ih =>
    obtain ⟨text, label⟩ := p
    obtain ⟨e, hfault⟩ | ⟨hseen, cut, hcut, hcons⟩ := faulty_or_compileAll_cons t c seen text label
    · rw [compileAll_cons_of_faulty hfault]
      refine iff_of_false nofun ?_
      rintro ⟨-, hfree, hcuts⟩
      obtain ⟨cut, cuts, ⟨-, hcut⟩, -, rfl⟩ := List.forall₂_cons_left_iff.1 hcuts
      obtain ⟨hseen, -⟩ | ⟨-, hblank, e', he', -⟩ := hfault
      · exact hfree label List.mem_cons_self hseen
      · cases hcut.symm.trans (compileCut_eq_error_iff.2 ⟨hblank, he'⟩)
    · rw [hcons, map_eq_ok, List.map_cons, List.nodup_cons, List.forall_mem_cons, List.forall₂_cons_left_iff]
      simp only [ih, List.mem_cons, not_or]
      constructor
      · rintro ⟨cuts, ⟨hnodup, hfree, hcuts⟩, rfl⟩
        exact ⟨⟨fun hmem => (hfree label hmem).1 rfl, hnodup⟩, ⟨hseen, fun l hl => (hfree l hl).2⟩,
          ⟨label, cut⟩, cuts, ⟨rfl, hcut⟩, hcuts, rfl⟩
      · rintro ⟨⟨hnew, hnodup⟩, ⟨-, hfree⟩, ⟨label', cut'⟩, cuts, ⟨rfl, hcut'⟩, hcuts, rfl⟩
        obtain rfl := Except.ok.inj (hcut.symm.trans hcut')
        exact ⟨cuts, ⟨hnodup, fun l hl => ⟨fun heq => hnew (heq ▸ hl), hfree l hl⟩, hcuts⟩, rfl⟩

theorem exists_forall₂_iff : (∃ cuts : List (LabelledCut t),
      List.Forall₂ (fun p cut => cut.label = p.2 ∧ compileCut c p.1 = .ok cut.cut) pairs cuts) ↔
    ∀ p ∈ pairs, Sound t c p.1 := by
  induction pairs with
  | nil => simp
  | cons p pairs ih =>
    rw [List.forall_mem_cons, ← ih, sound_iff]
    simp only [List.forall₂_cons_left_iff]
    constructor
    · rintro ⟨_, cut, cuts, ⟨-, hcut⟩, hcuts, -⟩
      exact ⟨⟨_, hcut⟩, cuts, hcuts⟩
    · rintro ⟨⟨cut, hcut⟩, cuts, hcuts⟩
      exact ⟨_, ⟨p.2, cut⟩, cuts, ⟨rfl, hcut⟩, hcuts, rfl⟩

theorem exists_compileAll_iff : (∃ cuts, compileAll (t := t) c seen pairs = .ok cuts) ↔
    (pairs.map Prod.snd).Nodup ∧ (∀ label ∈ pairs.map Prod.snd, label ∉ seen) ∧ ∀ p ∈ pairs, Sound t c p.1 := by
  simp only [compileAll_eq_ok_iff, exists_and_left, exists_forall₂_iff]

/-- **Cuts are refused for the first of them that is at fault.** -/
theorem compileAll_eq_error_iff : compileAll (t := t) c seen pairs = .error e ↔
    ∃ before text label rest, pairs = before ++ (text, label) :: rest ∧
      (∃ cuts, compileAll (t := t) c seen before = .ok cuts) ∧
      Faulty t c (before.map Prod.snd ++ seen) text label e := by
  induction pairs generalizing seen with
  | nil => simp [compileAll]
  | cons p pairs ih =>
    obtain ⟨text, label⟩ := p
    have hmem (before : List (String × String)) (l : String) :
        l ∈ before.map Prod.snd ++ label :: seen ↔ l ∈ ((text, label) :: before).map Prod.snd ++ seen := by
      simp only [List.map_cons, List.mem_append, List.mem_cons]
      tauto
    obtain ⟨e', hfault⟩ | ⟨-, cut, -, hcons⟩ := faulty_or_compileAll_cons t c seen text label
    · rw [compileAll_cons_of_faulty hfault, Except.error.injEq]
      constructor
      · rintro rfl
        exact ⟨[], text, label, pairs, rfl, ⟨[], rfl⟩, hfault⟩
      · rintro ⟨_ | ⟨_, before⟩, _, _, rest, ⟨⟩, ⟨cuts, hcuts⟩, hfault'⟩
        · have herror : compileAll (t := t) c seen [(text, label)] = .error e := compileAll_cons_of_faulty hfault'
          rw [compileAll_cons_of_faulty hfault] at herror
          exact Except.error.inj herror
        · cases hcuts.symm.trans (compileAll_cons_of_faulty hfault)
    · have hexists (before : List (String × String)) :
          (∃ cuts, compileAll (t := t) c seen ((text, label) :: before) = .ok cuts) ↔
            ∃ cuts, compileAll (t := t) c (label :: seen) before = .ok cuts := by
        rw [hcons, exists_map_eq_ok]
      rw [hcons, map_eq_error, ih]
      constructor
      · rintro ⟨before, text', label', rest, rfl, hbefore, hfault⟩
        refine ⟨(text, label) :: before, text', label', rest, rfl, (hexists before).2 hbefore, ?_⟩
        simpa only [Faulty, hmem] using hfault
      · rintro ⟨_ | ⟨_, before⟩, text', label', rest, ⟨⟩, hbefore, hfault⟩
        · obtain ⟨cuts, hcuts⟩ : ∃ cuts, compileAll (t := t) c seen [(text, label)] = .ok cuts := ⟨_, hcons []⟩
          cases hcuts.symm.trans (compileAll_cons_of_faulty hfault)
        · refine ⟨before, text', label', rest, rfl, (hexists before).1 hbefore, ?_⟩
          simpa only [Faulty, hmem] using hfault

/-! ## Counts -/

theorem toInt_clamp (n : ℕ) : (clamp n).toInt = min Int32.maxValue.toInt n := by
  have hnat : Int32.maxValue.toNatClampNeg = 2147483647 := rfl
  have hint : Int32.maxValue.toInt = 2147483647 := rfl
  rw [clamp, hnat, hint, Int32.toInt_ofNat_of_lt (by omega)]
  omega

/-- A count that stops at the greatest integer is found from two counts that do. -/
theorem toInt_clamp_add (m n : ℕ) :
    (clamp (m + n)).toInt = min Int32.maxValue.toInt ((clamp m).toInt + (clamp n).toInt) := by
  have hint : Int32.maxValue.toInt = 2147483647 := rfl
  rw [toInt_clamp, toInt_clamp, toInt_clamp, hint]
  omega

variable {xs ys : List t.Record} {n : ObjectCounter t} {cut : LabelledCut t}

theorem LabelledCut.count_perm (cut : LabelledCut t) (h : xs.Perm ys) :
    LabelledCut.count cut xs = LabelledCut.count cut ys := by
  unfold LabelledCut.count
  cases cut.cut with
  | none => exact h.length_eq
  | some f => exact h.countP_eq _

theorem LabelledCut.count_append (cut : LabelledCut t) (xs ys : List t.Record) :
    LabelledCut.count cut (xs ++ ys) = LabelledCut.count cut xs + LabelledCut.count cut ys := by
  unfold LabelledCut.count
  cases cut.cut with
  | none => exact List.length_append
  | some f => exact List.countP_append

theorem count_perm (h : xs.Perm ys) : n.count xs = n.count ys := by
  simp only [count, LabelledCut.count_perm _ h]

theorem entries_count (h : n.labels.Nodup) (xs : List t.Record) :
    (n.count xs).entries = n.cuts.map fun cut => (cut.label, clamp (LabelledCut.count cut xs)) := by
  refine OrderedMap.entries_ofList ?_
  rw [List.map_map]
  exact h

theorem keys_count (h : n.labels.Nodup) (xs : List t.Record) : (n.count xs).keys = n.labels := by
  rw [OrderedMap.keys, entries_count h, List.map_map]
  rfl

theorem get?_count (h : n.labels.Nodup) (hcut : cut ∈ n.cuts) (xs : List t.Record) :
    (n.count xs).get? cut.label = some (clamp (LabelledCut.count cut xs)) := by
  rw [← OrderedMap.mem_entries_iff, entries_count h]
  exact List.mem_map_of_mem hcut

/-- How many objects the cut of a text lets pass: all of them if it is blank, and else those of which it is true. -/
def Passing (c : CompilerConfig) (text : String) (xs : List t.Record) (k : ℕ) : Prop :=
  Text.trim text = "" ∧ k = xs.length ∨
  Text.trim text ≠ "" ∧ ∃ f, c.compile .bool t (Text.trim text) = .ok f ∧ k = xs.countP f.evaluate

theorem passing_count (h : compileCut c text = .ok cut.cut) (xs : List t.Record) :
    Passing c text xs (LabelledCut.count cut xs) := by
  obtain ⟨label, cut⟩ := cut
  by_cases hblank : Text.trim text = ""
  · rw [compileCut_of_blank hblank] at h
    cases h
    exact .inl ⟨hblank, rfl⟩
  · rw [compileCut_of_not_blank hblank, map_eq_ok] at h
    obtain ⟨f, hf, rfl⟩ := h
    exact .inr ⟨hblank, f, hf, rfl⟩

/-! ## Counters -/

variable {texts labels : List String}

theorem ofCuts_of_length (h : texts.length = labels.length) :
    ofCuts t c texts labels = (compileAll c [] (texts.zip labels)).map ObjectCounter.mk := if_neg (not_not.2 h)

theorem exists_ofCuts_iff : (∃ n, ofCuts t c texts labels = .ok n) ↔
    texts.length = labels.length ∧ labels.Nodup ∧ ∀ text ∈ texts, Sound t c text := by
  by_cases hlength : texts.length = labels.length
  · have hsound : (∀ p ∈ texts.zip labels, Sound t c p.1) ↔ ∀ text ∈ (texts.zip labels).map Prod.fst, Sound t c text :=
      List.forall_mem_map.symm
    have hcompile : (∃ cuts, compileAll (t := t) c [] (texts.zip labels) = .ok cuts) ↔ _ := exists_compileAll_iff
    rw [hsound, List.map_fst_zip hlength.le, List.map_snd_zip hlength.ge] at hcompile
    simpa [ofCuts_of_length hlength, exists_map_eq_ok, hlength] using hcompile
  · simp [ofCuts, hlength]

theorem ofCuts_eq_error_iff : ofCuts t c texts labels = .error e ↔
    texts.length ≠ labels.length ∧ e = .unequalLengths texts.length labels.length ∨
    texts.length = labels.length ∧ ∃ before text label rest, texts.zip labels = before ++ (text, label) :: rest ∧
      (before.map Prod.snd).Nodup ∧ (∀ p ∈ before, Sound t c p.1) ∧ Faulty t c (before.map Prod.snd) text label e := by
  by_cases hlength : texts.length = labels.length
  · have herror : compileAll (t := t) c [] (texts.zip labels) = .error e ↔ _ := compileAll_eq_error_iff
    simp only [exists_compileAll_iff, List.append_nil, List.not_mem_nil, not_false_eq_true, implies_true, true_and,
      and_assoc] at herror
    rw [ofCuts_of_length hlength, map_eq_error, herror]
    simp only [hlength, ne_eq, not_true_eq_false, false_and, false_or, true_and]
  · simp [ofCuts, hlength, eq_comm]

/-- The cuts of a counter are those that it was made of. -/
theorem ofCuts_eq_ok (h : ofCuts t c texts labels = .ok n) : n.labels = labels ∧ labels.Nodup ∧
    ∀ p ∈ texts.zip labels, ∃ cut ∈ n.cuts, cut.label = p.2 ∧ compileCut c p.1 = .ok cut.cut := by
  have hlength := (exists_ofCuts_iff.1 ⟨n, h⟩).1
  rw [ofCuts_of_length hlength, map_eq_ok] at h
  obtain ⟨cuts, hcuts, rfl⟩ := h
  obtain ⟨hnodup, -, hforall⟩ := compileAll_eq_ok_iff.1 hcuts
  rw [List.map_snd_zip hlength.ge] at hnodup
  have hlabels : List.Forall₂ (fun l l' => l = l') ((texts.zip labels).map Prod.snd) (cuts.map LabelledCut.label) :=
    List.forall₂_map_left_iff.2 (List.forall₂_map_right_iff.2 (hforall.imp fun _ _ hcut => hcut.1.symm))
  rw [List.forall₂_eq_eq_eq, List.map_snd_zip hlength.ge] at hlabels
  obtain ⟨hsize, hget⟩ := List.forall₂_iff_get.1 hforall
  refine ⟨hlabels.symm, hnodup, fun p hp => ?_⟩
  obtain ⟨i, hi, rfl⟩ := List.mem_iff_getElem.1 hp
  exact ⟨_, List.getElem_mem (hsize ▸ hi), hget i hi (hsize ▸ hi)⟩

/-- **What counters there are, and what they count.**  There is a counter of cuts and labels if there are as many of the
ones as of the others, no label comes twice and every cut that is not blank compiles.  Else the lists are refused for
their lengths, or for the first position at fault.  A counter counts each label once, in the order of the labels, with
the number of objects that the cut of its position lets pass, or the greatest integer.  The order of the objects does
not matter, and the counts of two lists add up to those of their concatenation, or to the greatest integer. -/
theorem ofCuts_count (t : ObjectType) (c : CompilerConfig) (texts labels : List String) :
    ((∃ n, ofCuts t c texts labels = .ok n) ↔
      texts.length = labels.length ∧ labels.Nodup ∧ ∀ text ∈ texts, Sound t c text) ∧
    (∀ e, ofCuts t c texts labels = .error e ↔
      texts.length ≠ labels.length ∧ e = .unequalLengths texts.length labels.length ∨
      texts.length = labels.length ∧ ∃ before text label rest, texts.zip labels = before ++ (text, label) :: rest ∧
        (before.map Prod.snd).Nodup ∧ (∀ p ∈ before, Sound t c p.1) ∧
        Faulty t c (before.map Prod.snd) text label e) ∧
    ∀ n, ofCuts t c texts labels = .ok n →
      (∀ xs, (n.count xs).keys = labels) ∧
      (∀ xs, ∀ p ∈ texts.zip labels, ∃ i k, (n.count xs).get? p.2 = some i ∧ Passing c p.1 xs k ∧
        i.toInt = min Int32.maxValue.toInt k) ∧
      (∀ xs ys, xs.Perm ys → n.count xs = n.count ys) ∧
      ∀ xs ys, ∀ label ∈ labels, ∃ i j k, (n.count xs).get? label = some i ∧ (n.count ys).get? label = some j ∧
        (n.count (xs ++ ys)).get? label = some k ∧ k.toInt = min Int32.maxValue.toInt (i.toInt + j.toInt) := by
  refine ⟨exists_ofCuts_iff, fun e => ofCuts_eq_error_iff, fun n hn => ?_⟩
  obtain ⟨rfl, hnodup, hcuts⟩ := ofCuts_eq_ok hn
  refine ⟨keys_count hnodup, fun xs p hp => ?_, fun xs ys => count_perm, fun xs ys label hlabel => ?_⟩
  · obtain ⟨cut, hmem, hlabel, hcut⟩ := hcuts p hp
    exact ⟨_, _, hlabel ▸ get?_count hnodup hmem xs, passing_count hcut xs, toInt_clamp _⟩
  · obtain ⟨cut, hmem, rfl⟩ := List.mem_map.1 hlabel
    refine ⟨_, _, _, get?_count hnodup hmem xs, get?_count hnodup hmem ys, get?_count hnodup hmem _, ?_⟩
    rw [LabelledCut.count_append, toInt_clamp_add]

/-- A blank cut counts all muons, a cut on a quantity that no muon has counts none, and a number is true if it is not
zero. -/
theorem ofCuts_count_muons :
    let muon (pt : Float) : Muon := { p4 := { px := pt, energy := pt } }
    let texts := [" pt > 20 ", "\t", "userFloat('x') > 0", "pt - 5"]
    ∃ n, ofCuts .muon {} texts ["hard", "all", "x", "other"] = .ok n ∧
      ∀ xs, xs.Perm [muon 25, muon 5, muon 30] →
        (n.count xs).entries = [("hard", 2), ("all", 3), ("x", 0), ("other", 2)] := by
  intro muon texts
  obtain ⟨hexists, -, hcount⟩ := ofCuts_count .muon {} texts ["hard", "all", "x", "other"]
  have hsound : ∀ text ∈ texts, Sound .muon {} text := fun text htext hblank => by
    have hall : ∀ text ∈ texts, Text.trim text ≠ "" →
        ((({} : CompilerConfig).compile .bool .muon (Text.trim text)).isOk) = true := by decide +kernel
    exact exists_of_isOk (hall text htext hblank)
  obtain ⟨n, hn⟩ := hexists.2 ⟨rfl, by decide, hsound⟩
  have hentries : ((ofCuts .muon {} texts ["hard", "all", "x", "other"]).toOption.map fun n =>
      (n.count [muon 25, muon 5, muon 30]).entries) = some [("hard", 2), ("all", 3), ("x", 0), ("other", 2)] := by
    decide +kernel
  rw [hn] at hentries
  refine ⟨n, hn, fun xs hxs => ?_⟩
  rw [(hcount n hn).2.2.1 xs _ hxs]
  exact Option.some.inj hentries

end ObjectCounter
end FlatNtuple
