import FlatNtuple.Decimal.Numeral
import FlatNtuple.Proofs.Binary.Pattern
import FlatNtuple.Proofs.Decimal.Shortest
/-!
# Reading numerals

What a numeral is read as depends on its value only, and every decimal that rounds to a number is read as that number
(`toFloat_eq`).  `Numeral.Proper` says how a numeral is written; one that is written so is split off whatever follows it
that does not go on with it (`split_proper`).
-/
namespace FlatNtuple

open Binary Binary.Format

/-! ## From decimals to numbers -/

namespace Decimal

/-- The bounds beyond which digits are not looked at lie outside the format. -/
theorem leading_bounds {d : Decimal} {m : ℕ} {e : ℤ} (hd : 0 < d.digits) (hm : 0 < m) (hc : binary64.Canonical m e)
    (htop : binary64.pattern m e < binary64.topField * 2 ^ binary64.fractionBits)
    (h : binary64.RoundsTo d.value m e) : -330 ≤ d.leading ∧ d.leading ≤ 310 := by
  obtain ⟨hlow, hhigh⟩ := value_bounds hd
  have hleast := hc.least
  have hm' : m < 2 ^ 53 := hc.lt
  have he : e ≤ 971 := by
    by_contra hgt
    have := hc.normal (by simp [leastExponent, bias, binary64]; omega)
    simp only [pattern, topField, leastExponent, bias, binary64] at htop this
    omega
  constructor
  · have hvalue : (10 : ℚ) ^ (-330 : ℤ) < 10 ^ (d.leading + 1) := calc
      (10 : ℚ) ^ (-330 : ℤ) ≤ 1 / 2 * 2 ^ (-1074 : ℤ) := by
        have : (2 * 2 ^ 1074 : ℚ) ≤ 10 ^ 330 := by exact_mod_cast (by decide +kernel : 2 * 2 ^ 1074 ≤ 10 ^ 330)
        rw [zpow_neg, zpow_neg, zpow_ofNat, zpow_ofNat, one_div, ← mul_inv]
        exact inv_anti₀ (by positivity) this
      _ ≤ 1 / 2 * 2 ^ e := by
        have := zpow_le_zpow_right₀ (one_le_two (α := ℚ)) (show (-1074 : ℤ) ≤ e from hleast)
        gcongr
      _ ≤ (m - binary64.gapBelow m e) * 2 ^ e := by
        have hgap := gapBelow_le (F := binary64) (m := m) (e := e)
        have hone : (1 : ℚ) ≤ m := by exact_mod_cast hm
        gcongr
        linarith
      _ ≤ d.value := h.low
      _ < 10 ^ (d.leading + 1) := hhigh
    have := (zpow_lt_zpow_iff_right₀ (by norm_num)).1 hvalue
    omega
  · have hvalue : (10 : ℚ) ^ d.leading < 10 ^ (311 : ℤ) := calc
      (10 : ℚ) ^ d.leading ≤ d.value := hlow
      _ ≤ (m + 1 / 2) * 2 ^ e := h.high
      _ ≤ 2 ^ (53 : ℤ) * 2 ^ (971 : ℤ) := by
        have h₁ : (m : ℚ) + 1 / 2 ≤ 2 ^ (53 : ℤ) := by
          have : (m : ℚ) + 1 ≤ 2 ^ 53 := by exact_mod_cast hm'
          have : (2 : ℚ) ^ 53 = 2 ^ (53 : ℤ) := by norm_num
          linarith
        have h₂ : (2 : ℚ) ^ e ≤ 2 ^ (971 : ℤ) := zpow_le_zpow_right₀ one_le_two he
        gcongr
      _ < 10 ^ (311 : ℤ) := by
        have : (2 ^ 53 * 2 ^ 971 : ℚ) < 10 ^ 311 := by exact_mod_cast (by decide +kernel : 2 ^ 53 * 2 ^ 971 < 10 ^ 311)
        rwa [zpow_ofNat, zpow_ofNat, zpow_ofNat]
    have := (zpow_lt_zpow_iff_right₀ (by norm_num)).1 hvalue
    omega

/-- A decimal that rounds to a number is read as its bits. -/
theorem toFloat_of_roundsTo {d : Decimal} {m : ℕ} {e : ℤ} (hd : 0 < d.digits) (hm : 0 < m)
    (hc : binary64.Canonical m e) (htop : binary64.pattern m e < binary64.topField * 2 ^ binary64.fractionBits)
    (h : binary64.RoundsTo d.value m e) : d.toFloat = Float.ofBits (UInt64.ofNat (binary64.pattern m e)) := by
  obtain ⟨hleast, hmost⟩ := leading_bounds hd hm hc htop h
  unfold toFloat
  rw [if_neg hd.ne', if_neg (by omega), if_neg (by omega)]
  split
  · rename_i hk
    have hpow := zpow_eq_natCast (b := 10) hk
    have hround : binary64.RoundsTo ((d.digits * 10 ^ d.exponent.toNat : ℕ) / (1 : ℕ) : ℚ) m e := by
      rw [Nat.cast_one, div_one, Nat.cast_mul, ← hpow]
      exact h
    rw [nearest_eq hc (by positivity) one_pos hround htop.le]
  · rename_i hk
    have hpow := zpow_eq_inv (b := 10) (not_le.1 hk)
    have hround : binary64.RoundsTo (d.digits / (10 ^ (-d.exponent).toNat : ℕ) : ℚ) m e := by
      rw [div_eq_mul_inv, ← hpow]
      exact h
    rw [nearest_eq hc hd (by positivity) hround htop.le]

/-- **A decimal that rounds to a number is read as the number.** -/
theorem toFloat_eq {d : Decimal} {x : Float} {m : ℕ} {e : ℤ} (hd : 0 < d.digits) (hm : 0 < m)
    (hx : ofFloat x = .finite false m e) (h : binary64.RoundsTo d.value m e) : d.toFloat = x := by
  have hbits : x.toBits.toNat < 2 * binary64.signWeight := x.toBits.toNat_lt
  obtain ⟨hc, hpattern, htop⟩ := decode_eq_finite hbits hx
  rw [toFloat_of_roundsTo hd hm hc htop h, ← show x.toBits.toNat = binary64.pattern m e from hpattern,
    UInt64.ofNat_toNat, ofBits_toBits]

/-- Zero is the number without digits. -/
theorem toFloat_zero {d : Decimal} {x : Float} {e : ℤ} (hd : d.digits = 0) (hx : ofFloat x = .finite false 0 e) :
    d.toFloat = x := by
  have hbits : x.toBits.toNat < 2 * binary64.signWeight := x.toBits.toNat_lt
  obtain ⟨hc, hpattern, htop⟩ := decode_eq_finite hbits hx
  have he : e = binary64.leastExponent := by
    rcases hc.least.eq_or_lt with he | he
    · exact he.symm
    · have := hc.normal he
      simp at this
  have hzero : x.toBits.toNat = 0 := by rw [hpattern, he]; simp [withSign, pattern]
  rw [← ofBits_toBits x, ← UInt64.ofNat_toNat (x := x.toBits), hzero, toFloat, if_pos hd]
  decide

end Decimal

/-! ## Splitting numerals off -/

namespace Numeral

/-- No digit comes next. -/
def NoDigit (cs : List Char) : Prop := ∀ c t, cs = c :: t → c.isDigit = false

/-- What comes next goes on with no numeral. -/
def Apart (cs : List Char) : Prop :=
  ∀ c t, cs = c :: t → c.isDigit = false ∧ isMark c = false ∧ (c = '.' → NoDigit t)

/-- The parts of a numeral are written as they should be: digits, a point with digits, and a mark with a sign or none and
digits. -/
structure Proper (n : Numeral) : Prop where
  whole : ∀ c ∈ n.whole, c.isDigit = true
  fraction : n.fraction = [] ∨ ∃ ds, n.fraction = '.' :: ds ∧ ds ≠ [] ∧ ∀ c ∈ ds, c.isDigit = true
  exponent : n.exponent = [] ∨ ∃ e sign ds, n.exponent = e :: (sign ++ ds) ∧ isMark e = true ∧
    (∀ s ∈ sign, isSign s = true) ∧ sign.length ≤ 1 ∧ ds ≠ [] ∧ ∀ c ∈ ds, c.isDigit = true

theorem Apart.noDigit {cs : List Char} (h : Apart cs) : NoDigit cs := fun c t hc => (h c t hc).1

/-- What is taken off a text by a class ends within the text, if what comes next does not begin with the class. -/
theorem span_append {p : Char → Bool} (cs : List Char) {rest : List Char} (h : ∀ c t, rest = c :: t → p c = false) :
    (cs ++ rest).takeWhile p = cs.takeWhile p ∧ (cs ++ rest).dropWhile p = cs.dropWhile p ++ rest := by
  induction cs with
  | nil =>
    cases rest with
    | nil => exact ⟨rfl, rfl⟩
    | cons c t =>
      have hc := h c t rfl
      exact ⟨List.takeWhile_cons_of_neg (by simp [hc]), List.dropWhile_cons_of_neg (by simp [hc])⟩
  | cons c cs ih =>
    by_cases hc : p c = true
    · rw [List.cons_append, List.takeWhile_cons_of_pos hc, List.takeWhile_cons_of_pos hc, List.dropWhile_cons_of_pos hc,
        List.dropWhile_cons_of_pos hc, ih.1, ih.2]
      exact ⟨rfl, rfl⟩
    · rw [List.cons_append, List.takeWhile_cons_of_neg hc, List.takeWhile_cons_of_neg hc, List.dropWhile_cons_of_neg hc,
        List.dropWhile_cons_of_neg hc]
      exact ⟨rfl, rfl⟩

theorem span_digits {ds cs : List Char} (hds : ∀ c ∈ ds, c.isDigit = true) (hcs : NoDigit cs) :
    (ds ++ cs).takeWhile Char.isDigit = ds ∧ (ds ++ cs).dropWhile Char.isDigit = cs := by
  obtain ⟨htake, hdrop⟩ := span_append ds hcs
  rw [htake, hdrop, List.takeWhile_eq_self_iff.2 hds, List.dropWhile_eq_nil_iff.2 hds]
  exact ⟨rfl, rfl⟩

theorem takeFraction_nil {cs : List Char} (h : ∀ c t, cs = c :: t → c = '.' → NoDigit t) :
    takeFraction cs = ([], cs) := by
  unfold takeFraction
  split
  · rename_i d t
    rw [if_neg]
    rw [h '.' (d :: t) rfl rfl d t rfl]
    decide
  · rfl

theorem takeFraction_point {ds cs : List Char} (hne : ds ≠ []) (hds : ∀ c ∈ ds, c.isDigit = true) (hcs : NoDigit cs) :
    takeFraction ('.' :: ds ++ cs) = ('.' :: ds, cs) := by
  obtain ⟨d, ds, rfl⟩ := List.exists_cons_of_ne_nil hne
  obtain ⟨htake, hdrop⟩ := span_digits (fun c hc => hds c (List.mem_cons_of_mem d hc)) hcs
  simp only [List.cons_append, takeFraction, if_pos (hds d List.mem_cons_self), htake, hdrop]

theorem takeExponent_nil {cs : List Char} (h : ∀ c t, cs = c :: t → isMark c = false) : takeExponent cs = ([], cs) := by
  unfold takeExponent
  split
  · rename_i e s d t
    simp [h e (s :: d :: t) rfl]
  · rename_i e d
    simp [h e [d] rfl]
  · rfl

theorem isMark_iff {c : Char} : isMark c = true ↔ c = 'e' ∨ c = 'E' := by simp [isMark]

theorem isSign_iff {c : Char} : isSign c = true ↔ c = '+' ∨ c = '-' := by simp [isSign]

theorem not_isSign_of_isDigit {c : Char} (h : c.isDigit = true) : isSign c = false := by
  by_contra hs
  rcases isSign_iff.1 (Bool.not_eq_false _ ▸ hs) with rfl | rfl
  · exact absurd h (by decide)
  · exact absurd h (by decide)

theorem takeExponent_mark {e : Char} {sign ds cs : List Char} (he : isMark e = true)
    (hsign : ∀ s ∈ sign, isSign s = true) (hlength : sign.length ≤ 1) (hne : ds ≠ [])
    (hds : ∀ c ∈ ds, c.isDigit = true) (hcs : NoDigit cs) :
    takeExponent (e :: (sign ++ ds) ++ cs) = (e :: (sign ++ ds), cs) := by
  obtain ⟨d, ds, rfl⟩ := List.exists_cons_of_ne_nil hne
  obtain ⟨htake, hdrop⟩ := span_digits (fun c hc => hds c (List.mem_cons_of_mem d hc)) hcs
  have hd := hds d List.mem_cons_self
  match sign, hlength with
  | [], _ =>
    simp only [List.nil_append, List.cons_append]
    cases ht : ds ++ cs with
    | nil =>
      obtain ⟨rfl, rfl⟩ := List.append_eq_nil_iff.1 ht
      simp [takeExponent, he, hd]
    | cons x t =>
      rw [ht] at htake hdrop
      simp [takeExponent, he, hd, not_isSign_of_isDigit hd, htake, hdrop]
  | [s], _ =>
    have hs := hsign s List.mem_cons_self
    simp [takeExponent, he, hs, hd, htake, hdrop]

/-- **A numeral is split off what follows it.** -/
theorem split_proper {n : Numeral} {cs : List Char} (h : n.Proper) (hcs : Apart cs) : split (n.chars ++ cs) = (n, cs) := by
  have hexponent : takeExponent (n.exponent ++ cs) = (n.exponent, cs) := by
    rcases h.exponent with he | ⟨e, sign, ds, he, hmark, hsign, hlength, hne, hds⟩
    · rw [he]
      exact takeExponent_nil fun c t hc => (hcs c t hc).2.1
    · rw [he]
      exact takeExponent_mark hmark hsign hlength hne hds hcs.noDigit
  have hmark : ∀ c t, n.exponent ++ cs = c :: t → c.isDigit = false ∧ (c = '.' → NoDigit t) := by
    intro c t hc
    rcases h.exponent with he | ⟨e, sign, ds, he, hmark, -⟩
    · rw [he] at hc
      exact ⟨(hcs c t hc).1, (hcs c t hc).2.2⟩
    · rw [he, List.cons_append] at hc
      obtain ⟨rfl, -⟩ := List.cons.inj hc
      rcases isMark_iff.1 hmark with rfl | rfl
      · exact ⟨rfl, nofun⟩
      · exact ⟨rfl, nofun⟩
  have hfraction : takeFraction (n.fraction ++ (n.exponent ++ cs)) = (n.fraction, n.exponent ++ cs) := by
    rcases h.fraction with hf | ⟨ds, hf, hne, hds⟩
    · rw [hf]
      exact takeFraction_nil fun c t hc => (hmark c t hc).2
    · rw [hf]
      exact takeFraction_point hne hds fun c t hc => (hmark c t hc).1
  have hpoint : NoDigit (n.fraction ++ (n.exponent ++ cs)) := by
    intro c t hc
    rcases h.fraction with hf | ⟨ds, hf, -⟩
    · rw [hf] at hc
      exact (hmark c t hc).1
    · rw [hf] at hc
      obtain ⟨rfl, -⟩ := List.cons.inj hc
      rfl
  obtain ⟨htake, hdrop⟩ := span_digits h.whole hpoint
  simp only [split, chars, List.append_assoc, htake, hdrop, hfraction, hexponent]

/-! ## Numerals in front of something else -/

/-- What comes next is part of no numeral, however much of one comes before it. -/
def Foreign (cs : List Char) : Prop :=
  ∀ c t, cs = c :: t → c.isDigit = false ∧ isMark c = false ∧ isSign c = false ∧ c ≠ '.'

theorem takeFraction_foreign {cs rest : List Char} (h : Foreign rest) :
    takeFraction (cs ++ rest) = ((takeFraction cs).1, (takeFraction cs).2 ++ rest) := by
  have hspan (ds : List Char) := span_append ds fun c t hc => (h c t hc).1
  match cs with
  | [] => exact takeFraction_nil fun c t hc hdot => absurd hdot (h c t hc).2.2.2
  | [c] =>
    have hone : takeFraction [c] = ([], [c]) := by simp [takeFraction]
    rw [hone]
    refine takeFraction_nil fun _ t hc _ d t' ht => ?_
    obtain ⟨-, rfl⟩ := List.cons.inj hc
    exact (h d t' ht).1
  | c :: d :: cs =>
    by_cases hdot : c = '.'
    · subst hdot
      simp only [List.cons_append, takeFraction]
      split
      · rw [(hspan cs).1, (hspan cs).2]
      · rfl
    · simp [takeFraction, hdot]

theorem takeExponent_foreign {cs rest : List Char} (h : Foreign rest) :
    takeExponent (cs ++ rest) = ((takeExponent cs).1, (takeExponent cs).2 ++ rest) := by
  have hspan (ds : List Char) := span_append ds fun c t hc => (h c t hc).1
  match cs with
  | [] => exact takeExponent_nil fun c t hc => (h c t hc).2.1
  | [e] =>
    match rest with
    | [] => rfl
    | [x] =>
      obtain ⟨hdigit, -⟩ := h x [] rfl
      simp [takeExponent, hdigit]
    | x :: y :: t =>
      obtain ⟨hdigit, -, hsign, -⟩ := h x _ rfl
      simp [takeExponent, hdigit, hsign]
  | [e, d] =>
    match rest with
    | [] => simp
    | x :: t =>
      obtain ⟨hdigit, -⟩ := h x _ rfl
      by_cases hd : (isMark e && d.isDigit) = true
      · simp [takeExponent, hdigit, hd]
      · simp [takeExponent, hdigit, hd]
  | e :: s :: d :: cs =>
    simp only [List.cons_append, takeExponent]
    split
    · rw [(hspan cs).1, (hspan cs).2]
    · split
      · rw [← List.cons_append, (hspan (d :: cs)).1, (hspan (d :: cs)).2]
      · rfl

/-- A numeral goes as far as before in front of what is part of none. -/
theorem split_foreign {cs rest : List Char} (h : Foreign rest) :
    split (cs ++ rest) = ((split cs).1, (split cs).2 ++ rest) := by
  obtain ⟨htake, hdrop⟩ := span_append cs fun c t hc => (h c t hc).1
  simp only [split, htake, hdrop, takeFraction_foreign h, takeExponent_foreign h]

theorem exists_of_takeFraction (cs : List Char) : (takeFraction cs).1 = [] ∨
    ∃ ds, (takeFraction cs).1 = '.' :: ds ∧ ds ≠ [] ∧ ∀ c ∈ ds, c.isDigit = true := by
  unfold takeFraction
  split
  · split
    · rename_i d cs hd
      exact .inr ⟨_, rfl, List.cons_ne_nil _ _, List.forall_mem_cons.2 ⟨hd, fun c hc => List.mem_takeWhile_imp hc⟩⟩
    · exact .inl rfl
  · exact .inl rfl

theorem exists_of_takeExponent (cs : List Char) : (takeExponent cs).1 = [] ∨
    ∃ e sign ds, (takeExponent cs).1 = e :: (sign ++ ds) ∧ isMark e = true ∧ (∀ s ∈ sign, isSign s = true) ∧
      sign.length ≤ 1 ∧ ds ≠ [] ∧ ∀ c ∈ ds, c.isDigit = true := by
  unfold takeExponent
  split
  · rename_i e s d cs
    split
    · rename_i h
      simp only [Bool.and_eq_true] at h
      obtain ⟨⟨he, hs⟩, hd⟩ := h
      exact .inr ⟨e, [s], d :: cs.takeWhile Char.isDigit, rfl, he, List.forall_mem_singleton.2 hs, Nat.le_refl 1,
        List.cons_ne_nil _ _, List.forall_mem_cons.2 ⟨hd, fun c hc => List.mem_takeWhile_imp hc⟩⟩
    · split
      · rename_i h
        simp only [Bool.and_eq_true] at h
        exact .inr ⟨e, [], s :: (d :: cs).takeWhile Char.isDigit, rfl, h.1, nofun, Nat.zero_le 1,
          List.cons_ne_nil _ _, List.forall_mem_cons.2 ⟨h.2, fun c hc => List.mem_takeWhile_imp hc⟩⟩
      · exact .inl rfl
  · rename_i e d
    split
    · rename_i h
      simp only [Bool.and_eq_true] at h
      exact .inr ⟨e, [], [d], rfl, h.1, nofun, Nat.zero_le 1, List.cons_ne_nil _ _, List.forall_mem_singleton.2 h.2⟩
    · exact .inl rfl
  · exact .inl rfl

/-- What is split off is written as a numeral should be. -/
theorem proper_split (cs : List Char) : (split cs).1.Proper where
  whole := fun _ hc => List.mem_takeWhile_imp hc
  fraction := exists_of_takeFraction _
  exponent := exists_of_takeExponent _

/-- A numeral by itself is all of it. -/
theorem split_chars (cs : List Char) : split (split cs).1.chars = ((split cs).1, []) := by
  have h : split ((split cs).1.chars ++ []) = ((split cs).1, []) := split_proper (proper_split cs) nofun
  rwa [List.append_nil] at h

end Numeral
end FlatNtuple
