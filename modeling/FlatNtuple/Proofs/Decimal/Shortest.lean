import FlatNtuple.Decimal.Shortest
import FlatNtuple.Proofs.Binary.Nearest
/-!
# Shortest decimals

The decimal that `Decimal.shortest` picks rounds to the number it was picked for (`shortest_roundsTo`).  The search for
it takes points of decimal grids that lie in the interval of the number, so what has to be shown is that there is one:
on the seventeenth grid the nearest point is close enough.
-/
namespace FlatNtuple
namespace Decimal

open Binary Binary.Format

/-- The number that a decimal is. -/
def value (d : Decimal) : ℚ := d.digits * 10 ^ d.exponent

theorem value_eq_zero_iff {d : Decimal} : d.value = 0 ↔ d.digits = 0 := by
  rw [value, mul_eq_zero, Nat.cast_eq_zero, or_iff_left (zpow_ne_zero _ (by norm_num))]

/-! ## Magnitudes -/

theorem width_pos (n : ℕ) : 0 < width n := Nat.length_toDigits_pos

theorem lt_pow_width (n : ℕ) : n < 10 ^ width n :=
  (Nat.length_toDigits_le_iff (by decide) (width_pos n)).1 (le_refl _)

theorem pow_width_le {n : ℕ} (hn : 0 < n) : 10 ^ (width n - 1) ≤ n := by
  by_contra h
  rcases Nat.eq_zero_or_pos (width n - 1) with hw | hw
  · rw [hw] at h
    omega
  · have := (Nat.length_toDigits_le_iff (by decide) hw).2 (not_le.1 h)
    unfold width at this hw
    omega

theorem magnitude_spec {num den : ℕ} (hnum : 0 < num) (hden : 0 < den) :
    (10 : ℚ) ^ magnitude num den ≤ num / den ∧ (num / den : ℚ) < 10 ^ (magnitude num den + 1) := by
  have hw := width_pos num
  have hw' := width_pos den
  refine floorLog_of_digits (b := 10) (by decide) hden (pow_width_le hnum) ?_ (pow_width_le hden) ?_
    (g := (width num : ℤ) - width den) (by omega) rfl
  · rw [Nat.sub_add_cancel hw]
    exact lt_pow_width num
  · rw [Nat.sub_add_cancel hw']
    exact lt_pow_width den

/-- The exponent of the leading digit says how large a decimal is. -/
theorem value_bounds {d : Decimal} (hd : 0 < d.digits) :
    (10 : ℚ) ^ d.leading ≤ d.value ∧ d.value < 10 ^ (d.leading + 1) := by
  have hw := width_pos d.digits
  have hten (k : ℕ) : (10 : ℚ) ^ k * 10 ^ d.exponent = 10 ^ (d.exponent + k) := by
    rw [← zpow_natCast, ← zpow_add₀ (by norm_num), add_comm]
  unfold value leading
  constructor
  · calc (10 : ℚ) ^ (d.exponent + width d.digits - 1) = 10 ^ (width d.digits - 1) * 10 ^ d.exponent := by
          rw [hten]; congr 1; omega
      _ ≤ d.digits * 10 ^ d.exponent := by
          have := pow_width_le hd
          gcongr
          exact_mod_cast this
  · calc (d.digits : ℚ) * 10 ^ d.exponent < 10 ^ width d.digits * 10 ^ d.exponent := by
          have := lt_pow_width d.digits
          gcongr
          exact_mod_cast this
      _ = 10 ^ (d.exponent + width d.digits - 1 + 1) := by rw [hten, sub_add_cancel]

/-! ## Intervals -/

namespace Interval
variable {i : Interval} {tie : Tie} {k : ℤ} {n : ℕ}

/-- The comparisons over naturals are between a point of the grid and the ends of the interval. -/
theorem holds_iff (hden : 0 < i.den) : i.holds k n = true ↔
    if i.closed then (i.low / i.den : ℚ) ≤ n * 10 ^ k ∧ (n * 10 ^ k : ℚ) ≤ i.high / i.den
    else (i.low / i.den : ℚ) < n * 10 ^ k ∧ (n * 10 ^ k : ℚ) < i.high / i.den := by
  have hden' : (0 : ℚ) < i.den := by exact_mod_cast hden
  have hunit : (0 : ℚ) < (if 0 ≤ k then 1 else 10 ^ (-k).toNat : ℕ) := by split <;> positivity
  have hnum : ((if 0 ≤ k then n * 10 ^ k.toNat * i.den else n * i.den : ℕ) : ℚ) =
      n * 10 ^ k * i.den * (if 0 ≤ k then 1 else 10 ^ (-k).toNat : ℕ) := by
    split
    · rename_i hk
      have := zpow_eq_natCast (b := 10) hk
      push_cast at this ⊢
      rw [this]
      ring
    · rename_i hk
      have := zpow_eq_inv (b := 10) (not_le.1 hk)
      push_cast at this ⊢
      rw [this]
      field_simp
  unfold holds
  simp only
  generalize (if 0 ≤ k then n * 10 ^ k.toNat * i.den else n * i.den : ℕ) = num at hnum ⊢
  generalize (if 0 ≤ k then 1 else 10 ^ (-k).toNat : ℕ) = unit at hnum hunit ⊢
  have hle (a : ℕ) : a * unit ≤ num ↔ (a : ℚ) ≤ n * 10 ^ k * i.den := by
    rw [← Nat.cast_le (α := ℚ), hnum, Nat.cast_mul, mul_le_mul_iff_left₀ hunit]
  have hge (a : ℕ) : num ≤ a * unit ↔ (n * 10 ^ k * i.den : ℚ) ≤ a := by
    rw [← Nat.cast_le (α := ℚ), hnum, Nat.cast_mul, mul_le_mul_iff_left₀ hunit]
  split
  · rw [decide_eq_true_iff, div_le_iff₀ hden', le_div_iff₀ hden', hle, hge]
  · rw [decide_eq_true_iff, div_lt_iff₀ hden', lt_div_iff₀ hden', ← not_le, ← not_le, hge, hle, not_le, not_le]

section
variable {F : Format} {m : ℕ} {e : ℤ}

theorem ofBinary_den_pos : 0 < (ofBinary F m e).den := by
  unfold ofBinary
  split <;> positivity

/-- A quarter of the unit in which mantissas count. -/
theorem quarter_eq (a : ℕ) :
    ((a * (if 0 ≤ e then 2 ^ e.toNat else 1) : ℕ) : ℚ) / (ofBinary F m e).den = a / 4 * 2 ^ e := by
  unfold ofBinary
  simp only
  split
  · rename_i he
    have := zpow_eq_natCast (b := 2) he
    push_cast at this ⊢
    rw [this]
    ring
  · rename_i he
    have := zpow_eq_inv (b := 2) (not_le.1 he)
    push_cast at this ⊢
    rw [this]
    field_simp

theorem ofBinary_value : ((ofBinary F m e).value / (ofBinary F m e).den : ℚ) = m * 2 ^ e := by
  refine (quarter_eq (4 * m)).trans ?_
  push_cast
  ring

theorem ofBinary_high : ((ofBinary F m e).high / (ofBinary F m e).den : ℚ) = (m + 1 / 2) * 2 ^ e := by
  refine (quarter_eq (4 * m + 2)).trans ?_
  push_cast
  ring

theorem ofBinary_low (hm : 0 < m) :
    ((ofBinary F m e).low / (ofBinary F m e).den : ℚ) = (m - F.gapBelow m e) * 2 ^ e := by
  refine (quarter_eq (4 * m - if m = 2 ^ F.fractionBits ∧ F.leastExponent < e then 1 else 2)).trans ?_
  unfold gapBelow
  split
  · rw [Nat.cast_sub (by omega)]
    push_cast
    ring
  · rw [Nat.cast_sub (by omega)]
    push_cast
    ring

/-- The interval of a number holds what rounds to it. -/
theorem holds_ofBinary_iff (hm : 0 < m) : (ofBinary F m e).holds k n = true ↔ F.RoundsTo (n * 10 ^ k) m e := by
  rw [holds_iff ofBinary_den_pos, ofBinary_low hm, ofBinary_high]
  have hclosed : (ofBinary F m e).closed = decide (m % 2 = 0) := rfl
  rw [hclosed]
  by_cases heven : m % 2 = 0
  · rw [if_pos (by simpa using heven)]
    exact ⟨fun ⟨h, h'⟩ => ⟨h, h', fun hodd => by omega⟩, fun h => ⟨h.low, h.high⟩⟩
  · rw [if_neg (by simpa using heven)]
    exact ⟨fun h => ⟨h.1.le, h.2.le, fun _ => h⟩, fun h => h.odd (by omega)⟩

end

/-! ## The search -/

theorem inUnits_spec (num : ℕ) {den : ℕ} (hden : 0 < den) :
    0 < (inUnits num den k).2 ∧ ((inUnits num den k).1 / (inUnits num den k).2 : ℚ) = num / den / 10 ^ k := by
  unfold inUnits
  split
  · rename_i hk
    exact ⟨by positivity, div_zpow_of_nonneg (b := 10) hk⟩
  · rename_i hk
    exact ⟨hden, div_zpow_of_neg (b := 10) (not_le.1 hk)⟩

theorem holds_of_neighbour (h : i.neighbour tie k = some n) : i.holds k n = true := by
  unfold neighbour at h
  generalize inUnits i.value i.den k = units at h
  simp only at h
  split at h
  · rename_i hbelow habove
    cases h
    split
    · exact hbelow
    · exact habove
  · rename_i hbelow _
    cases h
    exact hbelow
  · rename_i _ habove
    cases h
    exact habove
  · cases h

/-- Without a neighbour in the interval, neither of the two points around the number is in it. -/
theorem exists_of_neighbour_eq_none (hden : 0 < i.den) (h : i.neighbour tie k = none) :
    ∃ n : ℕ, (n * 10 ^ k : ℚ) ≤ i.value / i.den ∧ (i.value / i.den : ℚ) < (n + 1 : ℕ) * 10 ^ k ∧
      ¬ i.holds k n = true ∧ ¬ i.holds k (n + 1) = true := by
  have hpos : (0 : ℚ) < 10 ^ k := by positivity
  obtain ⟨hunits, hquotient⟩ := inUnits_spec i.value (k := k) hden
  unfold neighbour at h
  generalize inUnits i.value i.den k = units at h hunits hquotient
  obtain ⟨a, b⟩ := units
  have hb : (0 : ℚ) < b := by exact_mod_cast hunits
  simp only at h hquotient
  refine ⟨a / b, ?_, ?_, ?_⟩
  · rw [← le_div_iff₀ hpos, ← hquotient, le_div_iff₀ hb]
    exact_mod_cast Nat.div_mul_le_self a b
  · rw [← div_lt_iff₀ hpos, ← hquotient, div_lt_iff₀ hb]
    rw [mul_comm]
    exact_mod_cast Nat.lt_mul_div_succ a hunits
  · split at h
    · cases h
    · cases h
    · cases h
    · rename_i hbelow habove
      exact ⟨by rw [hbelow]; decide, by rw [habove]; decide⟩

theorem holds_of_search {fuel : ℕ} {d : Decimal} (h : i.search tie fuel k = some d) :
    i.holds d.exponent d.digits = true := by
  induction fuel generalizing k with
  | zero => cases h
  | succ fuel ih =>
    rw [search] at h
    split at h
    · rename_i n hn
      cases h
      exact holds_of_neighbour hn
    · exact ih h

theorem neighbour_of_search {fuel : ℕ} (h : i.search tie fuel k = none) (j : ℕ) (hj : j < fuel) :
    i.neighbour tie (k - j) = none := by
  induction fuel generalizing k j with
  | zero => omega
  | succ fuel ih =>
    rw [search] at h
    split at h
    · cases h
    · rename_i hn
      cases j with
      | zero => simpa using hn
      | succ j =>
        have := ih h j (by omega)
        rwa [show k - 1 - (j : ℤ) = k - (j + 1 : ℕ) by push_cast; ring] at this

/-- **Seventeen digits are enough**: a grid as fine as that has a point that rounds to the number. -/
theorem exists_search (tie : Tie) {F : Format} {m : ℕ} {e : ℤ} (hm : 0 < m) (hc : F.Canonical m e)
    (hF : 2 ^ (F.fractionBits + 1) < 10 ^ 16) :
    ∃ d, (ofBinary F m e).search tie mostDigits (magnitude (ofBinary F m e).value (ofBinary F m e).den) = some d := by
  have hden := ofBinary_den_pos (F := F) (m := m) (e := e)
  rw [← Option.isSome_iff_exists, Option.isSome_iff_ne_none]
  intro hnone
  obtain ⟨n, hlow, hhigh, hn, hn'⟩ := exists_of_neighbour_eq_none hden (neighbour_of_search hnone 16 (by decide))
  have hu : (0 : ℚ) < 2 ^ e := by positivity
  have hv : 0 < (ofBinary F m e).value := by unfold ofBinary; split <;> positivity
  have hmagnitude := (magnitude_spec hv hden).1
  rw [ofBinary_value] at hlow hhigh hmagnitude
  generalize magnitude (ofBinary F m e).value (ofBinary F m e).den = K at *
  have hgrid : (10 : ℚ) ^ (K - (16 : ℕ)) * 10 ^ 16 = 10 ^ K := by
    rw [← zpow_natCast, ← zpow_add₀ (by norm_num)]
    congr 1
    push_cast
    ring
  generalize hg : (10 : ℚ) ^ (K - (16 : ℕ)) = g at *
  -- the width of the grid is less than the gaps on both sides of the number together
  have hgap : g < 2 * F.gapBelow m e * 2 ^ e := by
    unfold gapBelow
    split
    · rename_i hleast
      have hF' : (m * 2 : ℚ) < 10 ^ 16 := by
        rw [hleast.1]
        exact_mod_cast hF
      have := mul_lt_mul_of_pos_right hF' hu
      linarith
    · have hF' : (m : ℚ) < 10 ^ 16 := by exact_mod_cast hc.lt.trans hF
      have := mul_lt_mul_of_pos_right hF' hu
      linarith
  have hgap' : 2 * F.gapBelow m e * 2 ^ e ≤ 2 ^ e := by
    have := mul_le_mul_of_nonneg_right (gapBelow_le (F := F) (m := m) (e := e)) hu.le
    linarith
  rcases le_or_gt (m * 2 ^ e - n * g) (g / 2) with hnear | hfar
  · refine hn ((holds_ofBinary_iff hm).2 ?_)
    rw [hg]
    have hlow' : (m - F.gapBelow m e) * 2 ^ e < n * g := by linarith
    have hhigh' : (n * g : ℚ) < (m + 1 / 2) * 2 ^ e := by linarith
    exact ⟨hlow'.le, hhigh'.le, fun _ => ⟨hlow', hhigh'⟩⟩
  · refine hn' ((holds_ofBinary_iff hm).2 ?_)
    rw [hg]
    have hgap₀ : (m - F.gapBelow m e) * 2 ^ e < (n + 1 : ℕ) * g := by
      have : 0 < g := by rw [← hg]; positivity
      linarith
    have hhigh' : ((n + 1 : ℕ) * g : ℚ) < (m + 1 / 2) * 2 ^ e := by
      push_cast
      linarith
    exact ⟨hgap₀.le, hhigh'.le, fun _ => ⟨hgap₀, hhigh'⟩⟩

end Interval

/-! ## The shortest decimal -/

theorem trim_spec (fuel : ℕ) {d : Decimal} (hd : 0 < d.digits) :
    0 < (trim fuel d).digits ∧ (trim fuel d).value = d.value := by
  induction fuel generalizing d with
  | zero => exact ⟨hd, rfl⟩
  | succ fuel ih =>
    rw [trim]
    split
    · rename_i hzero
      obtain ⟨q, hq⟩ := Nat.dvd_of_mod_eq_zero hzero.1
      have hdiv : d.digits / 10 = q := by omega
      obtain ⟨hpos, hvalue⟩ := ih (d := ⟨d.digits / 10, d.exponent + 1⟩) (show 0 < d.digits / 10 by omega)
      refine ⟨hpos, hvalue.trans ?_⟩
      unfold value
      rw [hdiv, hq, zpow_add_one₀ (by norm_num)]
      push_cast
      ring
    · exact ⟨hd, rfl⟩

/-- **The shortest decimal of a number rounds to the number.** -/
theorem shortest_roundsTo (tie : Tie) {F : Format} {m : ℕ} {e : ℤ} (hm : 0 < m) (hc : F.Canonical m e)
    (hF : 2 ^ (F.fractionBits + 1) < 10 ^ 16) :
    0 < (shortest tie F m e).digits ∧ F.RoundsTo (shortest tie F m e).value m e := by
  obtain ⟨d, hd⟩ := Interval.exists_search tie hm hc hF
  have hround := (Interval.holds_ofBinary_iff hm).1 (Interval.holds_of_search hd)
  have hpos : 0 < d.digits := by
    by_contra h
    have hzero : d.digits = 0 := by omega
    have hlow := hround.low
    have hgap := gapBelow_le (F := F) (m := m) (e := e)
    have hone : (1 : ℚ) ≤ m := by exact_mod_cast hm
    have hu : (0 : ℚ) < 2 ^ e := by positivity
    rw [hzero, Nat.cast_zero, zero_mul] at hlow
    have : 0 < (m - F.gapBelow m e) * 2 ^ e := mul_pos (by linarith) hu
    linarith
  obtain ⟨hdigits, hvalue⟩ := trim_spec mostDigits hpos
  unfold shortest
  simp only [hd, hvalue]
  exact ⟨hdigits, hround⟩

/-- A tenth has one digit, and `2270657.25` lies halfway between two decimals of eight digits. -/
example : shortest .up Binary.binary64 7205759403792794 (-56) = ⟨1, -1⟩ ∧
    shortest .up Binary.binary32 9082629 (-2) = ⟨22706573, -1⟩ ∧
    shortest .toEven Binary.binary32 9082629 (-2) = ⟨22706572, -1⟩ := by decide +kernel

end Decimal
end FlatNtuple
