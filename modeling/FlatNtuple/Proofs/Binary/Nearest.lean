import Mathlib
import FlatNtuple.Binary.Format
/-!
# Rounding to the nearest number of a format

`Format.nearest` works on a quotient of naturals in units of powers of two.  Here the quotient is a rational: what rounds
to a number is what lies between the middles of the gaps around it (`RoundsTo`), and `nearest_eq` shows that all of it
does.
-/
namespace FlatNtuple
namespace Binary

/-! ## Quotients in units of a power -/

section
variable {b num den : ℕ} {k : ℤ}

/-- The integer power of a base, by its sign. -/
theorem zpow_eq_natCast (hk : 0 ≤ k) : ((b : ℚ)) ^ k = ((b ^ k.toNat : ℕ) : ℚ) := by
  rw [Nat.cast_pow, ← zpow_natCast, Int.toNat_of_nonneg hk]

theorem zpow_eq_inv (hk : k < 0) : ((b : ℚ)) ^ k = ((b ^ (-k).toNat : ℕ) : ℚ)⁻¹ := by
  rw [Nat.cast_pow, ← zpow_natCast, Int.toNat_of_nonneg (by omega), zpow_neg, inv_inv]

/-- A quotient is less than a power. -/
theorem lt_zpow_iff (hb : 0 < b) (hden : 0 < den) :
    (if 0 ≤ k then num < den * b ^ k.toNat else num * b ^ (-k).toNat < den) ↔ (num / den : ℚ) < (b : ℚ) ^ k := by
  have hden' : (0 : ℚ) < den := by exact_mod_cast hden
  split
  · rename_i hk
    rw [zpow_eq_natCast hk, div_lt_iff₀ hden', mul_comm]
    norm_cast
  · rename_i hk
    have hpow : (0 : ℚ) < ((b ^ (-k).toNat : ℕ) : ℚ) := by exact_mod_cast Nat.pow_pos hb
    rw [zpow_eq_inv (by omega), div_lt_iff₀ hden', inv_mul_eq_div, lt_div_iff₀ hpow]
    norm_cast

/-- A quotient in units of a power, over naturals again. -/
theorem div_zpow_of_nonneg (hk : 0 ≤ k) : (num / (den * b ^ k.toNat : ℕ) : ℚ) = num / den / (b : ℚ) ^ k := by
  rw [zpow_eq_natCast hk, Nat.cast_mul, div_div]

theorem div_zpow_of_neg (hk : k < 0) : ((num * b ^ (-k).toNat : ℕ) / den : ℚ) = num / den / (b : ℚ) ^ k := by
  rw [zpow_eq_inv hk, Nat.cast_mul, div_inv_eq_mul]
  ring

/-- The exponent of the leading digit of a quotient, from those of its parts and one comparison. -/
theorem floorLog_of_digits {a c : ℕ} {g : ℤ} (hb : 1 < b) (hden : 0 < den) (hnum : b ^ a ≤ num) (hnum' : num < b ^ (a + 1))
    (hc : b ^ c ≤ den) (hc' : den < b ^ (c + 1)) (hg : g = a - c)
    (hk : k = if (if 0 ≤ g then num < den * b ^ g.toNat else num * b ^ (-g).toNat < den) then g - 1 else g) :
    (b : ℚ) ^ k ≤ num / den ∧ (num / den : ℚ) < (b : ℚ) ^ (k + 1) := by
  have hb' : (0 : ℚ) < b := by exact_mod_cast (by omega : 0 < b)
  have hden' : (0 : ℚ) < den := by exact_mod_cast hden
  have hupper : (num / den : ℚ) < (b : ℚ) ^ (g + 1) := by
    rw [div_lt_iff₀ hden']
    calc (num : ℚ) < (b : ℚ) ^ (a + 1) := by exact_mod_cast hnum'
      _ = (b : ℚ) ^ (g + 1) * (b : ℚ) ^ c := by
        rw [← zpow_natCast, ← zpow_natCast, ← zpow_add₀ hb'.ne']
        congr 1
        push_cast
        omega
      _ ≤ (b : ℚ) ^ (g + 1) * den := by
        refine mul_le_mul_of_nonneg_left ?_ (by positivity)
        exact_mod_cast hc
  have hlower : (b : ℚ) ^ (g - 1) ≤ num / den := by
    rw [le_div_iff₀ hden']
    calc (b : ℚ) ^ (g - 1) * den ≤ (b : ℚ) ^ (g - 1) * (b : ℚ) ^ (c + 1) := by
          refine mul_le_mul_of_nonneg_left ?_ (by positivity)
          exact_mod_cast hc'.le
      _ = (b : ℚ) ^ a := by
        rw [← zpow_natCast, ← zpow_natCast, ← zpow_add₀ hb'.ne']
        congr 1
        push_cast
        omega
      _ ≤ num := by exact_mod_cast hnum
  simp only [lt_zpow_iff (by omega : 0 < b) hden] at hk
  by_cases h : (num / den : ℚ) < (b : ℚ) ^ g
  · rw [if_pos h] at hk
    subst hk
    exact ⟨hlower, by rwa [sub_add_cancel]⟩
  · rw [if_neg h] at hk
    subst hk
    exact ⟨not_lt.1 h, hupper⟩

end

/-! ## Rounding to a natural -/

/-- What is at most half a unit away rounds to a natural, and only to an even one if it is just half a unit away. -/
theorem roundHalfEven_eq {num den m : ℕ} (hden : 0 < den) (hlow : (m : ℚ) - 1 / 2 ≤ num / den)
    (hhigh : (num / den : ℚ) ≤ m + 1 / 2)
    (hodd : m % 2 = 1 → (m : ℚ) - 1 / 2 < num / den ∧ (num / den : ℚ) < m + 1 / 2) : roundHalfEven num den = m := by
  have hden' : (0 : ℚ) < den := by exact_mod_cast hden
  have hlow' : 2 * m * den ≤ 2 * num + den := by
    rw [le_div_iff₀ hden'] at hlow
    have : (2 * m * den : ℚ) ≤ 2 * num + den := by linarith
    exact_mod_cast this
  have hhigh' : 2 * num ≤ (2 * m + 1) * den := by
    rw [div_le_iff₀ hden'] at hhigh
    have : (2 * num : ℚ) ≤ (2 * m + 1) * den := by linarith
    exact_mod_cast this
  have hodd' : m % 2 = 1 → 2 * m * den < 2 * num + den ∧ 2 * num < (2 * m + 1) * den := by
    intro hm
    obtain ⟨h₁, h₂⟩ := hodd hm
    rw [lt_div_iff₀ hden'] at h₁
    rw [div_lt_iff₀ hden'] at h₂
    have h₁' : (2 * m * den : ℚ) < 2 * num + den := by linarith
    have h₂' : (2 * num : ℚ) < (2 * m + 1) * den := by linarith
    exact ⟨by exact_mod_cast h₁', by exact_mod_cast h₂'⟩
  have hdiv := Nat.div_add_mod num den
  have hmod := Nat.mod_lt num hden
  unfold roundHalfEven
  generalize num / den = q at hdiv ⊢
  generalize num % den = r at hdiv hmod ⊢
  subst hdiv
  -- the floor of the quotient is the natural or the one below it
  have hq : q = m ∨ q + 1 = m := by
    have h₁ : m < q + 2 := by
      by_contra h
      have := Nat.mul_le_mul_right den (show q + 2 ≤ m by omega)
      nlinarith
    have h₂ : q < m + 1 := by
      by_contra h
      have := Nat.mul_le_mul_right den (show m + 1 ≤ q by omega)
      nlinarith
    omega
  rcases hq with rfl | rfl
  · have htwice : 2 * r ≤ den := by nlinarith
    rw [if_neg]
    rintro (h | ⟨h, hm⟩)
    · omega
    · have := (hodd' hm).2
      nlinarith
  · have htwice : den ≤ 2 * r := by nlinarith
    rw [if_pos]
    rcases Nat.lt_or_eq_of_le htwice with h | h
    · exact .inl h
    · refine .inr ⟨h.symm, ?_⟩
      by_contra hm
      have := (hodd' (by omega)).1
      nlinarith

/-- Halves go to the even neighbour. -/
example : [1, 3, 5, 7].map (roundHalfEven · 2) = [0, 2, 2, 4] := by decide

/-- A quotient in units of a power of two rounds likewise. -/
theorem roundHalfEven_scaled {num den m : ℕ} {k : ℤ} {q : ℚ} (hden : 0 < den) (hq : (num / den : ℚ) / 2 ^ k = q)
    (hlow : (m : ℚ) - 1 / 2 ≤ q) (hhigh : q ≤ m + 1 / 2) (hodd : m % 2 = 1 → (m : ℚ) - 1 / 2 < q ∧ q < m + 1 / 2) :
    (if 0 ≤ k then roundHalfEven num (den * 2 ^ k.toNat) else roundHalfEven (num * 2 ^ (-k).toNat) den) = m := by
  split
  · rename_i hk
    have hq' : (num / (den * 2 ^ k.toNat : ℕ) : ℚ) = q := (div_zpow_of_nonneg hk).trans hq
    exact roundHalfEven_eq (by positivity) (hq' ▸ hlow) (hq' ▸ hhigh) (hq' ▸ hodd)
  · rename_i hk
    have hq' : ((num * 2 ^ (-k).toNat : ℕ) / den : ℚ) = q := (div_zpow_of_neg (by omega)).trans hq
    exact roundHalfEven_eq hden (hq' ▸ hlow) (hq' ▸ hhigh) (hq' ▸ hodd)

/-! ## Rounding to a format -/

namespace Format

/-- A mantissa with its exponent is the one that a number of the format has. -/
structure Canonical (F : Format) (m : ℕ) (e : ℤ) : Prop where
  least : F.leastExponent ≤ e
  lt : m < 2 ^ (F.fractionBits + 1)
  normal : F.leastExponent < e → 2 ^ F.fractionBits ≤ m

/-- How far down a number is the nearest to what lies there, in units of its exponent. -/
def gapBelow (F : Format) (m : ℕ) (e : ℤ) : ℚ := if m = 2 ^ F.fractionBits ∧ F.leastExponent < e then 1 / 4 else 1 / 2

/-- The rationals that round to a number: the ends of their interval are among them if the mantissa is even. -/
structure RoundsTo (F : Format) (q : ℚ) (m : ℕ) (e : ℤ) : Prop where
  low : (m - F.gapBelow m e) * 2 ^ e ≤ q
  high : q ≤ (m + 1 / 2) * 2 ^ e
  odd : m % 2 = 1 → (m - F.gapBelow m e) * 2 ^ e < q ∧ q < (m + 1 / 2) * 2 ^ e

/-- The bits of a number, its sign apart. -/
def pattern (F : Format) (m : ℕ) (e : ℤ) : ℕ := (e - F.leastExponent).toNat * 2 ^ F.fractionBits + m

variable {F : Format} {m num den : ℕ} {e : ℤ} {q : ℚ}

theorem gapBelow_le : F.gapBelow m e ≤ 1 / 2 := by unfold gapBelow; split <;> norm_num

/-- The exponent that `exponentOf` finds is that of the leading bit, moved to the end of the mantissa. -/
theorem exists_exponentOf (hnum : 0 < num) (hden : 0 < den) :
    ∃ L : ℤ, (2 : ℚ) ^ L ≤ num / den ∧ (num / den : ℚ) < 2 ^ (L + 1) ∧
      F.exponentOf num den = max (L - F.fractionBits) F.leastExponent := by
  obtain ⟨hlow, hhigh⟩ := floorLog_of_digits (b := 2) (by omega) hden (Nat.log2_self_le hnum.ne') Nat.lt_log2_self
    (Nat.log2_self_le hden.ne') Nat.lt_log2_self rfl rfl
  exact ⟨_, hlow, hhigh, rfl⟩

/-- What rounds to a number has the number's exponent, or the next lower one if it lies below the least mantissa. -/
theorem exponentOf_eq_or (hc : F.Canonical m e) (hnum : 0 < num) (hden : 0 < den) (h : F.RoundsTo (num / den) m e) :
    F.exponentOf num den = e ∨ F.exponentOf num den = e - 1 ∧ m = 2 ^ F.fractionBits ∧ F.leastExponent < e ∧
      (num / den : ℚ) < m * 2 ^ e := by
  obtain ⟨L, hlow, hhigh, hL⟩ := exists_exponentOf (F := F) hnum hden
  have htwo (k : ℤ) : (2 : ℚ) ^ F.fractionBits * 2 ^ k = 2 ^ (F.fractionBits + k) := by
    rw [← zpow_natCast, ← zpow_add₀ two_ne_zero]
  have hle : L - F.fractionBits ≤ e := by
    have hm : (m : ℚ) + 1 / 2 < 2 ^ F.fractionBits * 2 := by
      have : (m : ℚ) + 1 ≤ 2 ^ (F.fractionBits + 1) := by exact_mod_cast hc.lt
      rw [pow_succ] at this
      linarith
    have hlt : (2 : ℚ) ^ L < 2 ^ (F.fractionBits + (e + 1)) := calc
      (2 : ℚ) ^ L ≤ (m + 1 / 2) * 2 ^ e := hlow.trans h.high
      _ < 2 ^ F.fractionBits * 2 * 2 ^ e := by gcongr
      _ = 2 ^ (F.fractionBits + (e + 1)) := by rw [← htwo, zpow_add_one₀ two_ne_zero]; ring
    have := (zpow_lt_zpow_iff_right₀ one_lt_two).1 hlt
    omega
  rcases hc.least.eq_or_lt with hleast | hleast
  · left
    rw [hL, ← hleast]
    exact max_eq_right (by omega)
  · have hlt (k : ℤ) (hk : (2 : ℚ) ^ (F.fractionBits + k) ≤ num / den) : k ≤ L - F.fractionBits := by
      have := (zpow_lt_zpow_iff_right₀ one_lt_two).1 (hk.trans_lt hhigh)
      omega
    have hpos : (0 : ℚ) < 2 ^ e := by positivity
    rcases (hc.normal hleast).eq_or_lt with hm | hm
    · have hgap : F.gapBelow m e = 1 / 4 := if_pos ⟨hm.symm, hleast⟩
      have hone : (1 : ℚ) ≤ 2 ^ F.fractionBits := one_le_pow₀ one_le_two
      have hge := hlt (e - 1) <| calc
        (2 : ℚ) ^ (F.fractionBits + (e - 1)) = 2 ^ F.fractionBits / 2 * 2 ^ e := by
          rw [← htwo, zpow_sub_one₀ two_ne_zero]; ring
        _ ≤ (m - F.gapBelow m e) * 2 ^ e := by
          rw [hgap, ← hm]
          push_cast
          gcongr
          linarith
        _ ≤ num / den := h.low
      rcases hle.eq_or_lt with heq | hlt
      · exact .inl (by rw [hL, heq]; exact max_eq_left hleast.le)
      · have heq : L - F.fractionBits = e - 1 := by omega
        refine .inr ⟨by rw [hL, heq]; exact max_eq_left (by omega), hm.symm, hleast, ?_⟩
        rw [← hm, Nat.cast_pow, Nat.cast_ofNat, htwo]
        rwa [show L + 1 = F.fractionBits + e by omega] at hhigh
    · left
      have hgap : F.gapBelow m e = 1 / 2 := if_neg fun h => hm.ne' h.1
      have hge := hlt e <| calc
        (2 : ℚ) ^ (F.fractionBits + e) = 2 ^ F.fractionBits * 2 ^ e := (htwo e).symm
        _ ≤ (m - F.gapBelow m e) * 2 ^ e := by
          have : (2 ^ F.fractionBits + 1 : ℚ) ≤ m := by exact_mod_cast hm
          rw [hgap]
          gcongr
          linarith
        _ ≤ num / den := h.low
      rw [hL, le_antisymm hle hge]
      exact max_eq_left hleast.le

/-- **What rounds to a number is read as it.** -/
theorem nearest_eq (hc : F.Canonical m e) (hnum : 0 < num) (hden : 0 < den) (h : F.RoundsTo (num / den) m e)
    (htop : F.pattern m e ≤ F.topField * 2 ^ F.fractionBits) : F.nearest num den = F.pattern m e := by
  have hpos : (0 : ℚ) < 2 ^ e := by positivity
  have hlow : (m : ℚ) - 1 / 2 ≤ num / den / 2 ^ e := by
    rw [le_div_iff₀ hpos]
    refine le_trans ?_ h.low
    have := gapBelow_le (F := F) (m := m) (e := e)
    gcongr
  have hhigh : (num / den / 2 ^ e : ℚ) ≤ m + 1 / 2 := (div_le_iff₀ hpos).2 h.high
  unfold nearest
  rw [if_neg hnum.ne']
  rcases exponentOf_eq_or hc hnum hden h with he | ⟨he, hm, hleast, hlt⟩
  · have hodd : m % 2 = 1 → (m : ℚ) - 1 / 2 < num / den / 2 ^ e ∧ (num / den / 2 ^ e : ℚ) < m + 1 / 2 := by
      intro hm
      obtain ⟨h₁, h₂⟩ := h.odd hm
      refine ⟨(lt_div_iff₀ hpos).2 (lt_of_le_of_lt ?_ h₁), (div_lt_iff₀ hpos).2 h₂⟩
      have := gapBelow_le (F := F) (m := m) (e := e)
      gcongr
    simp only [he, roundHalfEven_scaled hden rfl hlow hhigh hodd]
    exact min_eq_left htop
  · -- in the lower binade the mantissa is twice as large, and it is even
    have hpos' : (0 : ℚ) < 2 ^ (e - 1) := by positivity
    have htwice : (2 : ℚ) ^ e = 2 * 2 ^ (e - 1) := by rw [zpow_sub_one₀ two_ne_zero]; ring
    have hgap : F.gapBelow m e = 1 / 4 := if_pos ⟨hm, hleast⟩
    have hlow' : ((2 * m : ℕ) : ℚ) - 1 / 2 ≤ num / den / 2 ^ (e - 1) := by
      rw [le_div_iff₀ hpos']
      have := h.low
      rw [hgap, htwice] at this
      push_cast
      linarith
    have hhigh' : (num / den / 2 ^ (e - 1) : ℚ) ≤ (2 * m : ℕ) + 1 / 2 := by
      rw [div_le_iff₀ hpos']
      rw [htwice] at hlt
      push_cast
      linarith
    have hround := roundHalfEven_scaled (k := e - 1) hden rfl hlow' hhigh' fun h => absurd h (by omega)
    simp only [he, hround]
    have hpattern : (e - 1 - F.leastExponent).toNat * 2 ^ F.fractionBits + 2 * m = F.pattern m e := by
      obtain ⟨j, hj⟩ := Int.eq_ofNat_of_zero_le (show 0 ≤ e - 1 - F.leastExponent by omega)
      rw [pattern, hm, show e - F.leastExponent = ((j + 1 : ℕ) : ℤ) by push_cast; omega, hj]
      simp only [Int.toNat_natCast]
      ring
    rw [hpattern]
    exact min_eq_left htop

end Format

end Binary
end FlatNtuple
