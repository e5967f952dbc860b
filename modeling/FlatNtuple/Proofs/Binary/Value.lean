import FlatNtuple.Proofs.Binary.Order
/-!
# Exact values

A finite number stands for a rational, which no rounding has part in.  The values of finite numbers are in the order of
the numbers (`value_le`), and a number between two others, of which one is finite, is finite (`isFinite_of_lt_of_le`,
`isFinite_of_le_of_lt`).
-/
namespace FlatNtuple
namespace Binary

open Float.Model (UnpackedFloat)
open Float.Model.UnpackedFloat

/-- The value of a finite number; zero stands in for any other. -/
def Decoded.value : Decoded → ℚ
  | .finite negative m e => if negative then -(m * 2 ^ e) else m * 2 ^ e
  | _ => 0

def value (x : Float) : ℚ := (ofFloat x).value

/-! ## Finite numbers -/

theorem isFinite_iff {x : Float} :
    x.isFinite = true ↔
      x.isNaN = false ∧ -(infinityPattern : ℤ) < signedPattern x ∧ signedPattern x < infinityPattern := by
  have hspec := signedPattern_spec x
  have hfinite : x.isFinite = x.toModel.unpack.isFinite := rfl
  have hnan : x.isNaN = x.toModel.unpack.isNaN := rfl
  have hinfinity : (0 : ℤ) < infinityPattern := by decide
  rw [hfinite, hnan]
  generalize x.toModel.unpack = u at hspec ⊢
  cases u with
  | notANumber => exact iff_of_false nofun nofun
  | infinity s =>
    refine iff_of_false nofun fun h => ?_
    cases s <;> simp only [Sign.apply] at hspec <;> omega
  | zero s => exact iff_of_true rfl ⟨rfl, by omega, by omega⟩
  | finite s m e hm => exact iff_of_true rfl ⟨rfl, hspec.2.2 ▸ apply_between s hspec.2.1⟩

theorem signedPattern_mem {x : Float} (h : x.isNaN = false) :
    -(infinityPattern : ℤ) ≤ signedPattern x ∧ signedPattern x ≤ infinityPattern := by
  have hspec := signedPattern_spec x
  have hnan : x.isNaN = x.toModel.unpack.isNaN := rfl
  have hinfinity : (0 : ℤ) < infinityPattern := by decide
  rw [hnan] at h
  generalize x.toModel.unpack = u at hspec h
  cases u with
  | notANumber => cases h
  | infinity s => cases s <;> simp only [Sign.apply] at hspec <;> omega
  | zero s => omega
  | finite s m e hm =>
    have hbetween := hspec.2.2 ▸ apply_between s hspec.2.1
    omega

section
variable {x y z : Float}

theorem isFinite_of_lt_of_le (h : x < y) (h' : y ≤ z) (hz : z.isFinite = true) : y.isFinite = true := by
  obtain ⟨hx, hy, hlt⟩ := lt_iff.1 h
  have hle := (le_iff.1 h').2.2
  have hbound := (isFinite_iff.1 hz).2.2
  have hleast := (signedPattern_mem hx).1
  exact isFinite_iff.2 ⟨hy, by omega, by omega⟩

theorem isFinite_of_le_of_lt (h : x ≤ y) (h' : y < z) (hx : x.isFinite = true) : y.isFinite = true := by
  obtain ⟨hy, hz, hlt⟩ := lt_iff.1 h'
  have hle := (le_iff.1 h).2.2
  have hbound := (isFinite_iff.1 hx).2.1
  have hgreatest := (signedPattern_mem hz).2
  exact isFinite_iff.2 ⟨hy, by omega, by omega⟩

end

/-! ## Values in order -/

theorem Format.mul_zpow_le {F : Format} {m m' : ℕ} {e e' : ℤ} (hc : F.Canonical m e) (hc' : F.Canonical m' e')
    (h : F.pattern m e ≤ F.pattern m' e') : (m * 2 ^ e : ℚ) ≤ m' * 2 ^ e' := by
  obtain hlt | rfl | hgt := lt_trichotomy e e'
  · have hm : (m : ℚ) ≤ 2 ^ F.fractionBits * 2 := by exact_mod_cast (pow_succ 2 F.fractionBits ▸ hc.lt).le
    have hm' : (2 ^ F.fractionBits : ℚ) ≤ m' := by exact_mod_cast hc'.normal (hc.least.trans_lt hlt)
    calc (m * 2 ^ e : ℚ) ≤ 2 ^ F.fractionBits * 2 * 2 ^ e := by gcongr
      _ = 2 ^ F.fractionBits * 2 ^ (e + 1) := by rw [zpow_add_one₀ two_ne_zero]; ring
      _ ≤ m' * 2 ^ e' := by
        gcongr
        · norm_num
        · omega
  · have hm : m ≤ m' := by
      unfold pattern at h
      omega
    gcongr
  · exact absurd (pattern_lt_of_lt hc' hc hgt) (not_lt_of_ge h)

/-- A finite number, by its sign, mantissa and exponent. -/
theorem exists_of_isFinite {x : Float} (h : x.isFinite = true) :
    ∃ (s : Sign) (m : ℕ) (e : ℤ), ofFloat x = .finite (isNegative s) m e ∧ binary64.Canonical m e ∧
      signedPattern x = s.apply (binary64.pattern m e) := by
  have hfinite : x.isFinite = x.toModel.unpack.isFinite := rfl
  have hinfinity : infinityPattern < binary64.signWeight := by decide
  obtain ⟨s, m, e, hx⟩ : ∃ s m e, ofFloat x = .finite (isNegative s) m e := by
    rw [ofFloat_eq]
    rw [hfinite] at h
    cases hu : x.toModel.unpack with
    | notANumber => rw [hu] at h; cases h
    | infinity s => rw [hu] at h; cases h
    | zero s => exact ⟨s, _, _, rfl⟩
    | finite s m e hm => exact ⟨s, m, e, rfl⟩
  obtain ⟨hcanonical, hpattern, hlt⟩ := Format.decode_eq_finite x.toBits.toNat_lt hx
  exact ⟨s, m, e, hx, hcanonical, signedPattern_of_withSign (hlt.trans hinfinity) hpattern⟩

theorem isFinite_of_ofFloat {x : Float} {s : Bool} {m : ℕ} {e : ℤ} (h : ofFloat x = .finite s m e) :
    x.isFinite = true := by
  have hunpack : x.isFinite = x.toModel.unpack.isFinite := rfl
  rw [ofFloat_eq] at h
  rw [hunpack]
  cases hx : x.toModel.unpack with
  | notANumber | infinity => rw [hx] at h; cases h
  | zero | finite => rfl

/-- **Finite numbers are in the order of their values.** -/
theorem value_le {x y : Float} (hx : x.isFinite = true) (hy : y.isFinite = true) (h : x ≤ y) : value x ≤ value y := by
  obtain ⟨s, m, e, hfx, hc, hsx⟩ := exists_of_isFinite hx
  obtain ⟨s', m', e', hfy, hc', hsy⟩ := exists_of_isFinite hy
  have hle := (le_iff.1 h).2.2
  have hpattern : m ≤ binary64.pattern m e := Nat.le_add_left _ _
  have hpattern' : m' ≤ binary64.pattern m' e' := Nat.le_add_left _ _
  have hpos : (0 : ℚ) ≤ m * 2 ^ e := by positivity
  have hpos' : (0 : ℚ) ≤ m' * 2 ^ e' := by positivity
  rw [hsx, hsy] at hle
  rw [value, value, hfx, hfy]
  cases s <;> cases s' <;> simp only [Sign.apply] at hle <;> simp only [Decoded.value, isNegative, if_true,
    Bool.false_eq_true, if_false]
  case negative.negative => exact neg_le_neg (Format.mul_zpow_le hc' hc (by omega))
  case negative.positive => linarith
  case positive.negative =>
    obtain ⟨rfl, rfl⟩ : m = 0 ∧ m' = 0 := by omega
    simp
  case positive.positive => exact Format.mul_zpow_le hc hc' (by omega)

end Binary
end FlatNtuple
