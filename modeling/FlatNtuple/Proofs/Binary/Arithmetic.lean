import FlatNtuple.Proofs.Binary.Rounding
/-!
# Arithmetic of finite numbers

The operations on finite numbers give the exact result rounded, as long as that stays below the end of the range
(`Approximates`): the sign is that of the exact result, and so are the powers of two around it.
-/
namespace FlatNtuple
namespace Binary

open Float.Model (UnpackedFloat totalExponent)
open Float.Model.UnpackedFloat

/-! ## Signed values -/

section
variable {s s' : Sign} {q r : ℚ}

theorem abs_signed (s : Sign) (r : ℚ) : |signed s r| = |r| := by cases s <;> simp [signed, isNegative]

theorem le_of_abs_signed_le (h : |signed s q| ≤ r) : q ≤ r := (le_abs_self q).trans (abs_signed s q ▸ h)

theorem signed_mul (s s' : Sign) (q r : ℚ) : signed (s * s') (q * r) = signed s q * signed s' r := by
  cases s <;> cases s'
  · change q * r = -q * -r
    ring
  · change -(q * r) = -q * r
    ring
  · change -(q * r) = q * -r
    ring
  · rfl

theorem signed_div (s s' : Sign) (q r : ℚ) : signed (s / s') (q / r) = signed s q / signed s' r := by
  cases s <;> cases s'
  · change q / r = -q / -r
    rw [neg_div_neg_eq]
  · change -(q / r) = -q / r
    rw [neg_div]
  · change -(q / r) = q / -r
    rw [div_neg]
  · rfl

theorem signed_neg (s : Sign) (q : ℚ) : signed (-s) q = -signed s q := by
  cases s
  · exact (neg_neg q).symm
  · rfl

theorem signed_natCast (s : Sign) (m : ℕ) (q : ℚ) : signed s (m * q) = (s.apply m : ℤ) * q := by
  cases s
  · change -(m * q) = ((-(m : ℤ) : ℤ) : ℚ) * q
    push_cast
    ring
  · rfl

/-- A number is an exact result but for rounding, which keeps its sign and the powers of two around it. -/
structure Approximates (q : ℚ) (x : Float) : Prop where
  isFinite : x.isFinite = true
  nonneg : 0 ≤ q → 0 ≤ value x
  nonpos : q ≤ 0 → value x ≤ 0
  rounded : Rounded |q| |value x|

variable {x y : Float}

theorem Rounded.zero {K : Type} [Field K] [LinearOrder K] [IsStrictOrderedRing K] : Rounded (0 : K) 0 where
  nonneg := le_rfl
  le := fun _ _ _ => by positivity
  ge := fun _ _ h => absurd h (not_le.2 (by positivity))

theorem Rounded.self (h : 0 ≤ q) : Rounded q q := ⟨h, fun _ _ h => h, fun _ _ h => h⟩

theorem Approximates.self (h : x.isFinite = true) : Approximates (value x) x := ⟨h, id, id, .self (abs_nonneg _)⟩

theorem approximates_signed (hq : 0 < q) (h : x.isFinite = true) (hx : ∃ r, value x = signed s r ∧ Rounded q r) :
    Approximates (signed s q) x := by
  obtain ⟨r, hvalue, hr⟩ := hx
  have hnonneg := hr.nonneg
  have hrounded : Rounded |signed s q| |value x| := by
    rwa [hvalue, abs_signed, abs_signed, abs_of_pos hq, abs_of_nonneg hnonneg]
  cases s
  case negative =>
    change value x = -r at hvalue
    exact ⟨h, fun hle => absurd (neg_nonneg.1 hle) (not_le.2 hq), fun _ => by linarith, hrounded⟩
  case positive =>
    change value x = r at hvalue
    exact ⟨h, fun _ => by linarith, fun hle => absurd hle (not_le.2 hq), hrounded⟩

/-- The kinds of finite numbers. -/
theorem unpack_of_isFinite (h : x.isFinite = true) : (∃ s, x.toModel.unpack = .zero s) ∨
    ∃ s m e hm, x.toModel.unpack = .finite s m e hm ∧ binary64.Canonical m e ∧ e ≤ 971 := by
  have hspec := signedPattern_spec x
  change x.toModel.unpack.isFinite = true at h
  cases hu : x.toModel.unpack with
  | notANumber => rw [hu] at h; cases h
  | infinity s => rw [hu] at h; cases h
  | zero s => exact .inl ⟨s, rfl⟩
  | finite s m e hm =>
    rw [hu] at hspec
    obtain ⟨hc, hlt, -⟩ := hspec
    refine .inr ⟨s, m, e, hm, rfl, hc, ?_⟩
    change (e + 1074).toNat * 2 ^ 52 + m < 2047 * 2 ^ 52 at hlt
    have hnormal : -1074 < e → 2 ^ 52 ≤ m := hc.normal
    omega

/-! ## Signs -/

theorem unpack_neg (h : x.isFinite = true) : (-x).toModel.unpack = x.toModel.unpack.neg := by
  change (Float.Model.pack x.toModel.unpack.neg).unpack = _
  obtain ⟨s, hx⟩ | ⟨s, m, e, hm, hx, hc, he⟩ := unpack_of_isFinite h <;> rw [hx]
  · exact unpack_pack_zero (-s)
  · exact unpack_pack_finite hm hc he

theorem isFinite_neg (h : x.isFinite = true) : (-x).isFinite = true ∧ value (-x) = -value x := by
  have hneg := unpack_neg h
  obtain ⟨s, hx⟩ | ⟨s, m, e, hm, hx, -⟩ := unpack_of_isFinite h <;> rw [hx] at hneg
  · exact ⟨congrArg UnpackedFloat.isFinite hneg, by rw [value_of_zero hneg, value_of_zero hx, neg_zero]⟩
  · exact ⟨congrArg UnpackedFloat.isFinite hneg, by rw [value_of_finite hneg, value_of_finite hx, signed_neg]⟩

theorem isFinite_abs (h : x.isFinite = true) : x.abs.isFinite = true ∧ value x.abs = |value x| := by
  have hunpack : x.abs.toModel.unpack = (Float.Model.pack x.toModel.unpack.abs).unpack := rfl
  obtain ⟨s, hx⟩ | ⟨s, m, e, hm, hx, hc, he⟩ := unpack_of_isFinite h <;> rw [hx] at hunpack
  · have hzero := hunpack.trans (unpack_pack_zero .positive)
    exact ⟨congrArg UnpackedFloat.isFinite hzero, by rw [value_of_zero hzero, value_of_zero hx, abs_zero]⟩
  · have hfinite := hunpack.trans (unpack_pack_finite hm hc he)
    refine ⟨congrArg UnpackedFloat.isFinite hfinite, ?_⟩
    rw [value_of_finite hfinite, value_of_finite hx, abs_signed]
    exact (abs_of_nonneg (by positivity : (0 : ℚ) ≤ m * 2 ^ e)).symm

/-! ## Products -/

theorem approximates_zero {s : Sign} (h : x.toModel.unpack = .zero s) : Approximates 0 x := by
  rw [← value_of_zero h]
  exact .self (congrArg UnpackedFloat.isFinite h)

/-- Mantissas with enough bits, and those at the least exponent, are rounded at an exponent not below their own. -/
theorem le_target {m : ℕ} {e : ℤ} (h : 2 ^ 52 ≤ m ∨ e ≤ -1074) : e ≤ max (m.log2 + e - 52) (-1074) := by
  obtain h | h := h
  · have : 52 ≤ m.log2 := (Nat.le_log2 (by omega)).2 h
    omega
  · omega

theorem approximates_mul (hx : x.isFinite = true) (hy : y.isFinite = true) (h : |value x * value y| ≤ 2 ^ (1022 : ℤ)) :
    Approximates (value x * value y) (x * y) := by
  have hunpack : (x * y).toModel.unpack = (Float.Model.pack (.mul .binary64 x.toModel.unpack y.toModel.unpack)).unpack :=
    rfl
  obtain ⟨s, hx⟩ | ⟨s, m, e, hm, hx, hc, -⟩ := unpack_of_isFinite hx <;>
    obtain ⟨s', hy⟩ | ⟨s', m', e', hm', hy, hc', -⟩ := unpack_of_isFinite hy <;> rw [hx, hy] at hunpack
  · rw [value_of_zero hx, zero_mul]
    exact approximates_zero (hunpack.trans (unpack_pack_zero _))
  · rw [value_of_zero hx, zero_mul]
    exact approximates_zero (hunpack.trans (unpack_pack_zero _))
  · rw [value_of_zero hy, mul_zero]
    exact approximates_zero (hunpack.trans (unpack_pack_zero _))
  · have hexact : ((m * m' : ℕ) : ℚ) * 2 ^ (e + e') = m * 2 ^ e * (m' * 2 ^ e') := by
      rw [zpow_add₀ two_ne_zero]
      push_cast
      ring
    rw [value_of_finite hx, value_of_finite hy, ← signed_mul, ← hexact] at h ⊢
    have htarget : 2 ^ 52 ≤ m * m' ∨ e + e' ≤ -1074 := by
      obtain hlt | hle := lt_or_ge (-1074) e
      · exact .inl ((hc.normal hlt).trans (Nat.le_mul_of_pos_right m hm'))
      · obtain hlt' | hle' := lt_or_ge (-1074) e'
        · exact .inl ((hc'.normal hlt').trans (Nat.le_mul_of_pos_left m' hm))
        · exact .inr (by omega)
    obtain ⟨hfinite, hrounded⟩ := round_spec hunpack (.exact (m * m')) (le_target htarget) (le_of_abs_signed_le h)
    exact approximates_signed (by positivity) hfinite hrounded

/-! ## Sums and differences -/

theorem shiftLeft_mul_zpow {m : ℕ} {e t : ℤ} (h : t ≤ e) : ((m <<< (e - t).toNat : ℕ) : ℚ) * 2 ^ t = m * 2 ^ e := by
  rw [Nat.shiftLeft_eq, zpow_eq_natCast_mul h]
  push_cast
  ring

/-- A number that need not have enough bits is given them before it is rounded, as far as the least exponent allows. -/
theorem exists_round_eq (s : Sign) {m : ℕ} (hm : 0 < m) (e : ℤ) : ∃ k : ℕ,
    round .binary64 s m e = roundWithAccuracy .binary64 s (m <<< k) (e - k) .exact ∧
    (2 ^ 52 ≤ m <<< k ∨ e - k ≤ -1074) ∧ (-1074 ≤ e → -1074 ≤ e - k) := by
  obtain ⟨k, hk⟩ : ∃ k, k = (e - max ((m.log2 : ℤ) + 1 + e - 53) (-1074)).toNat := ⟨_, rfl⟩
  refine ⟨k, by rw [hk]; rfl, ?_, by omega⟩
  obtain hlog | hle : 52 ≤ m.log2 + k ∨ e - k ≤ -1074 := by omega
  · left
    calc 2 ^ 52 ≤ 2 ^ (m.log2 + k) := Nat.pow_le_pow_right (by omega) hlog
      _ = 2 ^ m.log2 * 2 ^ k := pow_add ..
      _ ≤ m * 2 ^ k := Nat.mul_le_mul_right _ (Nat.log2_self_le hm.ne')
      _ = m <<< k := (Nat.shiftLeft_eq ..).symm
  · exact .inr hle

/-- Rounding a number that need not have enough bits. -/
theorem round_exact_spec {m : ℕ} {e : ℤ} (hm : 0 < m)
    (hx : x.toModel.unpack = (Float.Model.pack (round .binary64 s m e)).unpack)
    (h : (m * 2 ^ e : ℚ) ≤ 2 ^ (1022 : ℤ)) : Approximates (signed s (m * 2 ^ e)) x := by
  obtain ⟨k, hround, htarget, -⟩ := exists_round_eq s hm e
  rw [hround] at hx
  have hexact : ((m <<< k : ℕ) : ℚ) * 2 ^ (e - k) = m * 2 ^ e := by
    have := shiftLeft_mul_zpow (m := m) (by omega : e - k ≤ e)
    rwa [sub_sub_cancel, Int.toNat_natCast] at this
  rw [← hexact] at h ⊢
  obtain ⟨hfinite, hrounded⟩ := round_spec hx (.exact _) (le_target htarget) h
  refine approximates_signed ?_ hfinite hrounded
  rw [hexact]
  positivity

theorem normalize_spec {m e : ℤ} (hx : x.toModel.unpack = (Float.Model.pack (.normalize .binary64 m e s)).unpack)
    (h : |(m * 2 ^ e : ℚ)| ≤ 2 ^ (1022 : ℤ)) : Approximates (m * 2 ^ e) x := by
  unfold UnpackedFloat.normalize at hx
  obtain hm | rfl | hm := lt_trichotomy m 0
  · rw [compare_lt_iff_lt.2 hm] at hx
    have hsigned : (m * 2 ^ e : ℚ) = signed .negative ((-m).toNat * 2 ^ e) := by
      have hcast : (((-m).toNat : ℤ) : ℚ) = -m := by rw [Int.toNat_of_nonneg (by omega), Int.cast_neg]
      change _ = -((((-m).toNat : ℤ) : ℚ) * 2 ^ e)
      rw [hcast, neg_mul, neg_neg]
    rw [hsigned] at h ⊢
    exact round_exact_spec (by omega) hx (le_of_abs_signed_le h)
  · rw [compare_eq_iff_eq.2 rfl] at hx
    rw [Int.cast_zero, zero_mul]
    exact approximates_zero (hx.trans (unpack_pack_zero s))
  · rw [compare_gt_iff_gt.2 hm] at hx
    have hsigned : (m * 2 ^ e : ℚ) = signed .positive (m.toNat * 2 ^ e) := by
      change _ = ((m.toNat : ℤ) : ℚ) * 2 ^ e
      rw [Int.toNat_of_nonneg hm.le]
    rw [hsigned] at h ⊢
    exact round_exact_spec (by omega) hx (le_of_abs_signed_le h)

theorem approximates_add (hx : x.isFinite = true) (hy : y.isFinite = true) (h : |value x + value y| ≤ 2 ^ (1022 : ℤ)) :
    Approximates (value x + value y) (x + y) := by
  have hunpack : (x + y).toModel.unpack = (Float.Model.pack (.add .binary64 x.toModel.unpack y.toModel.unpack)).unpack :=
    rfl
  obtain ⟨s, hx⟩ | ⟨s, m, e, hm, hx, hc, he⟩ := unpack_of_isFinite hx <;>
    obtain ⟨s', hy⟩ | ⟨s', m', e', hm', hy, hc', he'⟩ := unpack_of_isFinite hy <;> rw [hx, hy] at hunpack
  · rw [value_of_zero hx, value_of_zero hy, add_zero]
    obtain ⟨t, hzero⟩ : ∃ t, UnpackedFloat.add .binary64 (.zero s) (.zero s') = .zero t := by
      cases s <;> cases s' <;> exact ⟨_, rfl⟩
    rw [hzero] at hunpack
    exact approximates_zero (hunpack.trans (unpack_pack_zero t))
  · have hsum := hunpack.trans (unpack_pack_finite hm' hc' he')
    rw [value_of_zero hx, zero_add, value_of_finite hy, ← value_of_finite hsum]
    exact .self (congrArg UnpackedFloat.isFinite hsum)
  · have hsum := hunpack.trans (unpack_pack_finite hm hc he)
    rw [value_of_zero hy, add_zero, value_of_finite hx, ← value_of_finite hsum]
    exact .self (congrArg UnpackedFloat.isFinite hsum)
  · have hexact : value x + value y = ((s.apply (m <<< (e - min e e').toNat : ℕ) +
        s'.apply (m' <<< (e' - min e e').toNat : ℕ) : ℤ) : ℚ) * 2 ^ min e e' := by
      rw [value_of_finite hx, value_of_finite hy, ← shiftLeft_mul_zpow (min_le_left e e'),
        ← shiftLeft_mul_zpow (min_le_right e e'), signed_natCast, signed_natCast]
      push_cast
      ring
    rw [hexact] at h ⊢
    exact normalize_spec hunpack h

/-- A difference is a sum with the second number negated. -/
theorem unpacked_sub (u v : UnpackedFloat) : UnpackedFloat.sub .binary64 u v = .add .binary64 u v.neg := by
  cases u with
  | notANumber => rfl
  | infinity s => cases v <;> rfl
  | zero s => cases v <;> rfl
  | finite s m e hm =>
    cases v with
    | notANumber => rfl
    | infinity s' => rfl
    | zero s' => rfl
    | finite s' m' e' hm' =>
      have happly : ∀ n : ℤ, (-s').apply n = -s'.apply n := by
        intro n
        cases s'
        · exact (neg_neg n).symm
        · rfl
      simp only [UnpackedFloat.sub, UnpackedFloat.add, UnpackedFloat.neg, happly, sub_eq_add_neg]

theorem approximates_sub (hx : x.isFinite = true) (hy : y.isFinite = true) (h : |value x - value y| ≤ 2 ^ (1022 : ℤ)) :
    Approximates (value x - value y) (x - y) := by
  have hneg : x - y = x + -y := by
    change (⟨Float.Model.pack (.sub .binary64 x.toModel.unpack y.toModel.unpack)⟩ : Float) =
      ⟨Float.Model.pack (.add .binary64 x.toModel.unpack (-y).toModel.unpack)⟩
    rw [unpacked_sub, unpack_neg hy]
  obtain ⟨hfinite, hvalue⟩ := isFinite_neg hy
  rw [sub_eq_add_neg, ← hvalue] at h ⊢
  rw [hneg]
  exact approximates_add hx hfinite h

/-! ## Quotients -/

theorem represents_div {K : Type} [Field K] [LinearOrder K] [IsStrictOrderedRing K] {num den : ℕ} (hden : 0 < den) :
    Represents (.ofMantissaAndAccuracy (num / den) (accuracyOfFraction (num % den) den)) (num / den : K) := by
  have hpos : (0 : K) < den := by exact_mod_cast hden
  have hdivide : (num / den : K) = (num / den : ℕ) + (num % den : ℕ) / den := by
    field_simp
    exact_mod_cast (Nat.div_add_mod num den).symm
  have hlt : num % den < den := Nat.mod_lt num hden
  rw [hdivide]
  unfold accuracyOfFraction
  split
  · rename_i hzero
    rw [hzero]
    simp [Represents, ExtendedMantissa.ofMantissaAndAccuracy]
  · rename_i hne
    have hpositive : (0 : K) < (num % den : ℕ) / den :=
      div_pos (by exact_mod_cast Nat.pos_of_ne_zero hne) hpos
    have hone : ((num % den : ℕ) / den : K) < 1 := by
      rw [div_lt_one hpos]
      exact_mod_cast hlt
    have hbelow : ((num % den : ℕ) / den : K) < 1 / 2 ↔ 2 * (num % den) < den := by
      rw [div_lt_div_iff₀ hpos two_pos, one_mul, mul_comm]
      norm_cast
    have habove : 1 / 2 < ((num % den : ℕ) / den : K) ↔ den < 2 * (num % den) := by
      rw [div_lt_div_iff₀ two_pos hpos, one_mul, mul_comm _ (2 : K)]
      norm_cast
    generalize ((num % den : ℕ) / den : K) = f at hpositive hone hbelow habove
    obtain h | h | h := lt_trichotomy (2 * (num % den)) den
    · rw [compare_lt_iff_lt.2 h]
      exact ⟨lt_add_of_pos_right _ hpositive, add_lt_add_right (hbelow.2 h) _⟩
    · rw [compare_eq_iff_eq.2 h]
      have hf : f = 1 / 2 := le_antisymm (not_lt.1 fun h' => (habove.1 h').ne' h) (not_lt.1 fun h' => (hbelow.1 h').ne h)
      exact congrArg _ hf
    · rw [compare_gt_iff_gt.2 h]
      exact ⟨add_lt_add_right (habove.2 h) _, add_lt_add_right hone _⟩

/-- A quotient is cut off with enough bits, and rounded from there. -/
theorem div_eq_round {s' : Sign} {m m' : ℕ} {e e' : ℤ} {hm : 0 < m} {hm' : 0 < m'}
    (hx : x.toModel.unpack = .finite s m e hm) (hy : y.toModel.unpack = .finite s' m' e' hm') :
    ∃ (n : ℕ) (t : ℤ) (acc : Accuracy) (q : ℚ), Represents (.ofMantissaAndAccuracy n acc) q ∧
      (x / y).toModel.unpack = (Float.Model.pack (roundWithAccuracy .binary64 (s / s') n t acc)).unpack ∧
      t ≤ max (n.log2 + t - 52) (-1074) ∧ q * 2 ^ t = m * 2 ^ e / (m' * 2 ^ e') := by
  obtain ⟨t, ht⟩ : ∃ t, t = min (e - e') (max ((m.log2 : ℤ) + 1 + e - (m'.log2 + 1 + e') - 53) (-1074)) := ⟨_, rfl⟩
  obtain ⟨k, hk⟩ : ∃ k, k = (e - e' - t).toNat := ⟨_, rfl⟩
  refine ⟨(m <<< k) / m', t, _, ((m <<< k : ℕ) : ℚ) / m', represents_div hm', ?_, le_target ?_, ?_⟩
  · change (Float.Model.pack (.div .binary64 x.toModel.unpack y.toModel.unpack)).unpack = _
    rw [hx, hy, hk, ht]
    rfl
  · obtain hlog | hle : 52 + (m'.log2 + 1) ≤ m.log2 + k ∨ t ≤ -1074 := by omega
    · left
      rw [Nat.le_div_iff_mul_le hm', Nat.shiftLeft_eq]
      calc 2 ^ 52 * m' ≤ 2 ^ 52 * 2 ^ (m'.log2 + 1) := Nat.mul_le_mul_left _ Nat.lt_log2_self.le
        _ = 2 ^ (52 + (m'.log2 + 1)) := (pow_add ..).symm
        _ ≤ 2 ^ (m.log2 + k) := Nat.pow_le_pow_right (by omega) hlog
        _ = 2 ^ m.log2 * 2 ^ k := pow_add ..
        _ ≤ m * 2 ^ k := Nat.mul_le_mul_right _ (Nat.log2_self_le hm.ne')
    · exact .inr hle
  · rw [div_mul_eq_mul_div, hk, shiftLeft_mul_zpow (by omega), zpow_sub₀ two_ne_zero, ← mul_div_assoc, div_div,
      mul_comm (2 ^ e' : ℚ)]

theorem approximates_div (hx : x.isFinite = true) (hy : y.isFinite = true) (hne : value y ≠ 0)
    (h : |value x / value y| ≤ 2 ^ (1022 : ℤ)) : Approximates (value x / value y) (x / y) := by
  obtain ⟨s', hy⟩ | ⟨s', m', e', hm', hy, -⟩ := unpack_of_isFinite hy
  · exact absurd (value_of_zero hy) hne
  obtain ⟨s, hx⟩ | ⟨s, m, e, hm, hx, -⟩ := unpack_of_isFinite hx
  · have hzero : (x / y).toModel.unpack = .zero (s / s') := by
      change (Float.Model.pack (.div .binary64 x.toModel.unpack y.toModel.unpack)).unpack = _
      rw [hx, hy]
      exact unpack_pack_zero _
    rw [value_of_zero hx, zero_div]
    exact approximates_zero hzero
  · obtain ⟨n, t, acc, q, hq, hunpack, htarget, hexact⟩ := div_eq_round hx hy
    rw [value_of_finite hx, value_of_finite hy, ← signed_div, ← hexact] at h ⊢
    obtain ⟨hfinite, hrounded⟩ := round_spec hunpack hq htarget (le_of_abs_signed_le h)
    refine approximates_signed ?_ hfinite hrounded
    rw [hexact]
    positivity

/-- A quotient of finite numbers can be infinite, but not NaN unless both are zero. -/
theorem isNaN_div (hx : x.isFinite = true) (hy : y.isFinite = true) (hne : (y == 0) = false) :
    (x / y).isNaN = false := by
  obtain ⟨s', hy⟩ | ⟨s', m', e', hm', hy, -⟩ := unpack_of_isFinite hy
  · rw [beq_zero_iff.2 ⟨s', hy⟩] at hne
    cases hne
  obtain ⟨s, hx⟩ | ⟨s, m, e, hm, hx, -⟩ := unpack_of_isFinite hx
  · change (Float.Model.pack (.div .binary64 x.toModel.unpack y.toModel.unpack)).unpack.isNaN = false
    rw [hx, hy]
    exact congrArg UnpackedFloat.isNaN (unpack_pack_zero _)
  · obtain ⟨n, t, acc, q, -, hunpack, htarget, -⟩ := div_eq_round hx hy
    exact isNaN_of_round hunpack htarget

/-! ## Roots -/

theorem represents_sqrt (n : ℕ) : Represents (.ofMantissaAndAccuracy n.sqrt
    (if n - n.sqrt * n.sqrt = 0 then .exact else .inexact (if n - n.sqrt * n.sqrt ≤ n.sqrt then .lt else .gt)))
    √(n : ℝ) := by
  have hlow := Nat.sqrt_le n
  have hhigh := Nat.lt_succ_sqrt n
  generalize n.sqrt = r at hlow hhigh ⊢
  have hhigh : (n : ℝ) < (r + 1) * (r + 1) := by exact_mod_cast hhigh
  split
  · have hn : n = r * r := by omega
    rw [hn, Nat.cast_mul, Real.sqrt_mul_self (Nat.cast_nonneg r)]
    exact .exact r
  · have hlow : (r : ℝ) * r < n := by exact_mod_cast (by omega : r * r < n)
    split
    · have hmiddle : (n : ℝ) ≤ r * r + r := by exact_mod_cast (by omega : n ≤ r * r + r)
      constructor
      · exact Real.lt_sqrt_of_sq_lt (by change (r : ℝ) ^ 2 < n; linarith)
      · exact (Real.sqrt_lt' (by positivity)).2 (by change (n : ℝ) < (r + 1 / 2) ^ 2; linarith)
    · have hmiddle : (r * r + r + 1 : ℝ) ≤ n := by exact_mod_cast (by omega : r * r + r + 1 ≤ n)
      constructor
      · exact Real.lt_sqrt_of_sq_lt (by change (r + 1 / 2 : ℝ) ^ 2 < n; linarith)
      · exact (Real.sqrt_lt' (by positivity)).2 (by change (n : ℝ) < (r + 1) ^ 2; linarith)

/-- A root is cut off with enough bits, and rounded from there. -/
theorem sqrt_eq_round {m : ℕ} {e : ℤ} {hm : 0 < m} (hx : x.toModel.unpack = .finite .positive m e hm) :
    ∃ (n : ℕ) (t : ℤ) (acc : Accuracy) (q : ℝ), Represents (.ofMantissaAndAccuracy n acc) q ∧
      x.sqrt.toModel.unpack = (Float.Model.pack (roundWithAccuracy .binary64 .positive n t acc)).unpack ∧
      t ≤ max (n.log2 + t - 52) (-1074) ∧ q * 2 ^ t = √((m * 2 ^ e : ℚ) : ℝ) := by
  obtain ⟨t, ht⟩ : ∃ t, t = min (e / 2) (max (((m.log2 : ℤ) + 1 + e + 1) / 2 - 53) (-1074)) := ⟨_, rfl⟩
  obtain ⟨n, hn⟩ : ∃ n, n = m <<< (e - 2 * t).toNat := ⟨_, rfl⟩
  refine ⟨n.sqrt, t, _, √(n : ℝ), represents_sqrt n, ?_, le_target ?_, ?_⟩
  · change (Float.Model.pack (.sqrt .binary64 x.toModel.unpack)).unpack = _
    rw [hx, hn, ht]
    rfl
  · obtain hlog | hle : 104 ≤ m.log2 + (e - 2 * t).toNat ∨ t ≤ -1074 := by omega
    · left
      rw [Nat.le_sqrt, hn, Nat.shiftLeft_eq]
      calc 2 ^ 52 * 2 ^ 52 = 2 ^ 104 := (pow_add 2 52 52).symm
        _ ≤ 2 ^ (m.log2 + (e - 2 * t).toNat) := Nat.pow_le_pow_right (by omega) hlog
        _ = 2 ^ m.log2 * 2 ^ (e - 2 * t).toNat := pow_add ..
        _ ≤ m * 2 ^ (e - 2 * t).toNat := Nat.mul_le_mul_right _ (Nat.log2_self_le hm.ne')
    · exact .inr hle
  · rw [← shiftLeft_mul_zpow (by omega : 2 * t ≤ e), ← hn, mul_comm 2 t, zpow_mul]
    push_cast
    rw [Real.sqrt_mul (Nat.cast_nonneg n), zpow_ofNat, Real.sqrt_sq (by positivity)]

/-- Roots are far from the end of the range. -/
theorem sqrt_le {m : ℕ} {e : ℤ} (hm : m ≤ 2 ^ 53) (he : e ≤ 971) : √((m * 2 ^ e : ℚ) : ℝ) ≤ 2 ^ (1022 : ℤ) := by
  have hm : (m : ℝ) ≤ 2 ^ (53 : ℤ) := by exact_mod_cast hm
  have he : (2 : ℝ) ^ e ≤ 2 ^ (971 : ℤ) := zpow_le_zpow_right₀ one_le_two he
  rw [Real.sqrt_le_iff]
  push_cast
  refine ⟨by positivity, ?_⟩
  calc (m : ℝ) * 2 ^ e ≤ 2 ^ (53 : ℤ) * 2 ^ (971 : ℤ) := by gcongr
    _ = 2 ^ (53 + 971 : ℤ) := (zpow_add₀ two_ne_zero ..).symm
    _ ≤ 2 ^ (1022 * 2 : ℤ) := zpow_le_zpow_right₀ one_le_two (by omega)
    _ = (2 ^ (1022 : ℤ)) ^ 2 := by rw [zpow_mul, zpow_ofNat]

theorem sqrt_spec (hx : x.isFinite = true) (h : 0 ≤ value x) :
    x.sqrt.isFinite = true ∧ 0 ≤ value x.sqrt ∧ Rounded √(value x : ℝ) (value x.sqrt) := by
  obtain ⟨s, hx⟩ | ⟨s, m, e, hm, hx, hc, he⟩ := unpack_of_isFinite hx
  · have hzero : x.sqrt.toModel.unpack = .zero s := by
      change (Float.Model.pack (.sqrt .binary64 x.toModel.unpack)).unpack = _
      rw [hx]
      exact unpack_pack_zero s
    rw [value_of_zero hx, value_of_zero hzero, Rat.cast_zero, Real.sqrt_zero]
    exact ⟨congrArg UnpackedFloat.isFinite hzero, le_rfl, .zero⟩
  · have hpositive : (0 : ℚ) < m * 2 ^ e := by positivity
    have hvalue := value_of_finite hx
    cases s
    case negative =>
      change value x = -(m * 2 ^ e) at hvalue
      linarith
    case positive =>
      change value x = m * 2 ^ e at hvalue
      obtain ⟨n, t, acc, q, hq, hunpack, htarget, hexact⟩ := sqrt_eq_round hx
      obtain ⟨hfinite, r, hr, hrounded⟩ := round_spec hunpack hq htarget (hexact ▸ sqrt_le hc.lt.le he)
      change value x.sqrt = r at hr
      rw [hexact, ← hvalue, ← hr] at hrounded
      exact ⟨hfinite, hrounded.nonneg, hrounded⟩

end

end Binary
end FlatNtuple
