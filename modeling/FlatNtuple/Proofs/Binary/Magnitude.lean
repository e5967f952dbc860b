import FlatNtuple.Proofs.Binary.Arithmetic
/-!
# Magnitudes

Bounds on finite numbers by powers of two, which rounding keeps: an operation on numbers within bounds gives a finite
number within the bound that the exact result has (`Within`), and likewise between bounds (`Between`).
-/
namespace FlatNtuple
namespace Binary

/-- A finite number that is no further from zero than a power of two. -/
structure Within (n : ℤ) (x : Float) : Prop where
  isFinite : x.isFinite = true
  le : |value x| ≤ 2 ^ n

variable {x y : Float} {a b c : ℤ}

namespace Within

theorem mono (h : Within a x) (hab : a ≤ b) : Within b x :=
  ⟨h.isFinite, h.le.trans (zpow_le_zpow_right₀ one_le_two hab)⟩

/-- A result with an exact value within a bound is within it. -/
theorem of_approximates {q : ℚ} (h : |q| ≤ 2 ^ (1022 : ℤ) → Approximates q x) (hq : |q| ≤ 2 ^ c) (hlow : -1074 ≤ c)
    (hhigh : c ≤ 1022) : Within c x := by
  have hx := h (hq.trans (zpow_le_zpow_right₀ one_le_two hhigh))
  exact ⟨hx.isFinite, hx.rounded.le c hlow hq⟩

protected theorem neg (h : Within a x) : Within a (-x) := by
  obtain ⟨hfinite, hvalue⟩ := isFinite_neg h.isFinite
  exact ⟨hfinite, by rw [hvalue, abs_neg]; exact h.le⟩

protected theorem abs (h : Within a x) : Within a x.abs := by
  obtain ⟨hfinite, hvalue⟩ := isFinite_abs h.isFinite
  exact ⟨hfinite, by rw [hvalue, abs_abs]; exact h.le⟩

theorem two_zpow_add_self : (2 ^ a + 2 ^ a : ℚ) = 2 ^ (a + 1) := by
  rw [zpow_add_one₀ two_ne_zero]
  ring

theorem abs_product_le (hx : Within a x) (hy : Within b y) (hc : a + b ≤ c) : |value x * value y| ≤ 2 ^ c := by
  calc |value x * value y| = |value x| * |value y| := abs_mul ..
    _ ≤ 2 ^ a * 2 ^ b := mul_le_mul hx.le hy.le (abs_nonneg _) (by positivity)
    _ = 2 ^ (a + b) := (zpow_add₀ two_ne_zero ..).symm
    _ ≤ 2 ^ c := zpow_le_zpow_right₀ one_le_two hc

theorem abs_sum_le (hx : Within a x) (hy : Within a y) (hc : a + 1 ≤ c) : |value x + value y| ≤ 2 ^ c := by
  calc |value x + value y| ≤ |value x| + |value y| := abs_add_le ..
    _ ≤ 2 ^ a + 2 ^ a := add_le_add hx.le hy.le
    _ = 2 ^ (a + 1) := two_zpow_add_self
    _ ≤ 2 ^ c := zpow_le_zpow_right₀ one_le_two hc

protected theorem mul (hx : Within a x) (hy : Within b y) (hc : a + b ≤ c) (hlow : -1074 ≤ c) (hhigh : c ≤ 1022) :
    Within c (x * y) :=
  of_approximates (approximates_mul hx.isFinite hy.isFinite) (hx.abs_product_le hy hc) hlow hhigh

protected theorem add (hx : Within a x) (hy : Within a y) (hc : a + 1 ≤ c) (hlow : -1074 ≤ c) (hhigh : c ≤ 1022) :
    Within c (x + y) :=
  of_approximates (approximates_add hx.isFinite hy.isFinite) (hx.abs_sum_le hy hc) hlow hhigh

protected theorem sub (hx : Within a x) (hy : Within a y) (hc : a + 1 ≤ c) (hlow : -1074 ≤ c) (hhigh : c ≤ 1022) :
    Within c (x - y) := by
  refine of_approximates (approximates_sub hx.isFinite hy.isFinite) ?_ hlow hhigh
  have hsum := hx.abs_sum_le hy.neg hc
  rwa [(isFinite_neg hy.isFinite).2, ← sub_eq_add_neg] at hsum

protected theorem div (hx : Within a x) (hy : y.isFinite = true) (hlower : 2 ^ b ≤ |value y|) (hc : a - b ≤ c)
    (hlow : -1074 ≤ c) (hhigh : c ≤ 1022) : Within c (x / y) := by
  have hpositive : (0 : ℚ) < 2 ^ b := by positivity
  have hne : value y ≠ 0 := abs_pos.1 (hpositive.trans_le hlower)
  refine of_approximates (approximates_div hx.isFinite hy hne) ?_ hlow hhigh
  calc |value x / value y| = |value x| / |value y| := abs_div ..
    _ ≤ 2 ^ a / 2 ^ b := div_le_div₀ (by positivity) hx.le hpositive hlower
    _ = 2 ^ (a - b) := (zpow_sub₀ two_ne_zero ..).symm
    _ ≤ 2 ^ c := zpow_le_zpow_right₀ one_le_two hc

protected theorem sqrt (hx : Within a x) (h : 0 ≤ value x) (hc : a ≤ 2 * c) (hlow : -1074 ≤ c) : Within c x.sqrt := by
  obtain ⟨hfinite, hnonneg, hrounded⟩ := sqrt_spec hx.isFinite h
  refine ⟨hfinite, ?_⟩
  rw [abs_of_nonneg hnonneg]
  refine hrounded.le c hlow (Real.sqrt_le_iff.2 ⟨by positivity, ?_⟩)
  have hle : value x ≤ (2 ^ c) ^ 2 := by
    calc value x ≤ 2 ^ a := (le_abs_self _).trans hx.le
      _ ≤ 2 ^ (2 * c) := zpow_le_zpow_right₀ one_le_two hc
      _ = (2 ^ c) ^ 2 := by rw [mul_comm, zpow_mul, zpow_ofNat]
  simpa using Rat.cast_le (K := ℝ) |>.2 hle

end Within

theorem within_of_isFinite (h : x.isFinite = true) : Within 1024 x := by
  refine ⟨h, ?_⟩
  obtain ⟨s, hx⟩ | ⟨s, m, e, hm, hx, hc, he⟩ := unpack_of_isFinite h
  · rw [value_of_zero hx, abs_zero]
    positivity
  · have hm : (m : ℚ) ≤ 2 ^ (53 : ℤ) := by exact_mod_cast hc.lt.le
    rw [value_of_finite hx, abs_signed, abs_of_nonneg (by positivity)]
    calc (m : ℚ) * 2 ^ e ≤ 2 ^ (53 : ℤ) * 2 ^ (971 : ℤ) := by gcongr; norm_num
      _ = 2 ^ (53 + 971 : ℤ) := (zpow_add₀ two_ne_zero ..).symm

/-- What is no longer than a finite number is finite. -/
theorem isFinite_of_abs_le (h : x.abs ≤ y) (hy : y.isFinite = true) : x.isFinite = true := by
  have hunpack : x.abs.toModel.unpack = (Float.Model.pack x.toModel.unpack.abs).unpack := rfl
  have hbound := (isFinite_iff.1 hy).2.2
  obtain ⟨hnan, -, hle⟩ := le_iff.1 h
  change x.toModel.unpack.isFinite = true
  cases hu : x.toModel.unpack with
  | notANumber =>
    rw [hu] at hunpack
    rw [isNaN_iff.2 (hunpack.trans unpack_pack_nan)] at hnan
    cases hnan
  | infinity s =>
    rw [hu] at hunpack
    have hspec := signedPattern_spec x.abs
    rw [hunpack.trans (unpack_pack_infinity .positive)] at hspec
    change signedPattern x.abs = (infinityPattern : ℤ) at hspec
    omega
  | zero s => rfl
  | finite s m e hm => rfl

theorem within_of_abs_le (h : x.abs ≤ y) (hy : Within a y) : Within a x := by
  have hx := isFinite_of_abs_le h hy.isFinite
  obtain ⟨hfinite, hvalue⟩ := isFinite_abs hx
  have hle := value_le hfinite hy.isFinite h
  rw [hvalue] at hle
  exact ⟨hx, hle.trans ((le_abs_self _).trans hy.le)⟩

/-! ## Positive numbers -/

/-- A positive finite number between two powers of two. -/
structure Between (a b : ℤ) (x : Float) : Prop where
  isFinite : x.isFinite = true
  ge : 2 ^ a ≤ value x
  le : value x ≤ 2 ^ b

namespace Between
variable {a' b' : ℤ}

theorem pos (h : Between a b x) : 0 < value x := (by positivity : (0 : ℚ) < 2 ^ a).trans_le h.ge

theorem within (h : Between a b x) : Within b x := ⟨h.isFinite, by rw [abs_of_pos h.pos]; exact h.le⟩

theorem of_approximates {q : ℚ} (h : |q| ≤ 2 ^ (1022 : ℤ) → Approximates q x) (hge : 2 ^ a ≤ q) (hle : q ≤ 2 ^ b)
    (hlow : -1074 ≤ a) (hhigh : b ≤ 1022) : Between a b x := by
  have hpos : 0 < q := (by positivity : (0 : ℚ) < 2 ^ a).trans_le hge
  rw [abs_of_pos hpos] at h
  have hx := h (hle.trans (zpow_le_zpow_right₀ one_le_two hhigh))
  have hab : a ≤ b := (zpow_le_zpow_iff_right₀ one_lt_two).1 (hge.trans hle)
  have hrounded := hx.rounded
  rw [abs_of_pos hpos, abs_of_nonneg (hx.nonneg hpos.le)] at hrounded
  exact ⟨hx.isFinite, hrounded.ge a hlow hge, hrounded.le b (by omega) hle⟩

protected theorem mul (hx : Between a b x) (hy : Between a' b' y) (hlow : -1074 ≤ a + a') (hhigh : b + b' ≤ 1022) :
    Between (a + a') (b + b') (x * y) := by
  refine of_approximates (approximates_mul hx.isFinite hy.isFinite) ?_ ?_ hlow hhigh <;> rw [zpow_add₀ two_ne_zero]
  · exact mul_le_mul hx.ge hy.ge (by positivity) hx.pos.le
  · exact mul_le_mul hx.le hy.le hy.pos.le (by positivity)

/-- Something that is not negative added to a positive number. -/
theorem add_nonneg (hx : Between a b x) (hy : Within b y) (hnonneg : 0 ≤ value y) (hlow : -1074 ≤ a)
    (hhigh : b ≤ 1021) : Between a (b + 1) (x + y) := by
  refine of_approximates (approximates_add hx.isFinite hy.isFinite) ?_ ?_ hlow (by omega)
  · exact le_add_of_le_of_nonneg hx.ge hnonneg
  · rw [← Within.two_zpow_add_self]
    exact add_le_add hx.le ((le_abs_self _).trans hy.le)

protected theorem sqrt (hx : Between a b x) (ha : 2 * a' ≤ a) (hb : b ≤ 2 * b') (hlow : -1074 ≤ a') :
    Between a' b' x.sqrt := by
  obtain ⟨hfinite, hnonneg, hrounded⟩ := sqrt_spec hx.isFinite hx.pos.le
  have hab : a ≤ b := (zpow_le_zpow_iff_right₀ one_lt_two).1 (hx.ge.trans hx.le)
  have hwithin := hx.within.sqrt hx.pos.le hb (by omega)
  refine ⟨hfinite, hrounded.ge a' hlow (Real.le_sqrt_of_sq_le ?_), (le_abs_self _).trans hwithin.le⟩
  have hle : (2 ^ a') ^ 2 ≤ value x := by
    calc ((2 : ℚ) ^ a') ^ 2 = 2 ^ (2 * a') := by rw [mul_comm, zpow_mul, zpow_ofNat]
      _ ≤ 2 ^ a := zpow_le_zpow_right₀ one_le_two ha
      _ ≤ value x := hx.ge
  simpa using Rat.cast_le (K := ℝ) |>.2 hle

end Between

/-- The least positive number. -/
theorem least_le_value (hx : x.isFinite = true) (h : value x ≠ 0) : 2 ^ (-1074 : ℤ) ≤ |value x| := by
  obtain ⟨s, hx⟩ | ⟨s, m, e, hm, hx, hc, -⟩ := unpack_of_isFinite hx
  · exact absurd (value_of_zero hx) h
  · have hleast : -1074 ≤ e := hc.least
    rw [value_of_finite hx, abs_signed, abs_of_nonneg (by positivity)]
    calc (2 : ℚ) ^ (-1074 : ℤ) ≤ 2 ^ e := zpow_le_zpow_right₀ one_le_two hleast
      _ ≤ m * 2 ^ e := le_mul_of_one_le_left (by positivity) (by exact_mod_cast hm)

theorem value_eq_zero_iff (hx : x.isFinite = true) : value x = 0 ↔ (x == 0) = true := by
  rw [beq_zero_iff]
  obtain ⟨s, hs⟩ | ⟨s, m, e, hm, hs, -⟩ := unpack_of_isFinite hx
  · exact iff_of_true (value_of_zero hs) ⟨s, hs⟩
  · have hpositive : (0 : ℚ) < m * 2 ^ e := by positivity
    have habs := abs_signed s (m * 2 ^ e)
    rw [abs_of_pos hpositive] at habs
    rw [value_of_finite hs, hs]
    refine iff_of_false (fun h => ?_) nofun
    rw [h, abs_zero] at habs
    exact hpositive.ne habs

theorem signedPattern_of_value_eq_zero (hx : x.isFinite = true) (h : value x = 0) : signedPattern x = 0 := by
  have hspec := signedPattern_spec x
  obtain ⟨s, hs⟩ := beq_zero_iff.1 ((value_eq_zero_iff hx).1 h)
  rwa [hs] at hspec

/-- Every positive finite number is between two powers of two next to each other. -/
theorem exists_between (hx : x.isFinite = true) (h : 0 < value x) : ∃ k, -1074 ≤ k ∧ Between k (k + 1) x := by
  obtain ⟨k, hge, hlt⟩ := exists_mem_Ico_zpow h one_lt_two
  have hleast := abs_of_pos h ▸ least_le_value hx h.ne'
  have hk := (zpow_lt_zpow_iff_right₀ one_lt_two).1 (hleast.trans_lt hlt)
  exact ⟨k, by omega, hx, hge, hlt.le⟩

/-- The magnitude of a finite number other than zero. -/
theorem exists_within (hx : x.isFinite = true) (h : value x ≠ 0) :
    ∃ k, -1074 ≤ k ∧ 2 ^ k ≤ |value x| ∧ Within (k + 1) x := by
  obtain ⟨hfinite, hvalue⟩ := isFinite_abs hx
  obtain ⟨k, hk, hbetween⟩ := exists_between hfinite (hvalue ▸ abs_pos.2 h)
  exact ⟨k, hk, hvalue ▸ hbetween.ge, hx, hvalue ▸ hbetween.le⟩

/-! ## Numbers that are not negative -/

theorem value_mul_self_nonneg (hx : Within a x) (hhigh : a + a ≤ 1022) : 0 ≤ value (x * x) :=
  (approximates_mul hx.isFinite hx.isFinite (hx.abs_product_le hx hhigh)).nonneg (mul_self_nonneg _)

theorem value_add_nonneg (hx : Within a x) (hy : Within a y) (hhigh : a + 1 ≤ 1022) (hx' : 0 ≤ value x)
    (hy' : 0 ≤ value y) : 0 ≤ value (x + y) :=
  (approximates_add hx.isFinite hy.isFinite (hx.abs_sum_le hy hhigh)).nonneg (add_nonneg hx' hy')

end Binary
end FlatNtuple
