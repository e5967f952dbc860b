import FlatNtuple.Binary.Hypot
import FlatNtuple.Proofs.Binary.Magnitude
/-!
# The length of a plane vector stays in range

Sides far below the end of the range give a finite length not much longer (`within_hypot`): none of the squares in
between overflows, and the root that its residue is divided by is not zero, whichever way the sides are scaled.
-/
namespace FlatNtuple
namespace Binary

variable {x y : Float} {k : ℤ}

/-! ## Powers of two -/

theorem between_of_ofFloat {e n : ℤ} (h : ofFloat x = .finite false (2 ^ 52) e) (hn : n = 52 + e) : Between n n x := by
  have hvalue : value x = 2 ^ n := by
    rw [value, h, hn, zpow_add₀ two_ne_zero]
    norm_num [Decoded.value]
  exact ⟨isFinite_of_ofFloat h, hvalue.ge, hvalue.le⟩

theorem between_one : Between 0 0 1 := between_of_ofFloat (e := -52) rfl rfl

theorem between_two : Between 1 1 2 := between_of_ofFloat (e := -51) rfl rfl

theorem between_four : Between 2 2 4 := between_of_ofFloat (e := -50) rfl rfl

theorem between_negligible : Between (-54) (-54) negligible := between_of_ofFloat (e := -106) rfl rfl

/-- The scale of the sides and the two thresholds. -/
theorem between_sides : Between 600 600 sideScale ∧ Between 511 511 largeSide ∧ Between (-459) (-459) smallSide :=
  ⟨between_of_ofFloat (e := 548) (by decide +kernel) rfl, between_of_ofFloat (e := 459) (by decide +kernel) rfl,
    between_of_ofFloat (e := -511) (by decide +kernel) rfl⟩

/-! ## The root of the squares -/

/-- The plain root is between the longer side, rounded down, and four times it. -/
theorem between_sqrt (hx : Between k (k + 1) x) (hy : Within (k + 1) y) (hlow : -500 ≤ k) (hhigh : k ≤ 500) :
    Between k (k + 2) (x * x + y * y).sqrt := by
  have hxx : Between (k + k) (k + 1 + (k + 1)) (x * x) := hx.mul hx (by omega) (by omega)
  have hyy : Within (k + 1 + (k + 1)) (y * y) := hy.mul hy le_rfl (by omega) (by omega)
  have hsum := hxx.add_nonneg hyy (value_mul_self_nonneg hy (by omega)) (by omega) (by omega)
  exact hsum.sqrt (by omega) (by omega) (by omega)

section
variable {d : Float} (hx : Within (k + 1) x) (hy : Within (k + 1) y) (hd : Within (k + 3) d) (hlow : -500 ≤ k)
  (hhigh : k ≤ 500)
include hx hy hd hlow hhigh

/-- The residue by the difference of the root to the shorter side. -/
theorem within_residue_short : Within (k + k + 9) (x * (2 * d - x) + (d - 2 * (x - y)) * d) := by
  have hdouble : Within (k + 4) (2 * d) := between_two.within.mul hd (by omega) (by omega) (by omega)
  have hleft : Within (k + 5) (2 * d - x) := hdouble.sub (hx.mono (by omega)) (by omega) (by omega) (by omega)
  have hxy : Within (k + 2) (x - y) := hx.sub hy (by omega) (by omega) (by omega)
  have hxy : Within (k + 3) (2 * (x - y)) := between_two.within.mul hxy (by omega) (by omega) (by omega)
  have hright : Within (k + 4) (d - 2 * (x - y)) := hd.sub hxy (by omega) (by omega) (by omega)
  have hleft : Within (k + k + 8) _ := hx.mul hleft (by omega) (by omega) (by omega)
  have hright : Within (k + k + 8) _ := hright.mul hd (by omega) (by omega) (by omega)
  exact hleft.add hright (by omega) (by omega) (by omega)

/-- The residue by the difference of the root to the longer side. -/
theorem within_residue_long : Within (k + k + 9) (2 * d * (x - 2 * y) + ((4 * d - y) * y + d * d)) := by
  have hdouble : Within (k + 4) (2 * d) := between_two.within.mul hd (by omega) (by omega) (by omega)
  have hyy : Within (k + 2) (2 * y) := between_two.within.mul hy (by omega) (by omega) (by omega)
  have hxy : Within (k + 3) (x - 2 * y) := (hx.mono (by omega)).sub hyy (by omega) (by omega) (by omega)
  have hleft : Within (k + k + 8) _ := hdouble.mul hxy (by omega) (by omega) (by omega)
  have hfour : Within (k + 5) (4 * d) := between_four.within.mul hd (by omega) (by omega) (by omega)
  have hdy : Within (k + 6) (4 * d - y) := hfour.sub (hy.mono (by omega)) (by omega) (by omega) (by omega)
  have hmiddle : Within (k + k + 7) _ := hdy.mul hy (by omega) (by omega) (by omega)
  have hsquare : Within (k + k + 7) (d * d) := hd.mul hd (by omega) (by omega) (by omega)
  have hright : Within (k + k + 8) _ := hmiddle.add hsquare (by omega) (by omega) (by omega)
  exact hleft.add hright (by omega) (by omega) (by omega)

end

theorem within_rootOfSquares (hx : Between k (k + 1) x) (hy : Within (k + 1) y) (hlow : -500 ≤ k) (hhigh : k ≤ 500) :
    Within (k + 9) (rootOfSquares x y) := by
  have hroot := between_sqrt hx hy hlow hhigh
  unfold rootOfSquares
  simp only
  generalize (x * x + y * y).sqrt = h at hroot ⊢
  have hh : Within (k + 2) h := hroot.within
  have hshort : Within (k + 3) (h - y) := hh.sub (hy.mono (by omega)) (by omega) (by omega) (by omega)
  have hlong : Within (k + 3) (h - x) := hh.sub (hx.within.mono (by omega)) (by omega) (by omega) (by omega)
  have hresidue : Within (k + k + 9) (if h ≤ 2 * y then x * (2 * (h - y) - x) + (h - y - 2 * (x - y)) * (h - y)
      else 2 * (h - x) * (x - 2 * y) + ((4 * (h - x) - y) * y + (h - x) * (h - x))) := by
    split
    · exact within_residue_short hx.within hy hshort hlow hhigh
    · exact within_residue_long hx.within hy hlong hlow hhigh
  have hdouble : Between (1 + k) (1 + (k + 2)) (2 * h) := between_two.mul hroot (by omega) (by omega)
  have hquotient : Within (k + 8) _ :=
    hresidue.div hdouble.isFinite (hdouble.ge.trans (le_abs_self _)) (by omega) (by omega) (by omega)
  exact (hh.mono (by omega)).sub hquotient (by omega) (by omega) (by omega)

/-! ## The length -/

section
variable {a b : Float} (ha : Within 333 a) (hb : Within 333 b) (hb' : 0 ≤ value b) (hba : value b ≤ value a)
  (hne : ¬b ≤ a * negligible)
include ha hb hb' hba hne

/-- Nothing is beside a side of length zero. -/
theorem pos_of_not_negligible : 0 < value a := by
  refine lt_of_le_of_ne (hb'.trans hba) fun hzero => hne ?_
  have hb0 : value b = 0 := le_antisymm (hzero ▸ hba) hb'
  have hproduct : Within 333 (a * negligible) := ha.mul between_negligible.within (by omega) (by omega) (by omega)
  have happrox := approximates_mul ha.isFinite between_negligible.isFinite
    (by rw [← hzero, zero_mul, abs_zero]; positivity)
  rw [← hzero, zero_mul] at happrox
  have hproduct0 : value (a * negligible) = 0 := le_antisymm (happrox.nonpos le_rfl) (happrox.nonneg le_rfl)
  rw [le_iff, signedPattern_of_value_eq_zero hb.isFinite hb0,
    signedPattern_of_value_eq_zero hproduct.isFinite hproduct0]
  exact ⟨(isFinite_iff.1 hb.isFinite).1, (isFinite_iff.1 hproduct.isFinite).1, le_rfl⟩

/-- Sides in order, the shorter of which is not negligible. -/
theorem within_scaled :
    Within 343 (if largeSide < a then rootOfSquares (a / sideScale) (b / sideScale) * sideScale
      else if b < smallSide then rootOfSquares (a * sideScale) (b * sideScale) / sideScale
      else rootOfSquares a b) := by
  obtain ⟨hscale, hlargeSide, hsmallSide⟩ := between_sides
  have hproduct : Within 333 (a * negligible) := ha.mul between_negligible.within (by omega) (by omega) (by omega)
  have hnanb := (isFinite_iff.1 hb.isFinite).1
  have hlt : a * negligible < b := (lt_iff_not_le (isFinite_iff.1 hproduct.isFinite).1 hnanb).2 hne
  obtain ⟨k, hk, hak⟩ := exists_between ha.isFinite (pos_of_not_negligible ha hb hb' hba hne)
  have hk' : k ≤ 333 := (zpow_le_zpow_iff_right₀ one_lt_two).1 (hak.ge.trans ((le_abs_self _).trans ha.le))
  have hbk : Within (k + 1) b := ⟨hb.isFinite, by rw [abs_of_nonneg hb']; exact hba.trans hak.le⟩
  split
  · -- The sides are not so long.
    rename_i hlarge
    have hle := value_le hlargeSide.isFinite ha.isFinite (le_of_lt hlarge)
    have := (zpow_le_zpow_iff_right₀ one_lt_two).1 (hlargeSide.ge.trans (hle.trans hak.le))
    omega
  · split
    · -- The shorter side is not negligible, so the longer one is short as well.
      rename_i hsmall
      have hsmall : value (a * negligible) ≤ 2 ^ (-459 : ℤ) :=
        (value_le hproduct.isFinite hb.isFinite (le_of_lt hlt)).trans
          ((value_le hb.isFinite hsmallSide.isFinite (le_of_lt hsmall)).trans hsmallSide.le)
      have hshort : k ≤ -405 := by
        by_contra hlong
        have hge := (hak.mul between_negligible (by omega) (by omega)).ge
        have := (zpow_le_zpow_iff_right₀ one_lt_two).1 (hge.trans hsmall)
        omega
      have hscaled : Between (k + 600) (k + 600 + 1) (a * sideScale) := by
        have := hak.mul hscale (by omega) (by omega)
        rwa [add_right_comm] at this
      have hscaled' : Within (k + 600 + 1) (b * sideScale) := hbk.mul hscale.within (by omega) (by omega) (by omega)
      have hroot := within_rootOfSquares hscaled hscaled' (by omega) (by omega)
      exact hroot.div hscale.isFinite (hscale.ge.trans (le_abs_self _)) (by omega) (by omega) (by omega)
    · rename_i hsmall
      have hsmall := le_of_not_lt (isFinite_iff.1 hsmallSide.isFinite).1 hnanb hsmall
      have hge := value_le hsmallSide.isFinite hb.isFinite hsmall
      have := (zpow_le_zpow_iff_right₀ one_lt_two).1 (hsmallSide.ge.trans (hge.trans (hba.trans hak.le)))
      exact (within_rootOfSquares hak hbk (by omega) (by omega)).mono (by omega)

end

/-- **The length of a vector with sides below `2 ^ 333` is finite.** -/
theorem within_hypot (hx : Within 333 x) (hy : Within 333 y) : Within 343 (hypot x y) := by
  have hx' := isFinite_abs hx.isFinite
  have hy' := isFinite_abs hy.isFinite
  have hordered : ∃ a b, (if x.abs < y.abs then y.abs else x.abs) = a ∧ (if x.abs < y.abs then x.abs else y.abs) = b ∧
      Within 333 a ∧ Within 333 b ∧ 0 ≤ value b ∧ value b ≤ value a := by
    by_cases hlt : x.abs < y.abs
    · simp only [hlt, if_true]
      refine ⟨_, _, rfl, rfl, hy.abs, hx.abs, ?_, value_le hx'.1 hy'.1 (le_of_lt hlt)⟩
      rw [hx'.2]
      exact abs_nonneg _
    · simp only [hlt, if_false]
      have hle := le_of_not_lt (isFinite_iff.1 hy'.1).1 (isFinite_iff.1 hx'.1).1 hlt
      refine ⟨_, _, rfl, rfl, hx.abs, hy.abs, ?_, value_le hy'.1 hx'.1 hle⟩
      rw [hy'.2]
      exact abs_nonneg _
  obtain ⟨a, b, ha, hb, ha', hb', hnonneg, hle⟩ := hordered
  unfold hypot
  simp only [isInf_of_isFinite hx.isFinite, isInf_of_isFinite hy.isFinite, (isFinite_iff.1 hx.isFinite).1,
    (isFinite_iff.1 hy.isFinite).1, Bool.or_self, Bool.false_eq_true, if_false, ha, hb]
  split
  · exact (ha'.add hb' le_rfl (by omega) (by omega)).mono (by omega)
  · rename_i hne
    exact within_scaled ha' hb' hnonneg hle hne

end Binary
end FlatNtuple
