import FlatNtuple.Proofs.Binary.Special
import FlatNtuple.Proofs.Binary.Arithmetic
/-!
# The negative zero in sums

Adding zero changes one number only, the negative zero (`add_zero_of_ne`), and a sum is the negative zero only if both of
its terms are: terms that cancel give the positive zero, and a sum is not rounded to zero, because its terms are multiples
of the least number (`add_ne_negZero`).
-/
namespace FlatNtuple
namespace Binary

open Float.Model (UnpackedFloat)
open Float.Model.UnpackedFloat

variable {x y : Float} {s s' : Sign} {m : ℕ} {e t : ℤ}

theorem unpack_pack_finite_ne_zero (hm : 0 < m) (hc : binary64.Canonical m e) :
    (Float.Model.pack (.finite s m e hm)).unpack ≠ .zero s' := by
  obtain he | he := le_or_gt e 971
  · rw [unpack_pack_finite hm hc he]
    nofun
  · rw [unpack_pack_overflow hm he]
    nofun

theorem unpack_pack_ofRounded_ne_zero (hm : 0 < m) (ht : -1074 ≤ t) (hnormal : t = -1074 ∨ 2 ^ 52 ≤ m) :
    (Float.Model.pack (ofRounded s m t)).unpack ≠ .zero s' := by
  rw [ofRounded, dif_neg hm.ne']
  split
  · rename_i hlt
    refine unpack_pack_finite_ne_zero hm ⟨ht, hlt, fun h => hnormal.resolve_left fun h' => ?_⟩
    change -1074 < t at h
    omega
  · refine unpack_pack_finite_ne_zero _ ⟨?_, by decide, fun _ => le_rfl⟩
    change -1074 ≤ t + 1
    omega

/-- A multiple of the least number is not rounded to zero. -/
theorem unpack_pack_round_ne_zero (hm : 0 < m) (he : -1074 ≤ e) :
    (Float.Model.pack (round .binary64 s m e)).unpack ≠ .zero s' := by
  obtain ⟨k, hround, htarget, hleast⟩ := exists_round_eq s hm e
  have hpos : 0 < m <<< k := by
    rw [Nat.shiftLeft_eq]
    positivity
  obtain ⟨t, ht⟩ : ∃ t, t = max (((m <<< k).log2 : ℤ) + (e - k) - 52) (-1074) := ⟨_, rfl⟩
  have hle : e - k ≤ t := ht ▸ le_target htarget
  obtain ⟨hlow, hhigh⟩ := cut_mem .exact ht hle
  have hmem := roundedMantissa_mem (ExtendedMantissa.ofMantissaAndAccuracy (m <<< k) .exact >>> (t - (e - k)).toNat)
  -- The bits that are cut off are below the least number, where there are none, or leave 53 of them.
  have hcut : 0 < (ExtendedMantissa.ofMantissaAndAccuracy (m <<< k) .exact >>> (t - (e - k)).toNat).mantissa := by
    obtain ht' | hhigh := hhigh
    · have hnone : (t - (e - k)).toNat = 0 := by have := hleast he; omega
      rw [hnone, mantissa_shiftRight, mantissa_ofMantissaAndAccuracy, pow_zero, Nat.div_one]
      exact hpos
    · omega
  rw [hround, roundWithAccuracy_eq ht hle]
  exact unpack_pack_ofRounded_ne_zero (by omega) (by omega) (by omega)

theorem eq_negZero_iff : x = -0 ↔ x.toModel.unpack = .zero .negative := by
  constructor
  · rintro rfl
    rfl
  · intro h
    rw [← mk_pack_unpack x, h]
    rfl

/-- **Zero added changes nothing but the negative zero.** -/
theorem add_zero_of_ne (h : x ≠ -0) : x + 0 = x := by
  have hsum : x + 0 = ⟨Float.Model.pack (.add .binary64 x.toModel.unpack (.zero .positive))⟩ := rfl
  have hsame : UnpackedFloat.add .binary64 x.toModel.unpack (.zero .positive) = x.toModel.unpack := by
    rw [Ne, eq_negZero_iff] at h
    cases hx : x.toModel.unpack with
    | notANumber | infinity | finite => rfl
    | zero s =>
      rw [hx] at h
      cases s
      · exact absurd rfl h
      · rfl
  rw [hsum, hsame, mk_pack_unpack]

/-- Terms that are not zero do not add up to the negative zero. -/
theorem unpack_pack_normalize_ne_negZero (he : -1074 ≤ e) (n : ℤ) :
    (Float.Model.pack (.normalize .binary64 n e .positive)).unpack ≠ .zero .negative := by
  unfold UnpackedFloat.normalize
  obtain hn | rfl | hn := lt_trichotomy n 0
  · rw [compare_lt_iff_lt.2 hn]
    exact unpack_pack_round_ne_zero (by omega) he
  · rw [compare_eq_iff_eq.2 rfl, unpack_pack_zero]
    nofun
  · rw [compare_gt_iff_gt.2 hn]
    exact unpack_pack_round_ne_zero (by omega) he

theorem least_le_of_finite {hm : 0 < m} (h : x.toModel.unpack = .finite s m e hm) : -1074 ≤ e := by
  obtain ⟨s', hzero⟩ | ⟨s', m', e', hm', hfinite, hc, -⟩ := unpack_of_isFinite (congrArg UnpackedFloat.isFinite h)
  · cases h.symm.trans hzero
  · cases h.symm.trans hfinite
    exact hc.least

/-- **A sum is the negative zero only if its terms are.** -/
theorem add_ne_negZero (h : x ≠ -0) (y : Float) : x + y ≠ -0 := by
  rw [Ne, eq_negZero_iff] at h ⊢
  change (Float.Model.pack (.add .binary64 x.toModel.unpack y.toModel.unpack)).unpack ≠ .zero .negative
  have hkeep (z : Float) : (Float.Model.pack z.toModel.unpack).unpack = z.toModel.unpack :=
    congrArg (fun z : Float => z.toModel.unpack) (mk_pack_unpack z)
  have hnan : (Float.Model.pack .notANumber).unpack ≠ .zero .negative := by
    rw [unpack_pack_nan]
    nofun
  have hinfinity (s : Sign) : (Float.Model.pack (.infinity s)).unpack ≠ .zero .negative := by
    rw [unpack_pack_infinity]
    nofun
  have hzero : (Float.Model.pack (.zero .positive)).unpack ≠ .zero .negative := by
    rw [unpack_pack_zero]
    nofun
  cases hx : x.toModel.unpack with
  | notANumber => exact hnan
  | infinity s =>
    cases y.toModel.unpack with
    | notANumber => exact hnan
    | infinity s' =>
      cases s <;> cases s'
      · exact hinfinity _
      · exact hnan
      · exact hnan
      · exact hinfinity _
    | zero | finite => exact hinfinity s
  | zero s =>
    cases s
    · exact absurd hx h
    cases hy : y.toModel.unpack with
    | notANumber => exact hnan
    | infinity s' => exact hinfinity s'
    | zero s' => cases s' <;> exact hzero
    | finite s' m' e' hm' =>
      change (Float.Model.pack (.finite s' m' e' hm')).unpack ≠ .zero .negative
      rw [← hy, hkeep, hy]
      nofun
  | finite s m e hm =>
    cases hy : y.toModel.unpack with
    | notANumber => exact hnan
    | infinity s' => exact hinfinity s'
    | zero s' =>
      change (Float.Model.pack (.finite s m e hm)).unpack ≠ .zero .negative
      rw [← hx, hkeep, hx]
      nofun
    | finite s' m' e' hm' =>
      exact unpack_pack_normalize_ne_negZero (le_min (least_le_of_finite hx) (least_le_of_finite hy)) _

end Binary
end FlatNtuple
