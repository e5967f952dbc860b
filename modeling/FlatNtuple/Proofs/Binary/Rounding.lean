import FlatNtuple.Proofs.Binary.Special
/-!
# Rounding

The core library rounds a mantissa with two bits behind it, which say how far the exact value is above the mantissa
(`Represents`).  Shifting keeps that, so the rounded mantissa is within one half of the exact one, and no power of two
lies between the exact value and the rounded one (`round_spec`).
-/
namespace FlatNtuple
namespace Binary

open Float.Model (UnpackedFloat totalExponent)
open Float.Model.UnpackedFloat

section
variable {K : Type} [Field K] [LinearOrder K] [IsStrictOrderedRing K] {em : ExtendedMantissa} {q : K}

/-! ## Mantissas with two bits behind them -/

/-- What a mantissa and the bits behind it say about an exact value: whether it is the mantissa, and on which side of the
middle to the next one it is if it is not. -/
def Represents (em : ExtendedMantissa) (q : K) : Prop :=
  match em.roundBit, em.stickyBit with
  | false, false => q = em.mantissa
  | false, true => em.mantissa < q ∧ q < em.mantissa + 1 / 2
  | true, false => q = em.mantissa + 1 / 2
  | true, true => em.mantissa + 1 / 2 < q ∧ q < em.mantissa + 1

namespace Represents

omit [IsStrictOrderedRing K] in
theorem exact (m : ℕ) : Represents (.ofMantissaAndAccuracy m .exact) (m : K) := rfl

theorem shiftRightOne (h : Represents em q) : Represents em.shiftRightOne (q / 2) := by
  obtain ⟨m, round, sticky⟩ := em
  obtain ⟨k, rfl | rfl⟩ := Nat.even_or_odd' m
  · have hk : 2 * k / 2 = k ∧ 2 * k % 2 = 0 := by omega
    cases round <;> cases sticky <;> simp [Represents, ExtendedMantissa.shiftRightOne, hk] at h ⊢ <;>
      first | linarith | constructor <;> linarith
  · have hk : (2 * k + 1) / 2 = k ∧ (2 * k + 1) % 2 = 1 := by omega
    cases round <;> cases sticky <;> simp [Represents, ExtendedMantissa.shiftRightOne, hk] at h ⊢ <;>
      first | linarith | constructor <;> linarith

theorem shiftRight (h : Represents em q) (n : ℕ) : Represents (em >>> n) (q / 2 ^ n) := by
  change Represents (n.repeat ExtendedMantissa.shiftRightOne em) _
  induction n with
  | zero => rwa [pow_zero, div_one]
  | succ n ih =>
    rw [Nat.repeat, pow_succ, ← div_div]
    exact ih.shiftRightOne

theorem mantissa_le (h : Represents em q) : em.mantissa ≤ q ∧ q < em.mantissa + 1 := by
  obtain ⟨m, round, sticky⟩ := em
  cases round <;> cases sticky <;> simp only [Represents] at h <;> constructor <;> linarith

/-- The rounded mantissa is one of the nearest. -/
theorem abs_roundedMantissa_sub (h : Represents em q) : |(em.roundedMantissa : K) - q| ≤ 1 / 2 := by
  obtain ⟨m, round, sticky⟩ := em
  have heven : m % 2 = 0 ∨ m % 2 = 1 := by omega
  rw [abs_le]
  cases round <;> cases sticky <;>
    simp only [Represents, ExtendedMantissa.roundedMantissa, ExtendedMantissa.accuracy,
      Accuracy.roundToNearestEven] at h ⊢
  case true.false => obtain hm | hm := heven <;> rw [hm] <;> push_cast <;> constructor <;> linarith
  all_goals push_cast; constructor <;> linarith

end Represents
end

/-! ## One rounding -/

theorem targetExponent_eq (n : ℤ) : Float.Model.Format.binary64.targetExponent n = max (n - 53) (-1074) := rfl

theorem mantissa_shiftRight (em : ExtendedMantissa) (n : ℕ) : (em >>> n).mantissa = em.mantissa / 2 ^ n := by
  change (n.repeat ExtendedMantissa.shiftRightOne em).mantissa = _
  induction n with
  | zero => rw [pow_zero, Nat.div_one]; rfl
  | succ n ih =>
    rw [Nat.repeat, pow_succ, ← Nat.div_div_eq_div_mul, ← ih]
    rfl

theorem mantissa_ofMantissaAndAccuracy (m : ℕ) (acc : Accuracy) :
    (ExtendedMantissa.ofMantissaAndAccuracy m acc).mantissa = m := by
  obtain _ | (_ | _ | _) := acc <;> rfl

theorem roundedMantissa_mem (em : ExtendedMantissa) :
    em.mantissa ≤ em.roundedMantissa ∧ em.roundedMantissa ≤ em.mantissa + 1 := by
  obtain ⟨m, round, sticky⟩ := em
  cases round <;> cases sticky <;>
    simp only [ExtendedMantissa.roundedMantissa, ExtendedMantissa.accuracy, Accuracy.roundToNearestEven] <;> omega

/-- A rounded mantissa at its exponent.  One that has grown by a bit is halved. -/
def ofRounded (s : Sign) (m : ℕ) (e : ℤ) : UnpackedFloat :=
  if h : m = 0 then .zero s
  else if m < 2 ^ 53 then .finite s m e (Nat.pos_of_ne_zero h)
  else .finite s (2 ^ 52) (e + 1) (by decide)

variable {s : Sign} {m : ℕ} {e t : ℤ} {acc : Accuracy}

/-- A mantissa is cut to 53 bits, unless the least exponent leaves fewer. -/
theorem cut_mem (acc : Accuracy) (ht : t = max (m.log2 + e - 52) (-1074)) (he : e ≤ t) :
    (ExtendedMantissa.ofMantissaAndAccuracy m acc >>> (t - e).toNat).mantissa < 2 ^ 53 ∧
      (t = -1074 ∨ 2 ^ 52 ≤ (ExtendedMantissa.ofMantissaAndAccuracy m acc >>> (t - e).toNat).mantissa) := by
  rw [mantissa_shiftRight, mantissa_ofMantissaAndAccuracy]
  constructor
  · rw [Nat.div_lt_iff_lt_mul (by positivity), ← pow_add]
    exact Nat.lt_log2_self.trans_le (Nat.pow_le_pow_right (by omega) (by omega))
  · obtain hleast | hlog : t = -1074 ∨ m.log2 = 52 + (t - e).toNat := by omega
    · exact .inl hleast
    · have hm : m ≠ 0 := by
        rintro rfl
        rw [Nat.log2_zero] at hlog
        omega
      refine .inr ((Nat.le_div_iff_mul_le (by positivity)).2 ?_)
      rw [← pow_add, ← hlog]
      exact Nat.log2_self_le hm

theorem shiftToTargetExponent_eq (ht : t = max e (max (m.log2 + e - 52) (-1074))) :
    shiftToTargetExponent .binary64 m e acc =
      (ExtendedMantissa.ofMantissaAndAccuracy m acc >>> (t - e).toNat, t) := by
  have hshift : (max ((m.log2 : ℤ) + 1 + e - 53) (-1074) - e).toNat = (t - e).toNat := by omega
  unfold shiftToTargetExponent shiftToExponent totalExponent
  rw [targetExponent_eq]
  simp only [hshift, Prod.mk.injEq, true_and]
  omega

/-- The second shift has something to do only for a mantissa that has grown by a bit. -/
theorem roundWithAccuracy_eq (ht : t = max (m.log2 + e - 52) (-1074)) (he : e ≤ t) :
    roundWithAccuracy .binary64 s m e acc =
      ofRounded s (ExtendedMantissa.ofMantissaAndAccuracy m acc >>> (t - e).toNat).roundedMantissa t := by
  have hmem := roundedMantissa_mem (ExtendedMantissa.ofMantissaAndAccuracy m acc >>> (t - e).toNat)
  have hcut := (cut_mem acc ht he).1
  unfold roundWithAccuracy
  rw [shiftToTargetExponent_eq (t := t) (by omega)]
  simp only
  generalize (ExtendedMantissa.ofMantissaAndAccuracy m acc >>> (t - e).toNat).roundedMantissa = r at hmem ⊢
  obtain hlt | rfl : r < 2 ^ 53 ∨ r = 2 ^ 53 := by omega
  · have hlog : r.log2 ≤ 52 := by
      obtain rfl | hr := eq_or_ne r 0
      · rw [Nat.log2_zero]
        omega
      · exact Nat.lt_succ_iff.1 ((Nat.log2_lt hr).2 hlt)
    rw [shiftToTargetExponent_eq (t := t) (by omega)]
    simp only [mantissa_shiftRight, mantissa_ofMantissaAndAccuracy, ofRounded, sub_self, Int.toNat_zero, pow_zero,
      Nat.div_one, if_pos hlt]
  · have hlog : (2 ^ 53).log2 = 53 := by decide
    rw [shiftToTargetExponent_eq (t := t + 1) (by rw [hlog]; omega)]
    simp [mantissa_shiftRight, mantissa_ofMantissaAndAccuracy, ofRounded]

/-! ## Packing what is rounded -/

theorem ofBitVec_toBitVec (s : Sign) : Sign.ofBitVec s.toBitVec = s := by cases s <;> rfl

theorem unpackSign_packComponents {spec : Float.Model.Format} {e : BitVec spec.exponentBits}
    {m : BitVec spec.mantissaBitsWithoutImplicit} : unpackSign (packComponents spec s e m) = s.toBitVec := by
  ext i hi
  obtain rfl : i = 0 := by omega
  simp [unpackSign, packComponents, BitVec.getLsbD_append, BitVec.getElem_append]

theorem finite_congr {m' : ℕ} {e' : ℤ} {h : 0 < m} {h' : 0 < m'} (hm : m = m') (he : e = e') :
    finite s m e h = finite s m' e' h' := by
  subst hm he
  rfl

theorem unpack_packComponents_normal {field : BitVec 11} {fraction : BitVec 52} (h : field ≠ -1#11) (h' : field ≠ 0#11)
    (hpos : 0 < (1#1 ++ fraction).toNat) : unpack .binary64 (packComponents .binary64 s field fraction) =
      .finite s (1#1 ++ fraction).toNat (field.toNat - 1075) hpos := by
  unfold unpack
  simp only [unpackMantissa_packComponents, unpackExponent_packComponents, unpackSign_packComponents, ofBitVec_toBitVec]
  rw [if_neg h, if_neg h']
  rfl

theorem unpack_packComponents_subnormal {fraction : BitVec 52} (h : fraction ≠ 0#52) (hpos : 0 < fraction.toNat) :
    unpack .binary64 (packComponents .binary64 s 0#11 fraction) = .finite s fraction.toNat (-1074) hpos := by
  unfold unpack
  simp only [unpackMantissa_packComponents, unpackExponent_packComponents, unpackSign_packComponents, ofBitVec_toBitVec]
  rw [if_neg (by decide), if_true, dif_neg h]
  rfl

/-- A finite number that the format has is not changed by packing. -/
theorem unpack_pack_finite (hm : 0 < m) (hc : binary64.Canonical m e) (he : e ≤ 971) :
    (Float.Model.pack (.finite s m e hm)).unpack = .finite s m e hm := by
  obtain ⟨hleast, hlt, hnormal⟩ := hc
  change -1074 ≤ e at hleast
  change m < 2 ^ 53 at hlt
  change -1074 < e → 2 ^ 52 ≤ m at hnormal
  change unpack .binary64 (pack .binary64 _) = _
  have hbiased : ¬2 ^ 11 ≤ (e + 1023 + 52).toNat + 1 := by omega
  obtain hbit | hbit := Nat.lt_or_ge m (2 ^ 52)
  · have hlog : ¬m.log2 + 1 = 1 + 52 := fun h => by
      have := (Nat.log2_lt hm.ne').2 hbit
      omega
    have hpack : pack .binary64 (.finite s m e hm) = packComponents .binary64 s 0#11 (BitVec.ofNat 52 m) := by
      simp only [pack]
      rw [if_neg (by exact hbiased), if_neg (by exact hlog)]
    have hfraction : (BitVec.ofNat 52 m).toNat = m := by rw [BitVec.toNat_ofNat, Nat.mod_eq_of_lt hbit]
    have hne : BitVec.ofNat 52 m ≠ 0#52 := fun h => by
      rw [h] at hfraction
      exact hm.ne hfraction
    rw [hpack, unpack_packComponents_subnormal hne (hfraction.symm ▸ hm :)]
    exact finite_congr hfraction (by omega)
  · have hlog : m.log2 + 1 = 1 + 52 := by rw [(Nat.log2_eq_iff hm.ne').2 ⟨hbit, hlt⟩]
    have hpack : pack .binary64 (.finite s m e hm) =
        packComponents .binary64 s (BitVec.ofNat 11 (e + 1023 + 52).toNat) (BitVec.ofNat 52 m) := by
      simp only [pack]
      rw [if_neg (by exact hbiased), if_pos (by exact hlog)]
      rfl
    have hfield : (BitVec.ofNat 11 (e + 1023 + 52).toNat).toNat = (e + 1023 + 52).toNat := by
      rw [BitVec.toNat_ofNat, Nat.mod_eq_of_lt (by omega)]
    have hmantissa : (1#1 ++ BitVec.ofNat 52 m).toNat = m := by
      rw [toNat_hidden_append, BitVec.toNat_ofNat]
      omega
    rw [hpack, unpack_packComponents_normal (fun h => ?_) (fun h => ?_) (hmantissa.symm ▸ hm :)]
    · exact finite_congr hmantissa (by omega)
    · rw [h] at hfield
      change 2047 = _ at hfield
      omega
    · rw [h] at hfield
      change 0 = _ at hfield
      omega

/-- Beyond the greatest exponent lies infinity. -/
theorem unpack_pack_overflow (hm : 0 < m) (he : 971 < e) :
    (Float.Model.pack (.finite s m e hm)).unpack = .infinity s := by
  have hbiased : 2 ^ 11 ≤ (e + 1023 + 52).toNat + 1 := by omega
  have hpack : pack .binary64 (.finite s m e hm) = packedInfinity .binary64 s := by
    simp only [pack]
    rw [if_pos (by exact hbiased)]
  change unpack .binary64 (pack .binary64 _) = _
  rw [hpack]
  exact unpack_pack_infinity s

theorem isNaN_pack_finite (hm : 0 < m) (hc : binary64.Canonical m e) :
    (Float.Model.pack (.finite s m e hm)).unpack.isNaN = false := by
  obtain he | he := le_or_gt e 971
  · rw [unpack_pack_finite hm hc he]
    rfl
  · rw [unpack_pack_overflow hm he]
    rfl

/-- Rounding does not give NaN. -/
theorem isNaN_of_round {x : Float}
    (hx : x.toModel.unpack = (Float.Model.pack (roundWithAccuracy .binary64 s m e acc)).unpack)
    (he : e ≤ max (m.log2 + e - 52) (-1074)) : x.isNaN = false := by
  obtain ⟨t, ht⟩ : ∃ t, t = max (m.log2 + e - 52) (-1074) := ⟨_, rfl⟩
  rw [← ht] at he
  obtain ⟨-, hhigh⟩ := cut_mem acc ht he
  rw [roundWithAccuracy_eq ht he] at hx
  generalize ExtendedMantissa.ofMantissaAndAccuracy m acc >>> (t - e).toNat = em at hx hhigh
  have hmem := roundedMantissa_mem em
  change x.toModel.unpack.isNaN = false
  rw [hx, ofRounded]
  split
  · rw [unpack_pack_zero]
    rfl
  · split
    · rename_i hlt
      refine isNaN_pack_finite _ ⟨?_, hlt, fun h => ?_⟩
      · change -1074 ≤ t
        omega
      · change -1074 < t at h
        change 2 ^ 52 ≤ _
        omega
    · refine isNaN_pack_finite _ ⟨?_, by decide, fun _ => le_rfl⟩
      change -1074 ≤ t + 1
      omega

/-! ## Rounded magnitudes -/

def signed (s : Sign) (r : ℚ) : ℚ := if isNegative s then -r else r

theorem value_eq (x : Float) : value x = (Decoded.ofUnpacked binary64.leastExponent x.toModel.unpack).value := by
  rw [value, ofFloat_eq]

theorem value_of_zero {x : Float} (h : x.toModel.unpack = .zero s) : value x = 0 := by
  rw [value_eq, h]
  cases s <;> simp [Decoded.ofUnpacked, Decoded.value]

theorem value_of_finite {x : Float} {hm : 0 < m} (h : x.toModel.unpack = .finite s m e hm) :
    value x = signed s (m * 2 ^ e) := by
  rw [value_eq, h]
  rfl

/-- What is rounded is finite below the range's end, and its value is that of the mantissa. -/
theorem pack_ofRounded {x : Float} (hx : x.toModel.unpack = (Float.Model.pack (ofRounded s m t)).unpack)
    (hm : m ≤ 2 ^ 53) (hnormal : t = -1074 ∨ 2 ^ 52 ≤ m) (ht : -1074 ≤ t) (ht' : t ≤ 970) :
    x.isFinite = true ∧ value x = signed s (m * 2 ^ t) := by
  unfold ofRounded at hx
  split at hx
  · rename_i hzero
    rw [unpack_pack_zero] at hx
    refine ⟨congrArg UnpackedFloat.isFinite hx, ?_⟩
    rw [value_of_zero hx, hzero]
    cases s <;> simp [signed]
  · split at hx
    · rename_i hlt
      rw [unpack_pack_finite _ ⟨ht, hlt, fun h => ?_⟩ (by omega)] at hx
      · exact ⟨congrArg UnpackedFloat.isFinite hx, value_of_finite hx⟩
      · exact hnormal.resolve_left fun h' => by
          change -1074 < t at h
          omega
    · obtain rfl : m = 2 ^ 53 := by omega
      have hleast : -1074 ≤ t + 1 := by omega
      have hcanonical : binary64.Canonical (2 ^ 52) (t + 1) := ⟨hleast, by decide, fun _ => le_rfl⟩
      rw [unpack_pack_finite _ hcanonical (by omega)] at hx
      refine ⟨congrArg UnpackedFloat.isFinite hx, ?_⟩
      rw [value_of_finite hx, zpow_add_one₀ two_ne_zero]
      congr 1
      push_cast
      ring

section
variable {K : Type} [Field K] [LinearOrder K] [IsStrictOrderedRing K] {p q : K} {r : ℚ} {n : ℤ}

/-- A magnitude and a rounded one lie between the same powers of two, from the least number on. -/
structure Rounded (q : K) (r : ℚ) : Prop where
  nonneg : 0 ≤ r
  le : ∀ n : ℤ, -1074 ≤ n → q ≤ 2 ^ n → r ≤ 2 ^ n
  ge : ∀ n : ℤ, -1074 ≤ n → 2 ^ n ≤ q → 2 ^ n ≤ r

/-- Between a mantissa and the exact one there is no natural number. -/
theorem le_of_abs_sub_le {N : ℕ} (h : |(m : K) - p| ≤ 1 / 2) : (p ≤ N → m ≤ N) ∧ ((N : K) ≤ p → N ≤ m) := by
  obtain ⟨hlow, hhigh⟩ := abs_le.1 h
  constructor <;> intro hN <;> by_contra hlt
  · have : (N : K) + 1 ≤ m := by exact_mod_cast Nat.succ_le_of_lt (not_le.1 hlt)
    linarith
  · have : (m : K) + 1 ≤ N := by exact_mod_cast Nat.succ_le_of_lt (not_le.1 hlt)
    linarith

omit [LinearOrder K] [IsStrictOrderedRing K] in
theorem zpow_eq_natCast_mul [CharZero K] (h : t ≤ n) : (2 : K) ^ n = ((2 ^ (n - t).toNat : ℕ) : K) * 2 ^ t := by
  push_cast
  rw [← zpow_natCast, ← zpow_add₀ two_ne_zero]
  congr 1
  omega

theorem rounded_of_abs_sub_le (h : |(m : K) - p| ≤ 1 / 2) (hnormal : t = -1074 ∨ 2 ^ 52 ≤ m) :
    Rounded (p * 2 ^ t) (m * 2 ^ t) where
  nonneg := by positivity
  le := by
    intro n hn hle
    obtain htn | hnt := le_or_gt t n
    · rw [zpow_eq_natCast_mul htn] at hle ⊢
      have hp := le_of_mul_le_mul_right hle (by positivity)
      have hm : (m : ℚ) ≤ (2 ^ (n - t).toNat : ℕ) := by exact_mod_cast (le_of_abs_sub_le h).1 hp
      gcongr
    · -- A power below the exponent is far below the mantissa.
      have hm : 2 ^ 52 ≤ m := hnormal.resolve_left (by omega)
      have hm : (2 : K) ≤ m := by exact_mod_cast (by omega : 2 ≤ m)
      have hp : 1 ≤ p := by
        have := (abs_le.1 h).2
        linarith
      have hpow : (2 : K) ^ n < 2 ^ t := zpow_lt_zpow_right₀ one_lt_two hnt
      have hmul : (2 : K) ^ t ≤ p * 2 ^ t := le_mul_of_one_le_left (by positivity) hp
      exact absurd hle (not_le.2 (hpow.trans_le hmul))
  ge := by
    intro n hn hle
    obtain htn | hnt := le_or_gt t n
    · rw [zpow_eq_natCast_mul htn] at hle ⊢
      have hp := le_of_mul_le_mul_right hle (by positivity)
      have hm : ((2 ^ (n - t).toNat : ℕ) : ℚ) ≤ m := by exact_mod_cast (le_of_abs_sub_le h).2 hp
      gcongr
    · have hm : 2 ^ 52 ≤ m := hnormal.resolve_left (by omega)
      have hm : (1 : ℚ) ≤ m := by exact_mod_cast (by omega : 1 ≤ m)
      have hpow : (2 : ℚ) ^ n ≤ 2 ^ t := zpow_le_zpow_right₀ one_le_two hnt.le
      exact hpow.trans (le_mul_of_one_le_left (by positivity) hm)

/-- **What the core library rounds to**, from bits that represent an exact value: a finite number below the range's end,
with the sign given and a rounded magnitude. -/
theorem round_spec {x : Float}
    (hx : x.toModel.unpack = (Float.Model.pack (roundWithAccuracy .binary64 s m e acc)).unpack)
    (hq : Represents (.ofMantissaAndAccuracy m acc) q) (he : e ≤ max (m.log2 + e - 52) (-1074))
    (hlt : q * 2 ^ e ≤ 2 ^ (1022 : ℤ)) : x.isFinite = true ∧ ∃ r, value x = signed s r ∧ Rounded (q * 2 ^ e) r := by
  obtain ⟨t, ht⟩ : ∃ t, t = max (m.log2 + e - 52) (-1074) := ⟨_, rfl⟩
  rw [← ht] at he
  obtain ⟨hlow, hhigh⟩ := cut_mem acc ht he
  rw [roundWithAccuracy_eq ht he] at hx
  have hshifted := hq.shiftRight (t - e).toNat
  generalize ExtendedMantissa.ofMantissaAndAccuracy m acc >>> (t - e).toNat = em at hx hlow hhigh hshifted
  have hmem := roundedMantissa_mem em
  have hnormal : t = -1074 ∨ 2 ^ 52 ≤ em.roundedMantissa := by omega
  have hexact : q * 2 ^ e = q / 2 ^ (t - e).toNat * 2 ^ t := by
    rw [zpow_eq_natCast_mul he, Nat.cast_pow, Nat.cast_two, ← mul_assoc, div_mul_cancel₀ _ (by positivity)]
  have htop : t ≤ 970 := by
    by_contra htop
    have hm : (2 : K) ^ (52 : ℤ) ≤ em.mantissa := by exact_mod_cast hhigh.resolve_left (by omega)
    have hle : (2 : K) ^ (52 : ℤ) * 2 ^ t ≤ 2 ^ (1022 : ℤ) :=
      (mul_le_mul_of_nonneg_right (hm.trans hshifted.mantissa_le.1) (by positivity)).trans (hexact ▸ hlt)
    rw [← zpow_add₀ two_ne_zero] at hle
    have := (zpow_le_zpow_iff_right₀ one_lt_two).1 hle
    omega
  obtain ⟨hfinite, hvalue⟩ := pack_ofRounded hx (by omega) hnormal (by omega) htop
  exact ⟨hfinite, _, hvalue, hexact ▸ rounded_of_abs_sub_le hshifted.abs_roundedMantissa_sub hnormal⟩

end

end Binary
end FlatNtuple
