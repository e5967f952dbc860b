import FlatNtuple.Proofs.Binary.Pattern
/-!
# Numbers in order

The order of numbers is that of their patterns, with the sign of the number before the magnitude bits (`lt_iff`,
`le_iff`): NaN is beside it, and all other numbers are in line.  The ranks that tell `-0.0` from `0.0` grow with it
(`totalRank_lt`).
-/
namespace FlatNtuple
namespace Binary

open Float.Model (UnpackedFloat)
open Float.Model.UnpackedFloat

/-! ## What the core library unpacks -/

def isNegative : Sign → Bool
  | .negative => true
  | .positive => false

/-- What an unpacked number stands for. -/
def Decoded.ofUnpacked (least : ℤ) : UnpackedFloat → Decoded
  | .notANumber => .nan
  | .infinity s => .infinite (isNegative s)
  | .zero s => .finite (isNegative s) 0 least
  | .finite s m e _ => .finite (isNegative s) m e

theorem isNegative_ofBitVec (s : BitVec 1) : isNegative (Sign.ofBitVec s) = decide (s.toNat = 1) := by
  revert s
  decide

section
variable {spec : Float.Model.Format} (b : BitVec spec.numBits)

theorem toNat_unpackExponent : (unpackExponent b).toNat =
    b.toNat / 2 ^ spec.mantissaBitsWithoutImplicit % 2 ^ spec.exponentBits := by
  have he := spec.he
  rw [unpackExponent, BitVec.toNat_cast, BitVec.extractLsb_toNat, Nat.shiftRight_eq_div_pow]
  congr 2
  omega

theorem toNat_unpackMantissa : (unpackMantissa b).toNat = b.toNat % 2 ^ spec.mantissaBitsWithoutImplicit := by
  have hm := spec.hm
  rw [unpackMantissa, BitVec.toNat_cast, BitVec.extractLsb_toNat, Nat.shiftRight_zero]
  congr 2
  omega

theorem toNat_unpackSign : (unpackSign b).toNat =
    b.toNat / 2 ^ (spec.mantissaBitsWithoutImplicit + spec.exponentBits) % 2 := by
  rw [unpackSign, BitVec.toNat_cast, BitVec.extractLsb_toNat, Nat.shiftRight_eq_div_pow, Nat.sub_self, Nat.zero_add,
    pow_one]

/-- **Patterns are read alike here and in the core library.** -/
theorem decode_toNat : (⟨spec.mantissaBitsWithoutImplicit, spec.exponentBits⟩ : Format).decode b.toNat =
    .ofUnpacked (⟨spec.mantissaBitsWithoutImplicit, spec.exponentBits⟩ : Format).leastExponent (unpack spec b) := by
  have htop : b.toNat / 2 ^ spec.mantissaBitsWithoutImplicit % 2 ^ spec.exponentBits = 2 ^ spec.exponentBits - 1 ↔
      unpackExponent b = -1#_ := by
    rw [← BitVec.toNat_inj, toNat_unpackExponent, BitVec.neg_one_eq_allOnes, BitVec.toNat_allOnes]
  have hleast : b.toNat / 2 ^ spec.mantissaBitsWithoutImplicit % 2 ^ spec.exponentBits = 0 ↔
      unpackExponent b = 0#_ := by
    rw [← BitVec.toNat_inj, toNat_unpackExponent, BitVec.toNat_ofNat, Nat.zero_mod]
  have hzero : b.toNat % 2 ^ spec.mantissaBitsWithoutImplicit = 0 ↔ unpackMantissa b = 0#_ := by
    rw [← BitVec.toNat_inj, toNat_unpackMantissa, BitVec.toNat_ofNat, Nat.zero_mod]
  have hnegative : b.toNat / 2 ^ (spec.mantissaBitsWithoutImplicit + spec.exponentBits) % 2 = 1 ↔
      isNegative (Sign.ofBitVec (unpackSign b)) = true := by
    rw [isNegative_ofBitVec, toNat_unpackSign, decide_eq_true_iff]
  have hexponent : (⟨spec.mantissaBitsWithoutImplicit, spec.exponentBits⟩ : Format).leastExponent =
      1 - (spec.exponentBias + spec.mantissaBitsWithoutImplicit : ℤ) := by
    rw [Format.leastExponent, sub_sub]
    rfl
  unfold Format.decode unpack
  simp only [Format.topField, Format.signWeight, hnegative, htop, hleast, hzero, Bool.decide_eq_true]
  split
  · split <;> rfl
  · split
    · split
      · rename_i hfraction
        rw [hzero.2 hfraction]
        rfl
      · rename_i hfield hfraction
        rw [← toNat_unpackMantissa, Decoded.ofUnpacked, hexponent, hfield, BitVec.toNat_ofNat, Nat.zero_mod]
        congr 1
        omega
    · rw [← toNat_unpackMantissa, ← toNat_unpackExponent, Decoded.ofUnpacked, hexponent, toNat_hidden_append]
      congr 1
      omega

end

theorem ofFloat_eq (x : Float) : ofFloat x = .ofUnpacked binary64.leastExponent x.toModel.unpack :=
  @decode_toNat .binary64 x.toBits.toBitVec

theorem ofFloat32_eq (x : Float32) : ofFloat32 x = .ofUnpacked binary32.leastExponent x.toModel.unpack :=
  @decode_toNat .binary32 x.toBits.toBitVec

/-- A finite number of 32 bits, by its sign, mantissa and exponent. -/
theorem exists_of_isFinite_float32 {x : Float32} (h : x.isFinite = true) :
    ∃ s m e, ofFloat32 x = .finite s m e ∧ binary32.Canonical m e := by
  have hfinite : x.isFinite = x.toModel.unpack.isFinite := rfl
  rw [hfinite] at h
  obtain ⟨s, m, e, hx⟩ : ∃ s m e, ofFloat32 x = .finite s m e := by
    rw [ofFloat32_eq]
    cases hu : x.toModel.unpack with
    | notANumber | infinity => rw [hu] at h; cases h
    | zero | finite => exact ⟨_, _, _, rfl⟩
  exact ⟨s, m, e, hx, (Format.decode_eq_finite x.toBits.toNat_lt hx).1⟩

/-! ## Patterns with a sign -/

namespace Format
variable {F : Format} {bits m m' : ℕ} {e e' : ℤ} {s : Bool}

theorem decode_eq_infinite (hbits : bits < 2 * F.signWeight) (h : F.decode bits = .infinite s) :
    bits = F.withSign s (F.topField * 2 ^ F.fractionBits) := by
  have hpattern := eq_withSign hbits
  unfold decode at h
  simp only at h
  split at h
  · rename_i hfield
    split at h
    · rename_i hfraction
      cases h
      rw [hfield, hfraction, Nat.add_zero] at hpattern
      exact hpattern
    · cases h
  · split at h <;> cases h

theorem pattern_lt_of_lt (hc : F.Canonical m e) (hc' : F.Canonical m' e') (h : e < e') :
    F.pattern m e < F.pattern m' e' := by
  have hleast := hc.least
  have hlt := hc.lt
  have hnormal := hc'.normal (hleast.trans_lt h)
  have hsteps := Nat.mul_le_mul_right (2 ^ F.fractionBits)
    (show (e - F.leastExponent).toNat + 1 ≤ (e' - F.leastExponent).toNat by omega)
  rw [Nat.succ_mul] at hsteps
  rw [Nat.pow_succ] at hlt
  unfold pattern
  omega

/-- **Patterns are in the order of the exponents, and of the mantissas beside the same exponent.** -/
theorem compare_pattern (hc : F.Canonical m e) (hc' : F.Canonical m' e') :
    (compare e e').then (compare m m') = compare (F.pattern m e) (F.pattern m' e') := by
  obtain h | rfl | h := lt_trichotomy e e'
  · rw [compare_lt_iff_lt.2 h, compare_lt_iff_lt.2 (pattern_lt_of_lt hc hc' h)]
    rfl
  · rw [compare_eq_iff_eq.2 rfl]
    rw [Ordering.eq_then, pattern, pattern, ← cmp_eq_compare, ← cmp_eq_compare, cmp_add_left]
  · rw [compare_gt_iff_gt.2 h, compare_gt_iff_gt.2 (pattern_lt_of_lt hc' hc h)]
    rfl

end Format

/-- The pattern of a number as a number with a sign, zero for both zeros. -/
def signedPattern (x : Float) : ℤ :=
  let bits := x.toBits.toNat
  if bits < binary64.signWeight then bits else binary64.signWeight - bits

/-- The pattern of infinity. -/
def infinityPattern : ℕ := binary64.topField * 2 ^ binary64.fractionBits

theorem signedPattern_of_withSign {x : Float} {s : Sign} {p : ℕ} (hp : p < binary64.signWeight)
    (h : x.toBits.toNat = binary64.withSign (isNegative s) p) : signedPattern x = s.apply p := by
  unfold signedPattern
  rw [h]
  cases s <;> simp only [isNegative, Format.withSign, Bool.false_eq_true, if_true, if_false, Sign.apply]
  · rw [if_neg (by omega)]
    push_cast
    omega
  · rw [if_pos hp]

theorem signedPattern_spec (x : Float) :
    match x.toModel.unpack with
    | .notANumber => True
    | .infinity s => signedPattern x = s.apply infinityPattern
    | .zero _ => signedPattern x = 0
    | .finite s m e _ => binary64.Canonical m e ∧ binary64.pattern m e < infinityPattern ∧
        signedPattern x = s.apply (binary64.pattern m e) := by
  have hbits : x.toBits.toNat < 2 * binary64.signWeight := x.toBits.toNat_lt
  have hdecode : binary64.decode x.toBits.toNat = _ := ofFloat_eq x
  have hinfinity : infinityPattern < binary64.signWeight := by decide
  cases hu : x.toModel.unpack with
  | notANumber => trivial
  | infinity s =>
    rw [hu] at hdecode
    exact signedPattern_of_withSign hinfinity (Format.decode_eq_infinite hbits hdecode)
  | zero s =>
    rw [hu] at hdecode
    obtain ⟨-, hpattern, hlt⟩ := Format.decode_eq_finite hbits hdecode
    have hzero : binary64.pattern 0 binary64.leastExponent = 0 := by decide
    change signedPattern x = 0
    rw [signedPattern_of_withSign (hlt.trans hinfinity) hpattern, hzero]
    cases s <;> rfl
  | finite s m e hm =>
    rw [hu] at hdecode
    obtain ⟨hcanonical, hpattern, hlt⟩ := Format.decode_eq_finite hbits hdecode
    exact ⟨hcanonical, hlt, signedPattern_of_withSign (hlt.trans hinfinity) hpattern⟩

theorem compare_of_lt {a b : ℤ} (h : a < b) : some Ordering.lt = some (compare a b) := by rw [compare_lt_iff_lt.2 h]

theorem compare_of_gt {a b : ℤ} (h : b < a) : some Ordering.gt = some (compare a b) := by rw [compare_gt_iff_gt.2 h]

theorem compare_of_eq {a b : ℤ} (h : a = b) : some Ordering.eq = some (compare a b) := by rw [compare_eq_iff_eq.2 h]

/-- Numbers of one sign are in the order of their patterns, or the other way around. -/
theorem compare_apply (s : Sign) (p p' : ℕ) : compare (s.apply p) (s.apply p') =
    match s with
    | .positive => compare p p'
    | .negative => (compare p p').swap := by
  cases s <;> simp only [Sign.apply] <;> obtain h | h | h := lt_trichotomy p p'
  · rw [compare_lt_iff_lt.2 h, compare_gt_iff_gt.2 (by omega)]
    rfl
  · rw [compare_eq_iff_eq.2 h, compare_eq_iff_eq.2 (by omega)]
    rfl
  · rw [compare_gt_iff_gt.2 h, compare_lt_iff_lt.2 (by omega)]
    rfl
  · rw [compare_lt_iff_lt.2 h, compare_lt_iff_lt.2 (by omega)]
  · rw [compare_eq_iff_eq.2 h, compare_eq_iff_eq.2 (by omega)]
  · rw [compare_gt_iff_gt.2 h, compare_gt_iff_gt.2 (by omega)]

theorem compare_finite {s s' : Sign} {m m' : ℕ} {e e' : ℤ} (hm : 0 < m) (hm' : 0 < m') (hc : binary64.Canonical m e)
    (hc' : binary64.Canonical m' e') : (finite s m e hm).compare (finite s' m' e' hm') =
      some (compare (s.apply (binary64.pattern m e)) (s'.apply (binary64.pattern m' e'))) := by
  have hpattern : m ≤ binary64.pattern m e := Nat.le_add_left _ _
  have hpattern' : m' ≤ binary64.pattern m' e' := Nat.le_add_left _ _
  cases s <;> cases s'
  case negative.negative => rw [compare_apply, ← Format.compare_pattern hc hc']; rfl
  case positive.positive => rw [compare_apply, ← Format.compare_pattern hc hc']; rfl
  case negative.positive => exact compare_of_lt (by simp only [Sign.apply]; omega)
  case positive.negative => exact compare_of_gt (by simp only [Sign.apply]; omega)

theorem compare_infinity (s s' : Sign) : (UnpackedFloat.infinity s).compare (.infinity s') =
    some (compare (s.apply infinityPattern) (s'.apply infinityPattern)) := by
  cases s <;> cases s'
  case negative.negative => exact compare_of_eq rfl
  case positive.positive => exact compare_of_eq rfl
  case negative.positive => exact compare_of_lt (by decide)
  case positive.negative => exact compare_of_gt (by decide)

theorem apply_between (s : Sign) {p q : ℕ} (h : p < q) : -(q : ℤ) < s.apply p ∧ s.apply p < q := by
  cases s <;> simp only [Sign.apply] <;> omega

/-- **The core library compares numbers by their patterns**, and NaN not at all. -/
theorem compare_unpack (x y : Float) : x.toModel.unpack.compare y.toModel.unpack =
    if x.isNaN || y.isNaN then none else some (compare (signedPattern x) (signedPattern y)) := by
  have hx := signedPattern_spec x
  have hy := signedPattern_spec y
  have hnanx : x.isNaN = x.toModel.unpack.isNaN := rfl
  have hnany : y.isNaN = y.toModel.unpack.isNaN := rfl
  have hinfinity : (0 : ℤ) < infinityPattern := by decide
  rw [hnanx, hnany]
  generalize x.toModel.unpack = u at hx ⊢
  generalize y.toModel.unpack = v at hy ⊢
  -- Of two numbers of different kinds, the sign of the greater magnitude decides.
  cases u with
  | notANumber => rfl
  | infinity s =>
    cases v with
    | notANumber => cases s <;> rfl
    | infinity s' =>
      rw [hx, hy]
      exact compare_infinity s s'
    | zero s' =>
      cases s <;> simp only [Sign.apply] at hx hy
      case negative => exact compare_of_lt (by omega)
      case positive => exact compare_of_gt (by omega)
    | finite s' m' e' hm' =>
      obtain ⟨-, hlt, hy⟩ := hy
      have hbetween := apply_between s' hlt
      cases s <;> simp only [Sign.apply] at hx
      case negative => exact compare_of_lt (by omega)
      case positive => exact compare_of_gt (by omega)
  | zero s =>
    cases v with
    | notANumber => rfl
    | infinity s' =>
      cases s' <;> simp only [Sign.apply] at hx hy
      case negative => exact compare_of_gt (by omega)
      case positive => exact compare_of_lt (by omega)
    | zero s' => exact compare_of_eq (hx.trans hy.symm)
    | finite s' m' e' hm' =>
      obtain ⟨-, -, hy⟩ := hy
      have hpattern : m' ≤ binary64.pattern m' e' := Nat.le_add_left _ _
      cases s' <;> simp only [Sign.apply] at hx hy
      case negative => exact compare_of_gt (by omega)
      case positive => exact compare_of_lt (by omega)
  | finite s m e hm =>
    obtain ⟨hcanonical, hlt, hx⟩ := hx
    have hbetween := apply_between s hlt
    have hpattern : m ≤ binary64.pattern m e := Nat.le_add_left _ _
    cases v with
    | notANumber => rfl
    | infinity s' =>
      cases s' <;> simp only [Sign.apply] at hy
      case negative => cases s <;> exact compare_of_gt (by omega)
      case positive => cases s <;> exact compare_of_lt (by omega)
    | zero s' =>
      cases s <;> simp only [Sign.apply] at hx hy
      case negative => exact compare_of_lt (by omega)
      case positive => exact compare_of_gt (by omega)
    | finite s' m' e' hm' =>
      obtain ⟨hcanonical', -, hy⟩ := hy
      rw [hx, hy]
      exact compare_finite hm hm' hcanonical hcanonical'

/-! ## The order -/

theorem lt_iff {x y : Float} : x < y ↔ x.isNaN = false ∧ y.isNaN = false ∧ signedPattern x < signedPattern y := by
  have hlt : x < y ↔ (x.toModel.unpack.compare y.toModel.unpack == some .lt) = true := decide_eq_true_iff
  rw [hlt, compare_unpack, beq_iff_eq]
  cases x.isNaN <;> cases y.isNaN <;> simp [compare_lt_iff_lt]

theorem le_iff {x y : Float} : x ≤ y ↔ x.isNaN = false ∧ y.isNaN = false ∧ signedPattern x ≤ signedPattern y := by
  have hle : x ≤ y ↔ (x.toModel.unpack.compare y.toModel.unpack).any Ordering.isLE = true := decide_eq_true_iff
  rw [hle, compare_unpack]
  cases x.isNaN <;> cases y.isNaN <;> simp [Ordering.isLE_iff_ne_gt, compare_gt_iff_gt]

section
variable {x y z : Float}

theorem lt_trans (h : x < y) (h' : y < z) : x < z := by
  rw [lt_iff] at h h' ⊢
  exact ⟨h.1, h'.2.1, h.2.2.trans h'.2.2⟩

theorem le_of_lt (h : x < y) : x ≤ y := by
  rw [lt_iff] at h
  rw [le_iff]
  exact ⟨h.1, h.2.1, h.2.2.le⟩

theorem lt_of_lt_of_le (h : x < y) (h' : y ≤ z) : x < z := by
  rw [lt_iff] at h ⊢
  rw [le_iff] at h'
  exact ⟨h.1, h'.2.1, h.2.2.trans_le h'.2.2⟩

theorem lt_of_le_of_lt (h : x ≤ y) (h' : y < z) : x < z := by
  rw [le_iff] at h
  rw [lt_iff] at h' ⊢
  exact ⟨h.1, h'.2.1, h.2.2.trans_lt h'.2.2⟩

theorem le_trans (h : x ≤ y) (h' : y ≤ z) : x ≤ z := by
  rw [le_iff] at h h' ⊢
  exact ⟨h.1, h'.2.1, h.2.2.trans h'.2.2⟩

theorem not_lt_of_le (h : x ≤ y) : ¬y < x := by
  rw [le_iff] at h
  rw [lt_iff]
  exact fun h' => not_lt_of_ge h.2.2 h'.2.2

/-- The order is total but for NaN. -/
theorem le_of_not_lt (hx : x.isNaN = false) (hy : y.isNaN = false) (h : ¬y < x) : x ≤ y := by
  rw [lt_iff] at h
  exact le_iff.2 ⟨hx, hy, not_lt.1 fun hlt => h ⟨hy, hx, hlt⟩⟩

theorem lt_iff_not_le (hx : x.isNaN = false) (hy : y.isNaN = false) : x < y ↔ ¬y ≤ x := by
  rw [lt_iff, le_iff, not_and, not_and, not_le]
  exact ⟨fun h _ _ => h.2.2, fun h => ⟨hx, hy, h hy hx⟩⟩

end

/-- **The ranks grow with the numbers.** -/
theorem totalRank_lt {x y : Float} (h : x < y) : totalRank x < totalRank y := by
  have hpatterns := (lt_iff.1 h).2.2
  unfold signedPattern at hpatterns
  unfold totalRank
  simp only at hpatterns ⊢
  split at hpatterns <;> split at hpatterns <;> split <;> omega

end Binary
end FlatNtuple
