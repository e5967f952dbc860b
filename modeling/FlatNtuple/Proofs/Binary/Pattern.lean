import FlatNtuple.Binary.Convert
import FlatNtuple.Proofs.Binary.Nearest
/-!
# Numbers and their bit patterns

A number is made again from its bits (`ofBits_toBits`), and the bits of a finite one are its sign, its exponent and its
mantissa one behind the other (`decode_eq_finite`).
-/
namespace FlatNtuple
namespace Binary

/-! ## Packing -/

section
open Float.Model.UnpackedFloat
variable {spec : Float.Model.Format} {b : BitVec spec.numBits}

theorem toBitVec_ofBitVec (s : BitVec 1) : (Sign.ofBitVec s).toBitVec = s := by revert s; decide

/-- The three fields make up the pattern. -/
theorem packComponents_fields :
    packComponents spec (Sign.ofBitVec (unpackSign b)) (unpackExponent b) (unpackMantissa b) = b := by
  have hm := spec.hm
  have he := spec.he
  have hbits : spec.numBits = 1 + spec.exponentBits + spec.mantissaBitsWithoutImplicit := rfl
  refine BitVec.eq_of_getLsbD_eq fun i hi => ?_
  simp only [packComponents, toBitVec_ofBitVec, unpackSign, unpackExponent, unpackMantissa, BitVec.getLsbD_append,
    BitVec.getLsbD_cast, BitVec.getLsbD_extractLsb]
  split
  · rw [decide_eq_true (by omega), Bool.true_and, Nat.zero_add]
  · split
    · rw [decide_eq_true (by omega), Bool.true_and]
      congr 1
      omega
    · rw [decide_eq_true (by omega), Bool.true_and]
      congr 1
      omega

theorem packComponents_of_fields {e : BitVec spec.exponentBits} {m : BitVec spec.mantissaBitsWithoutImplicit}
    (he : unpackExponent b = e) (hm : unpackMantissa b = m) :
    packComponents spec (Sign.ofBitVec (unpackSign b)) e m = b := by
  rw [← he, ← hm, packComponents_fields]

/-- The hidden bit of a normal mantissa. -/
theorem toNat_hidden_append {n : ℕ} (m : BitVec n) : (1#1 ++ m).toNat = 2 ^ n + m.toNat := by
  rw [BitVec.toNat_append, ← Nat.shiftLeft_add_eq_or_of_lt m.isLt, Nat.shiftLeft_eq, BitVec.toNat_ofNat]
  simp

theorem pack_unpack (h : spec.Valid b) (he : 1 < spec.exponentBits) : pack spec (unpack spec b) = b := by
  have hwide : 2 ^ 2 ≤ 2 ^ spec.exponentBits := Nat.pow_le_pow_right (by omega) he
  have hfield := (unpackExponent b).isLt
  have hfraction := (unpackMantissa b).isLt
  unfold unpack
  simp only
  split
  · rename_i hones
    split
    · rename_i hzero
      exact packComponents_of_fields hones hzero
    · rename_i hpayload
      exact (h.eq_packedNaN hones hpayload).symm
  · rename_i hones
    split
    · rename_i hleast
      split
      · rename_i hzero
        exact packComponents_of_fields hleast hzero
      · -- subnormal: the mantissa does not reach the hidden bit
        rename_i hzero
        have hlog : ¬ (unpackMantissa b).toNat.log2 + 1 = spec.mantissaBits := by
          intro h
          have hne : (unpackMantissa b).toNat ≠ 0 := fun h => hzero (BitVec.toNat_inj.1 (by rw [h]; rfl))
          have := Nat.log2_lt hne |>.2 hfraction
          unfold Float.Model.Format.mantissaBits at h
          omega
        have hbiased : ((unpackExponent b).toNat - (spec.exponentBias + spec.mantissaBitsWithoutImplicit : ℤ) + 1 +
            spec.exponentBias + spec.mantissaBitsWithoutImplicit).toNat = 1 := by
          rw [hleast, BitVec.toNat_ofNat, Nat.zero_mod]; omega
        simp only [pack, hbiased, if_neg hlog]
        rw [if_neg (by omega), BitVec.ofNat_toNat, BitVec.setWidth_eq]
        exact packComponents_of_fields hleast rfl
    · rename_i hnormal
      have hmantissa : (1#1 ++ unpackMantissa b).toNat =
          2 ^ spec.mantissaBitsWithoutImplicit + (unpackMantissa b).toNat := toNat_hidden_append _
      have hlog : (1#1 ++ unpackMantissa b).toNat.log2 + 1 = spec.mantissaBits := by
        rw [hmantissa, (Nat.log2_eq_iff (by omega)).2 ⟨Nat.le_add_right _ _, by rw [Nat.pow_succ]; omega⟩]
        exact Nat.add_comm _ _
      have hbiased : ((unpackExponent b).toNat - (spec.exponentBias + spec.mantissaBitsWithoutImplicit : ℤ) +
          spec.exponentBias + spec.mantissaBitsWithoutImplicit).toNat = (unpackExponent b).toNat := by omega
      have hfinite : ¬ 2 ^ spec.exponentBits ≤ (unpackExponent b).toNat + 1 := by
        intro h
        refine hones (BitVec.toNat_inj.1 ?_)
        rw [BitVec.neg_one_eq_allOnes, BitVec.toNat_allOnes]
        omega
      simp only [pack, hbiased, if_neg hfinite, if_pos hlog]
      refine packComponents_of_fields ?_ ?_
      · rw [BitVec.ofNat_toNat, BitVec.setWidth_eq]
      · rw [hmantissa, ← BitVec.toNat_inj, BitVec.toNat_ofNat, Nat.add_mod_left, Nat.mod_eq_of_lt hfraction]

end

/-- A number is made again from its bits. -/
theorem ofBits_toBits (x : Float) : Float.ofBits x.toBits = x := by
  obtain ⟨bits, hvalid⟩ := x
  have hpack := pack_unpack hvalid (by decide)
  simp only [Float.ofBits, Float.toBits, Float.Model.ofBits, Float.Model.pack, hpack]

/-! ## Fields of a pattern -/

namespace Format
variable {F : Format} {bits m : ℕ} {e : ℤ} {s : Bool}

/-- A pattern is its sign, its field and its fraction, each in its place. -/
theorem eq_withSign (hbits : bits < 2 * F.signWeight) :
    bits = F.withSign (decide (bits / F.signWeight % 2 = 1))
      (bits / 2 ^ F.fractionBits % 2 ^ F.exponentBits * 2 ^ F.fractionBits + bits % 2 ^ F.fractionBits) := by
  have hfraction := Nat.div_add_mod bits (2 ^ F.fractionBits)
  have hfield := Nat.div_add_mod (bits / 2 ^ F.fractionBits) (2 ^ F.exponentBits)
  have hsign : bits / 2 ^ F.fractionBits / 2 ^ F.exponentBits = bits / F.signWeight := by
    rw [Nat.div_div_eq_div_mul, ← Nat.pow_add, signWeight]
  have hlt : bits / F.signWeight < 2 := (Nat.div_lt_iff_lt_mul (Nat.two_pow_pos _)).2 hbits
  rw [hsign] at hfield
  generalize bits / F.signWeight = sign at hfield hlt ⊢
  have hbits' : bits = sign * F.signWeight +
      (bits / 2 ^ F.fractionBits % 2 ^ F.exponentBits * 2 ^ F.fractionBits + bits % 2 ^ F.fractionBits) := calc
    bits = 2 ^ F.fractionBits * (2 ^ F.exponentBits * sign + bits / 2 ^ F.fractionBits % 2 ^ F.exponentBits) +
        bits % 2 ^ F.fractionBits := by rw [hfield, hfraction]
    _ = _ := by rw [signWeight, Nat.pow_add]; ring
  obtain rfl | rfl : sign = 0 ∨ sign = 1 := by omega
  · simpa [withSign] using hbits'
  · simpa [withSign] using hbits'

/-- The bits of a finite number, by its mantissa and exponent. -/
theorem decode_eq_finite (hbits : bits < 2 * F.signWeight) (h : F.decode bits = .finite s m e) :
    F.Canonical m e ∧ bits = F.withSign s (F.pattern m e) ∧ F.pattern m e < F.topField * 2 ^ F.fractionBits := by
  have hpattern := eq_withSign hbits
  have hfield : bits / 2 ^ F.fractionBits % 2 ^ F.exponentBits < 2 ^ F.exponentBits := Nat.mod_lt _ (Nat.two_pow_pos _)
  have hfraction : bits % 2 ^ F.fractionBits < 2 ^ F.fractionBits := Nat.mod_lt _ (Nat.two_pow_pos _)
  have htop : F.topField + 1 = 2 ^ F.exponentBits := Nat.sub_add_cancel (Nat.two_pow_pos _)
  have hdouble : 2 ^ (F.fractionBits + 1) = 2 * 2 ^ F.fractionBits := by rw [Nat.pow_succ, Nat.mul_comm]
  unfold decode at h
  generalize bits / 2 ^ F.fractionBits % 2 ^ F.exponentBits = field at *
  generalize bits % 2 ^ F.fractionBits = fraction at *
  have hless : field ≠ F.topField → field * 2 ^ F.fractionBits + fraction < F.topField * 2 ^ F.fractionBits := by
    intro hne
    have := Nat.mul_le_mul_right (2 ^ F.fractionBits) (show field + 1 ≤ F.topField by omega)
    rw [Nat.succ_mul] at this
    omega
  simp only at h
  split at h
  · split at h <;> cases h
  · rename_i hne
    split at h
    · rename_i hzero
      cases h
      subst hzero
      refine ⟨⟨le_refl _, by omega, fun h => absurd h (lt_irrefl _)⟩, ?_, ?_⟩
      · rw [pattern, sub_self]
        simpa using hpattern
      · rw [pattern, sub_self]
        simpa using hless hne
    · rename_i hnormal
      cases h
      have heq : F.pattern (2 ^ F.fractionBits + fraction) (F.leastExponent + (field - 1)) =
          field * 2 ^ F.fractionBits + fraction := by
        obtain ⟨j, rfl⟩ := Nat.exists_eq_succ_of_ne_zero hnormal
        rw [pattern, show F.leastExponent + ((j.succ : ℕ) - 1 : ℤ) - F.leastExponent = (j : ℤ) by push_cast; ring,
          Int.toNat_natCast, Nat.succ_mul]
        omega
      refine ⟨⟨by omega, by omega, fun _ => Nat.le_add_right _ _⟩, ?_, ?_⟩
      · rw [heq]
        exact hpattern
      · rw [heq]
        exact hless hne

end Format

end Binary
end FlatNtuple
