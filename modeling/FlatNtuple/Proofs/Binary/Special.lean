import FlatNtuple.Proofs.Binary.Value
/-!
# Zeros, infinities and NaN

An operation on numbers works on what the core library unpacks, and packs its result again.  Zeros, infinities and NaN
are not changed by that (`unpack_pack_zero`, `unpack_pack_infinity`, `unpack_pack_nan`), so that what operations on them
give is read off the definitions: NaN spreads, zero times infinity is NaN, and a quotient by zero is NaN or an infinity,
in whose sign that of the zero counts (`div_lt_of_zero`).
-/
namespace FlatNtuple
namespace Binary

open Float.Model (UnpackedFloat)
open Float.Model.UnpackedFloat

theorem unpack_pack_zero (s : Sign) : (Float.Model.pack (.zero s)).unpack = .zero s := by cases s <;> rfl

theorem unpack_pack_infinity (s : Sign) : (Float.Model.pack (.infinity s)).unpack = .infinity s := by cases s <;> rfl

theorem unpack_pack_nan : (Float.Model.pack .notANumber).unpack = .notANumber := rfl

theorem isNaN_pack_nan : (Float.Model.pack .notANumber).unpack.isNaN = true := rfl

/-- A number is made again from what it unpacks to. -/
theorem mk_pack_unpack (x : Float) : (⟨Float.Model.pack x.toModel.unpack⟩ : Float) = x := ofBits_toBits x

section
variable {x y z c : Float}

/-! ## Kinds of numbers -/

theorem isNaN_iff : x.isNaN = true ↔ x.toModel.unpack = .notANumber := by
  change x.toModel.unpack.isNaN = true ↔ _
  cases x.toModel.unpack <;> simp [isNaN]

theorem isInf_iff : x.isInf = true ↔ ∃ s, x.toModel.unpack = .infinity s := by
  change x.toModel.unpack.isInf = true ↔ _
  cases x.toModel.unpack <;> simp [isInf]

/-- There are two infinities. -/
theorem isInf_iff_eq : x.isInf = true ↔ x = infinity ∨ x = -infinity := by
  constructor
  · intro h
    obtain ⟨s, hx⟩ := isInf_iff.1 h
    rw [← mk_pack_unpack x, hx]
    cases s
    · exact .inr (by decide)
    · exact .inl (by decide)
  · rintro (rfl | rfl) <;> decide

theorem isInf_of_not_isFinite (h : x.isFinite = false) (hnan : x.isNaN = false) : x.isInf = true := by
  change x.toModel.unpack.isFinite = false at h
  change x.toModel.unpack.isNaN = false at hnan
  change x.toModel.unpack.isInf = true
  cases hu : x.toModel.unpack with
  | infinity s => rfl
  | notANumber => rw [hu] at hnan; cases hnan
  | zero s => rw [hu] at h; cases h
  | finite s m e hm => rw [hu] at h; cases h

theorem isInf_of_isFinite (h : x.isFinite = true) : x.isInf = false := by
  change x.toModel.unpack.isFinite = true at h
  change x.toModel.unpack.isInf = false
  cases hu : x.toModel.unpack with
  | infinity s => rw [hu] at h; cases h
  | notANumber => rfl
  | zero s => rfl
  | finite s m e hm => rfl

theorem beq_zero_iff : (x == 0) = true ↔ ∃ s, x.toModel.unpack = .zero s := by
  change (x.toModel.unpack.compare (.zero .positive) == some .eq) = true ↔ _
  cases x.toModel.unpack with
  | notANumber => simp [UnpackedFloat.compare]
  | infinity s => cases s <;> simp [UnpackedFloat.compare]
  | zero s => simp [UnpackedFloat.compare]
  | finite s m e hm => cases s <;> simp [UnpackedFloat.compare]

/-- There are two zeros. -/
theorem beq_zero_iff_eq : (x == 0) = true ↔ x = 0 ∨ x = -0 := by
  constructor
  · intro h
    obtain ⟨s, hx⟩ := beq_zero_iff.1 h
    rw [← mk_pack_unpack x, hx]
    cases s
    · exact .inr rfl
    · exact .inl rfl
  · rintro (rfl | rfl) <;> rfl

/-! ## NaN -/

theorem isNaN_mul (h : x.isNaN = true ∨ y.isNaN = true) : (x * y).isNaN = true := by
  change (Float.Model.pack (.mul .binary64 x.toModel.unpack y.toModel.unpack)).unpack.isNaN = true
  obtain h | h := h <;> rw [isNaN_iff.1 h]
  · exact isNaN_pack_nan
  · cases x.toModel.unpack <;> exact isNaN_pack_nan

theorem isNaN_add (h : x.isNaN = true ∨ y.isNaN = true) : (x + y).isNaN = true := by
  change (Float.Model.pack (.add .binary64 x.toModel.unpack y.toModel.unpack)).unpack.isNaN = true
  obtain h | h := h <;> rw [isNaN_iff.1 h]
  · exact isNaN_pack_nan
  · cases x.toModel.unpack <;> exact isNaN_pack_nan

theorem isNaN_sqrt (h : x.isNaN = true) : x.sqrt.isNaN = true := by
  change (Float.Model.pack (.sqrt .binary64 x.toModel.unpack)).unpack.isNaN = true
  rw [isNaN_iff.1 h]
  exact isNaN_pack_nan

/-- Zero stays zero when it is multiplied, or becomes NaN. -/
theorem zero_mul_cases (h : (x == 0) = true) : (x * y == 0) = true ∨ (x * y).isNaN = true := by
  obtain ⟨s, hx⟩ := beq_zero_iff.1 h
  rw [beq_zero_iff]
  change (∃ s', (Float.Model.pack (.mul .binary64 x.toModel.unpack y.toModel.unpack)).unpack = .zero s') ∨
    (Float.Model.pack (.mul .binary64 x.toModel.unpack y.toModel.unpack)).unpack.isNaN = true
  rw [hx]
  cases y.toModel.unpack with
  | notANumber => exact .inr isNaN_pack_nan
  | infinity s' => exact .inr isNaN_pack_nan
  | zero s' => exact .inl ⟨_, unpack_pack_zero _⟩
  | finite s' m e hm => exact .inl ⟨_, unpack_pack_zero _⟩

theorem isNaN_zero_mul_infinity (hx : (x == 0) = true) (hy : y.isInf = true) : (x * y).isNaN = true := by
  obtain ⟨s, hx⟩ := beq_zero_iff.1 hx
  obtain ⟨s', hy⟩ := isInf_iff.1 hy
  change (Float.Model.pack (.mul .binary64 x.toModel.unpack y.toModel.unpack)).unpack.isNaN = true
  rw [hx, hy]
  exact isNaN_pack_nan

/-- A factor that is infinite or NaN makes the product so. -/
theorem isFinite_of_mul (h : (x * y).isFinite = true) : y.isFinite = true := by
  change (Float.Model.pack (.mul .binary64 x.toModel.unpack y.toModel.unpack)).unpack.isFinite = true at h
  change y.toModel.unpack.isFinite = true
  have hnan : (Float.Model.pack .notANumber).unpack.isFinite ≠ true := Bool.false_ne_true
  have hinfinity (s : Sign) : (Float.Model.pack (.infinity s)).unpack.isFinite ≠ true := by
    rw [unpack_pack_infinity]
    exact Bool.false_ne_true
  cases hy : y.toModel.unpack with
  | zero s => rfl
  | finite s m e hm => rfl
  | notANumber =>
    rw [hy] at h
    cases hx : x.toModel.unpack <;> rw [hx] at h <;> exact absurd h hnan
  | infinity s =>
    rw [hy] at h
    cases hx : x.toModel.unpack with
    | notANumber | zero => rw [hx] at h; exact absurd h hnan
    | infinity | finite => rw [hx] at h; exact absurd h (hinfinity _)

/-! ## Quotients by zero -/

theorem lt_iff_compare : x < y ↔ x.toModel.unpack.compare y.toModel.unpack = some .lt := by
  rw [← beq_iff_eq]
  exact decide_eq_true_iff

/-- The sign of an unpacked number that is greater or less than zero. -/
def signOf? : UnpackedFloat → Option Sign
  | .infinity s => some s
  | .finite s _ _ _ => some s
  | .zero _ => none
  | .notANumber => none

theorem neg_iff : x < 0 ↔ signOf? x.toModel.unpack = some .negative := by
  rw [lt_iff_compare]
  change x.toModel.unpack.compare (.zero .positive) = some .lt ↔ _
  cases x.toModel.unpack with
  | infinity s => cases s <;> simp [signOf?, UnpackedFloat.compare]
  | finite s m e hm => cases s <;> simp [signOf?, UnpackedFloat.compare]
  | zero s => simp [signOf?, UnpackedFloat.compare]
  | notANumber => simp [signOf?, UnpackedFloat.compare]

theorem pos_iff : 0 < x ↔ signOf? x.toModel.unpack = some .positive := by
  rw [lt_iff_compare]
  change (UnpackedFloat.zero .positive).compare x.toModel.unpack = some .lt ↔ _
  cases x.toModel.unpack with
  | infinity s => cases s <;> simp [signOf?, UnpackedFloat.compare]
  | finite s m e hm => cases s <;> simp [signOf?, UnpackedFloat.compare]
  | zero s => simp [signOf?, UnpackedFloat.compare]
  | notANumber => simp [signOf?, UnpackedFloat.compare]

theorem unpack_div_zero {s : Sign} (hz : z.toModel.unpack = .zero s) :
    (x / z).toModel.unpack = (signOf? x.toModel.unpack).elim .notANumber fun s' => .infinity (s' / s) := by
  change (Float.Model.pack (.div .binary64 x.toModel.unpack z.toModel.unpack)).unpack = _
  rw [hz]
  cases x.toModel.unpack with
  | notANumber => exact unpack_pack_nan
  | infinity s' => exact unpack_pack_infinity _
  | zero s' => exact unpack_pack_nan
  | finite s' m e hm => exact unpack_pack_infinity _

/-- Of the infinities, the negative one is below the positive numbers. -/
theorem infinity_lt_iff {s : Sign} (hx : x.toModel.unpack = .infinity s) (hc : 0 < c) : x < c ↔ s = .negative := by
  rw [pos_iff] at hc
  rw [lt_iff_compare, hx]
  generalize c.toModel.unpack = u at hc
  cases u with
  | infinity s' =>
    cases hc
    cases s
    · exact iff_of_true rfl rfl
    · exact iff_of_false (by decide) nofun
  | finite s' m e hm => cases hc; cases s <;> simp [UnpackedFloat.compare]
  | zero s' => cases hc
  | notANumber => cases hc

/-- Whether a number has a sign, and not that of the zero `z`. -/
def Opposes (z x : Float) : Prop := if totalRank z < 0 then 0 < x else x < 0

instance (z x : Float) : Decidable (Opposes z x) :=
  inferInstanceAs (Decidable (if totalRank z < 0 then 0 < x else x < 0))

/-- **A quotient by zero is below a positive number if its sides have different signs.**  It is minus infinity then, and
NaN or infinity otherwise. -/
theorem div_lt_of_zero (hz : (z == 0) = true) (hc : 0 < c) : x / z < c ↔ Opposes z x := by
  have hlt : ∀ s, z.toModel.unpack = .zero s →
      (x / z < c ↔ ∃ s', signOf? x.toModel.unpack = some s' ∧ s' / s = .negative) := by
    intro s hs
    have hquotient := unpack_div_zero (x := x) hs
    cases hsign : signOf? x.toModel.unpack with
    | none =>
      rw [hsign] at hquotient
      rw [lt_iff, isNaN_iff.2 hquotient]
      simp
    | some s' =>
      rw [hsign] at hquotient
      rw [infinity_lt_iff hquotient hc]
      simp
  obtain rfl | rfl := beq_zero_iff_eq.1 hz
  · rw [hlt .positive rfl, Opposes, if_neg (by decide), neg_iff]
    constructor
    · rintro ⟨_ | _, hsign, hs⟩
      · exact hsign
      · cases hs
    · exact fun h => ⟨_, h, rfl⟩
  · rw [hlt .negative rfl, Opposes, if_pos (by decide), pos_iff]
    constructor
    · rintro ⟨_ | _, hsign, hs⟩
      · cases hs
      · exact hsign
    · exact fun h => ⟨_, h, rfl⟩

end

end Binary
end FlatNtuple
