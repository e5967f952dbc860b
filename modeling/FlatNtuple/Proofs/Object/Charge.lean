import FlatNtuple.Object.Particle
import Mathlib
/-!
# The charge of a composite

Charges are added in 32 bits, daughter by daughter.  If no sum on the way leaves the range, the charge of a composite is
the total of the particles at its leaves; otherwise it has none, even where the total is in the range again
(`Composite.charge_exact_iff`).  That takes charges whose sizes add up to `2 ^ 31` at least.
-/
namespace FlatNtuple

/-- An integer has 32 bits. -/
def FitsInt32 (n : ℤ) : Prop := -2 ^ 31 ≤ n ∧ n < 2 ^ 31

theorem toInt_ofInt_eq_iff {n : ℤ} : (Int32.ofInt n).toInt = n ↔ FitsInt32 n :=
  ⟨fun h => h ▸ ⟨Int32.le_toInt _, Int32.toInt_lt _⟩, fun h => Int32.toInt_ofInt_of_le h.1 h.2⟩

mutual

/-- The charges of the particles that are not composite. -/
def Particle.leafCharges : Particle → List ℤ
  | .electron e => [e.charge.toInt]
  | .muon m => [m.charge.toInt]
  | .jet _ => [0]
  | .composite c => c.leafCharges

def Composite.leafCharges : Composite → List ℤ
  | ⟨daughters, _, _, _⟩ => Particle.allLeafCharges daughters

def Particle.allLeafCharges : List Particle → List ℤ
  | [] => []
  | d :: rest => d.leafCharges ++ Particle.allLeafCharges rest

end

mutual

/-- No sum on the way leaves the range. -/
def Particle.AddsInRange : Particle → Prop
  | .composite c => c.AddsInRange
  | _ => True

/-- The total of the first daughters has 32 bits, however many they are, in the composite and in each one inside. -/
def Composite.AddsInRange : Composite → Prop
  | ⟨daughters, _, _, _⟩ =>
    (∀ n, FitsInt32 (Particle.allLeafCharges (daughters.take n)).sum) ∧ Particle.AllAddInRange daughters

def Particle.AllAddInRange : List Particle → Prop
  | [] => True
  | d :: rest => d.AddsInRange ∧ Particle.AllAddInRange rest

end

/-! ## Sums as they are taken -/

namespace ChargeSum

/-- A sum of charges of total `n`, taken without leaving the range if `inRange`. -/
structure Totals (s : ChargeSum) (n : ℤ) (inRange : Prop) : Prop where
  value_eq : s.value = Int32.ofInt n
  overflow_iff : s.overflow = false ↔ inRange
  fits : inRange → FitsInt32 n

namespace Totals

variable {s c : ChargeSum} {m n : ℤ} {p q : Prop}

theorem toInt_value (h : s.Totals n p) (hp : p) : s.value.toInt = n := by
  rw [h.value_eq]
  exact toInt_ofInt_eq_iff.2 (h.fits hp)

theorem congr (h : s.Totals n p) (hpq : p ↔ q) : s.Totals n q := propext hpq ▸ h

theorem of_value (charge : Int32) : ({ value := charge } : ChargeSum).Totals [charge.toInt].sum True where
  value_eq := by rw [List.sum_singleton, Int32.ofInt_toInt]
  overflow_iff := iff_of_true rfl trivial
  fits _ := by
    rw [List.sum_singleton]
    exact ⟨Int32.le_toInt _, Int32.toInt_lt _⟩

/-- **An addition leaves the range just if the total does.** -/
theorem add (hs : s.Totals m p) (hc : c.Totals n q) : (s.add c).Totals (m + n) ((p ∧ q) ∧ FitsInt32 (m + n)) where
  value_eq := by rw [ChargeSum.add, hs.value_eq, hc.value_eq, Int32.ofInt_add]
  overflow_iff := by
    simp only [ChargeSum.add, Bool.or_eq_false_iff, bne_eq_false_iff_eq, hs.overflow_iff, hc.overflow_iff]
    refine and_congr_right fun ⟨hp, hq⟩ => ?_
    rw [hs.toInt_value hp, hc.toInt_value hq, hs.value_eq, hc.value_eq, ← Int32.ofInt_add, toInt_ofInt_eq_iff]
  fits h := h.2

theorem charge_eq_ok_iff (h : s.Totals n p) (charge : Int32) : s.charge = .ok charge ↔ p ∧ charge.toInt = n := by
  unfold ChargeSum.charge
  cases hs : s.overflow with
  | true =>
    have hp : ¬p := fun hp => by
      rw [h.overflow_iff.2 hp] at hs
      cases hs
    simp [hp]
  | false =>
    have hp := h.overflow_iff.1 hs
    rw [if_neg Bool.false_ne_true, Except.ok.injEq, ← h.toInt_value hp, Int32.toInt_inj]
    exact ⟨fun hv => ⟨hp, hv.symm⟩, fun hv => hv.2.symm⟩

theorem charge_eq_error_iff (h : s.Totals n p) : s.charge = .error .overflow ↔ ¬p := by
  rw [← h.overflow_iff, ChargeSum.charge]
  cases s.overflow <;> simp

end Totals
end ChargeSum

/-- The first sum of those that go on from `m` is `m` itself. -/
theorem Particle.forall_fits_cons (m : ℤ) (d : Particle) (rest : List Particle) :
    (∀ k, FitsInt32 (m + (allLeafCharges ((d :: rest).take k)).sum)) ↔
      FitsInt32 m ∧ ∀ k, FitsInt32 (m + d.leafCharges.sum + (allLeafCharges (rest.take k)).sum) := by
  constructor
  · intro h
    refine ⟨by simpa [allLeafCharges] using h 0, fun k => ?_⟩
    simpa [allLeafCharges, List.sum_append, add_assoc] using h (k + 1)
  · rintro ⟨hm, h⟩ k
    cases k with
    | zero => simpa [allLeafCharges] using hm
    | succ k => simpa [allLeafCharges, List.sum_append, add_assoc] using h k

mutual

theorem Particle.totals_chargeSum : ∀ p : Particle, p.chargeSum.Totals p.leafCharges.sum p.AddsInRange
  | .electron e => .of_value e.charge
  | .muon m => .of_value m.charge
  | .jet _ => .of_value 0
  | .composite c => Composite.totals_chargeSum c

/-- **What is summed up for a composite** is the total of its leaves, and an addition leaves the range just if a sum of
the first daughters somewhere does. -/
theorem Composite.totals_chargeSum : ∀ c : Composite, c.chargeSum.Totals c.leafCharges.sum c.AddsInRange
  | ⟨daughters, _, _, _⟩ => by
    have h := Particle.totals_addCharges daughters (ChargeSum.Totals.of_value 0)
    simp only [List.sum_singleton, Int32.toInt_zero, zero_add, true_and] at h
    exact h.congr and_comm

/-- The invariant of the additions: what has been summed up so far totals `m`. -/
theorem Particle.totals_addCharges : ∀ (l : List Particle) {s : ChargeSum} {m : ℤ} {p : Prop}, s.Totals m p →
    (Particle.addCharges s l).Totals (m + (Particle.allLeafCharges l).sum)
      (p ∧ Particle.AllAddInRange l ∧ ∀ k, FitsInt32 (m + (Particle.allLeafCharges (l.take k)).sum))
  | [], s, m, p, hs => by
    simp only [Particle.addCharges, Particle.allLeafCharges, Particle.AllAddInRange, List.take_nil, List.sum_nil,
      add_zero, true_and, forall_const]
    exact hs.congr (and_iff_left_of_imp hs.fits).symm
  | d :: rest, s, m, p, hs => by
    rw [Particle.addCharges, Particle.allLeafCharges, List.sum_append, ← add_assoc, Particle.forall_fits_cons]
    refine (Particle.totals_addCharges rest (hs.add (Particle.totals_chargeSum d))).congr ⟨?_, ?_⟩
    · rintro ⟨⟨⟨hp, hd⟩, -⟩, hrest, hsums⟩
      exact ⟨hp, ⟨hd, hrest⟩, hs.fits hp, hsums⟩
    · rintro ⟨hp, ⟨hd, hrest⟩, -, hsums⟩
      exact ⟨⟨⟨hp, hd⟩, by simpa [Particle.allLeafCharges] using hsums 0⟩, hrest, hsums⟩

end

/-! ## Charges of limited size -/

/-- The sum of the sizes of integers. -/
def totalSize (l : List ℤ) : ℕ := (l.map Int.natAbs).sum

theorem totalSize_append (l l' : List ℤ) : totalSize (l ++ l') = totalSize l + totalSize l' := by
  rw [totalSize, List.map_append, List.sum_append]
  rfl

theorem natAbs_sum_le (l : List ℤ) : l.sum.natAbs ≤ totalSize l := by
  induction l with
  | nil => exact le_rfl
  | cons n rest ih =>
    rw [List.sum_cons, totalSize, List.map_cons, List.sum_cons]
    exact (Int.natAbs_add_le n rest.sum).trans (Nat.add_le_add_left ih _)

theorem fitsInt32_sum {l : List ℤ} (h : totalSize l < 2 ^ 31) : FitsInt32 l.sum := by
  have hsize := natAbs_sum_le l
  constructor <;> omega

theorem Particle.totalSize_take_le (l : List Particle) (n : ℕ) :
    totalSize (allLeafCharges (l.take n)) ≤ totalSize (allLeafCharges l) := by
  induction n generalizing l with
  | zero => exact Nat.zero_le _
  | succ n ih =>
    cases l with
    | nil => exact le_rfl
    | cons d rest =>
      rw [List.take_succ_cons, allLeafCharges, allLeafCharges, totalSize_append, totalSize_append]
      exact Nat.add_le_add_left (ih rest) _

mutual

theorem Particle.addsInRange_of_totalSize_lt : ∀ p : Particle, totalSize p.leafCharges < 2 ^ 31 → p.AddsInRange
  | .electron _, _ | .muon _, _ | .jet _, _ => trivial
  | .composite c, h => Composite.addsInRange_of_totalSize_lt c h

/-- Charges whose sizes add up to less than `2 ^ 31` are added without leaving the range. -/
theorem Composite.addsInRange_of_totalSize_lt : ∀ c : Composite, totalSize c.leafCharges < 2 ^ 31 → c.AddsInRange
  | ⟨daughters, _, _, _⟩, h =>
    ⟨fun n => fitsInt32_sum ((Particle.totalSize_take_le daughters n).trans_lt h),
      Particle.allAddInRange_of_totalSize_lt daughters h⟩

theorem Particle.allAddInRange_of_totalSize_lt : ∀ l : List Particle,
    totalSize (Particle.allLeafCharges l) < 2 ^ 31 → Particle.AllAddInRange l
  | [], _ => trivial
  | d :: rest, h => by
    rw [Particle.allLeafCharges, totalSize_append] at h
    exact ⟨Particle.addsInRange_of_totalSize_lt d (by omega), Particle.allAddInRange_of_totalSize_lt rest (by omega)⟩

end

/-- **What the charge of a composite is.**  It is the total charge of the leaves if no sum on the way leaves the range,
and an error just if one does, which takes charges whose sizes add up to `2 ^ 31` at least.  What has been summed up is the total
modulo `2 ^ 32` in any case. -/
theorem Composite.charge_exact_iff (c : Composite) :
    (∀ charge, c.charge = .ok charge ↔ c.AddsInRange ∧ charge.toInt = c.leafCharges.sum) ∧
    (c.charge = .error .overflow ↔ ¬c.AddsInRange) ∧
    (totalSize c.leafCharges < 2 ^ 31 → c.AddsInRange) ∧
    c.chargeSum.value.toInt = c.leafCharges.sum.bmod (2 ^ 32) := by
  have htotals := c.totals_chargeSum
  refine ⟨htotals.charge_eq_ok_iff, htotals.charge_eq_error_iff, c.addsInRange_of_totalSize_lt, ?_⟩
  rw [htotals.value_eq]
  exact Int32.toInt_ofInt

/-- A pair of pairs of unit charges is added without leaving the range. -/
theorem Composite.charge_exact_pairs :
    let muon (charge : Int32) : Particle := .muon { charge }
    let z : Particle := .composite (.ofDaughters 23 [muon (-1), muon 1])
    let c : Composite := .ofDaughters 25 [z, .composite (.ofDaughters 23 [muon 1, muon 1])]
    c.AddsInRange ∧ c.charge = .ok 2 := by
  intro muon z c
  obtain ⟨hexact, -, hrange, -⟩ := c.charge_exact_iff
  have hadds := hrange (by decide +kernel)
  exact ⟨hadds, (hexact 2).2 ⟨hadds, by decide +kernel⟩⟩

/-- **Charges may leave the range**, for good or on the way. -/
theorem Composite.charge_not_exact :
    let muon (charge : Int32) : Particle := .muon { charge }
    let pair : Composite := .ofDaughters 0 [muon 2147483647, muon 1]
    let three : Composite := .ofDaughters 0 [muon 2147483647, muon 1, muon (-1)]
    (pair.charge = .error .overflow ∧ pair.leafCharges.sum = 2147483648) ∧
    (three.charge = .error .overflow ∧ three.leafCharges.sum = 2147483647) := by
  intro muon pair three
  exact ⟨⟨by decide +kernel, by decide +kernel⟩, by decide +kernel, by decide +kernel⟩

end FlatNtuple
