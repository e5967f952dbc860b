import FlatNtuple.Decimal.Layout
import FlatNtuple.Proofs.Decimal.Numeral
/-!
# Written numbers are read back

A layout writes the digits of a decimal in one of three forms, each of which is a numeral with the value of the decimal
(`exists_numeral`).  So a number that is written with its shortest digits is read back (`exists_numeral_float`).
-/
namespace FlatNtuple
namespace Decimal

open Binary Numeral

/-! ## Digits -/

theorem digitsOf_isDigit {n : ℕ} : ∀ c ∈ digitsOf n, c.isDigit = true :=
  fun _ hc => Nat.isDigit_of_mem_toDigits (by decide) (by decide) hc

theorem length_digitsOf (n : ℕ) : (digitsOf n).length = width n := rfl

theorem digitsOf_ne_nil (n : ℕ) : digitsOf n ≠ [] := Nat.toDigits_ne_nil

theorem zeros_isDigit {n : ℕ} : ∀ c ∈ zeros n, c.isDigit = true := by
  intro c hc
  rw [List.eq_of_mem_replicate hc]
  rfl

theorem ofDigits_append (cs ds : List Char) : ofDigits (cs ++ ds) = 10 ^ ds.length * ofDigits cs + ofDigits ds :=
  (Nat.ofDigitChars_append 0).trans Nat.ofDigitChars_eq_ofDigitChars_zero

theorem ofDigits_digitsOf (n : ℕ) : ofDigits (digitsOf n) = n := Nat.ofDigitChars_ten_toDigits

theorem ofDigits_zeros (n : ℕ) : ofDigits (zeros n) = 0 := Nat.ofDigitChars_replicate_zero

/-- No number but zero is written with a zero in front. -/
theorem head?_digitsOf {n : ℕ} (hn : 0 < n) : (digitsOf n).head? ≠ some '0' := by
  induction n using Nat.strongRecOn with
  | ind n ih =>
    rw [digitsOf, Nat.toDigits_eq_if (by decide)]
    split
    · rw [List.head?_singleton, Ne, Option.some.injEq, Nat.digitChar_eq_zero]
      exact hn.ne'
    · have hne : Nat.toDigits 10 (n / 10) ≠ [] := Nat.toDigits_ne_nil
      rw [List.head?_append_of_ne_nil _ hne]
      exact ih (n / 10) (by omega) (by omega)

/-! ## The forms of a decimal -/

def positionalNumeral (d : Decimal) : Numeral :=
  let ds := digitsOf d.digits
  if 0 ≤ d.exponent then ⟨ds ++ zeros d.exponent.toNat, ['.', '0'], []⟩
  else
    let after := (-d.exponent).toNat
    if after < ds.length then ⟨ds.take (ds.length - after), '.' :: ds.drop (ds.length - after), []⟩
    else ⟨['0'], '.' :: zeros (after - ds.length) ++ ds, []⟩

theorem chars_positionalNumeral (d : Decimal) : (positionalNumeral d).chars = positionalText true d := by
  unfold positionalNumeral positionalText
  simp only
  split
  · simp [chars]
  · split
    · simp [chars]
    · simp [chars]

theorem proper_positionalNumeral (d : Decimal) : (positionalNumeral d).Proper := by
  have hdigits := digitsOf_isDigit (n := d.digits)
  unfold positionalNumeral
  simp only
  split
  · exact ⟨List.forall_mem_append.2 ⟨hdigits, zeros_isDigit⟩, .inr ⟨['0'], rfl, by simp, by simp⟩, .inl rfl⟩
  · split
    · rename_i hexp hafter
      refine ⟨fun c hc => hdigits c (List.mem_of_mem_take hc), .inr ⟨_, rfl, ?_, ?_⟩, .inl rfl⟩
      · rw [Ne, List.drop_eq_nil_iff]
        omega
      · exact fun c hc => hdigits c (List.mem_of_mem_drop hc)
    · refine ⟨by simp, .inr ⟨_, rfl, ?_, List.forall_mem_append.2 ⟨zeros_isDigit, hdigits⟩⟩, .inl rfl⟩
      exact List.append_ne_nil_of_right_ne_nil _ (digitsOf_ne_nil _)

/-- There are digits on both sides of the point. -/
theorem whole_positionalNumeral (d : Decimal) :
    (positionalNumeral d).whole ≠ [] ∧ (positionalNumeral d).isWhole = false := by
  unfold positionalNumeral
  simp only
  split
  · exact ⟨List.append_ne_nil_of_left_ne_nil (digitsOf_ne_nil _) _, rfl⟩
  · split
    · refine ⟨?_, rfl⟩
      rw [Ne, List.take_eq_nil_iff, not_or]
      exact ⟨by omega, digitsOf_ne_nil _⟩
    · exact ⟨List.cons_ne_nil _ _, rfl⟩

/-- The digits before the point do not start with a zero that could be left out. -/
theorem head_positionalNumeral {d : Decimal} (hd : 0 < d.digits ∨ d = ⟨0, 0⟩) :
    (positionalNumeral d).whole = ['0'] ∨ (positionalNumeral d).whole.head? ≠ some '0' := by
  obtain hd | rfl := hd
  · have hhead := head?_digitsOf hd
    have hne := digitsOf_ne_nil d.digits
    unfold positionalNumeral
    simp only
    split
    · exact .inr (by rwa [List.head?_append_of_ne_nil _ hne])
    · split
      · exact .inr (by rwa [List.head?_take, if_neg (by omega)])
      · exact .inl rfl
  · exact .inl rfl

theorem toDecimal_point (whole fraction : List Char) :
    (⟨whole, '.' :: fraction, []⟩ : Numeral).toDecimal = ⟨ofDigits (whole ++ fraction), -(fraction.length : ℤ)⟩ := by
  simp [toDecimal, exponentValue]

theorem value_positionalNumeral (d : Decimal) : (positionalNumeral d).toDecimal.value = d.value := by
  unfold positionalNumeral
  simp only
  split
  · rename_i hexp
    have hpow := zpow_eq_natCast (b := 10) hexp
    rw [toDecimal_point, value, value, ofDigits_append, ofDigits_append, ofDigits_digitsOf, ofDigits_zeros]
    push_cast at hpow ⊢
    rw [hpow, zeros, List.length_replicate, List.length_singleton, show ofDigits ['0'] = 0 from rfl, Nat.cast_one,
      zpow_neg_one]
    push_cast
    ring
  · rename_i hexp
    have hafter : (((-d.exponent).toNat : ℕ) : ℤ) = -d.exponent := Int.toNat_of_nonneg (by omega)
    generalize (-d.exponent).toNat = after at hafter ⊢
    split
    · rename_i hlt
      rw [toDecimal_point, List.take_append_drop, ofDigits_digitsOf, List.length_drop, Nat.sub_sub_self hlt.le, hafter,
        neg_neg]
    · rename_i hle
      have hlength : (zeros (after - (digitsOf d.digits).length) ++ digitsOf d.digits).length = after := by
        rw [List.length_append, zeros, List.length_replicate]
        omega
      rw [List.cons_append, toDecimal_point, hlength, hafter, neg_neg, ofDigits_append, ofDigits_append,
        ofDigits_digitsOf, ofDigits_zeros, show ofDigits ['0'] = 0 from rfl]
      simp

/-- An exponent is the number that it spells. -/
theorem exponentValue_exponentText (plusSign : Bool) (e : ℤ) : exponentValue (exponentText plusSign e) = e := by
  have hdigits := ofDigits_digitsOf e.natAbs
  unfold exponentText
  split
  · rename_i he
    simp only [List.cons_append, List.nil_append, exponentValue, if_true, hdigits]
    omega
  · rename_i he
    split
    · simp only [List.cons_append, List.nil_append, exponentValue, hdigits]
      rw [if_neg (by decide), if_pos trivial]
      omega
    · obtain ⟨c, cs, hc⟩ := List.exists_cons_of_ne_nil (digitsOf_ne_nil e.natAbs)
      have hsign := not_isSign_of_isDigit (digitsOf_isDigit c (hc ▸ List.mem_cons_self))
      simp only [isSign, Bool.or_eq_false_iff, decide_eq_false_iff_not] at hsign
      rw [hc] at hdigits
      simp only [hc, List.cons_append, List.nil_append, exponentValue, if_neg hsign.1, if_neg hsign.2, hdigits]
      omega

def scientificNumeral (plusSign : Bool) (d : Decimal) : Numeral :=
  let ds := digitsOf d.digits
  ⟨ds.take 1, if ds.drop 1 = [] then [] else '.' :: ds.drop 1, exponentText plusSign d.leading⟩

theorem chars_scientificNumeral (plusSign : Bool) (d : Decimal) :
    (scientificNumeral plusSign d).chars = scientificText plusSign d := by
  unfold scientificNumeral scientificText
  match hds : digitsOf d.digits with
  | [] => exact absurd hds (digitsOf_ne_nil _)
  | [c] => simp [chars]
  | c :: c' :: cs => simp [chars]

theorem proper_scientificNumeral (plusSign : Bool) (d : Decimal) : (scientificNumeral plusSign d).Proper := by
  have hdigits := digitsOf_isDigit (n := d.digits)
  refine ⟨fun c hc => hdigits c (List.mem_of_mem_take hc), ?_, .inr ?_⟩
  · unfold scientificNumeral
    simp only
    split
    · exact .inl rfl
    · rename_i hne
      exact .inr ⟨_, rfl, hne, fun c hc => hdigits c (List.mem_of_mem_drop hc)⟩
  · refine ⟨'e', if d.leading < 0 then ['-'] else if plusSign then ['+'] else [], digitsOf d.leading.natAbs, rfl, rfl,
      ?_, ?_, digitsOf_ne_nil _, digitsOf_isDigit⟩
    · split
      · simp [isSign]
      · split <;> simp [isSign]
    · split
      · decide
      · split <;> decide

theorem head_scientificNumeral (plusSign : Bool) {d : Decimal} (hd : 0 < d.digits ∨ d = ⟨0, 0⟩) :
    (scientificNumeral plusSign d).whole = ['0'] ∨ (scientificNumeral plusSign d).whole.head? ≠ some '0' := by
  obtain hd | rfl := hd
  · exact .inr (by simpa [scientificNumeral, List.head?_take] using head?_digitsOf hd)
  · exact .inl rfl

theorem toDecimal_scientificNumeral (plusSign : Bool) (d : Decimal) : (scientificNumeral plusSign d).toDecimal = d := by
  have hwidth := width_pos d.digits
  have hlength := length_digitsOf d.digits
  have hwhole : ofDigits ((digitsOf d.digits).take 1 ++ (digitsOf d.digits).drop 1) = d.digits := by
    rw [List.take_append_drop, ofDigits_digitsOf]
  unfold scientificNumeral toDecimal
  simp only [exponentValue_exponentText]
  split
  · rename_i hnil
    rw [hnil] at hwhole
    have hone : (digitsOf d.digits).length ≤ 1 := List.drop_eq_nil_iff.1 hnil
    have hexp : d.leading - (([] : List Char).length - 1 : ℕ) = d.exponent := by
      rw [leading, List.length_nil]
      omega
    rw [hexp, List.drop_nil, hwhole]
  · have hexp : d.leading - (('.' :: (digitsOf d.digits).drop 1).length - 1 : ℕ) = d.exponent := by
      rw [leading, List.length_cons, List.length_drop, hlength]
      omega
    rw [hexp, List.drop_one, List.tail_cons, hwhole]

/-! ## Layouts -/

/-- **A layout writes a numeral** with the value of the decimal.  It is a fraction or has an exponent, if integral
numbers end in `.0`, and no zero in front of it could be left out. -/
theorem exists_numeral {l : Layout} (hl : l.pointZero = true) (d : Decimal) :
    ∃ n : Numeral, n.Proper ∧ n.whole ≠ [] ∧ n.isWhole = false ∧ n.chars = l.magnitudeText d ∧
      n.toDecimal.value = d.value ∧ (0 < d.digits ∨ d = ⟨0, 0⟩ → n.whole = ['0'] ∨ n.whole.head? ≠ some '0') := by
  have hpositional : ∃ n : Numeral, n.Proper ∧ n.whole ≠ [] ∧ n.isWhole = false ∧
      n.chars = positionalText l.pointZero d ∧ n.toDecimal.value = d.value ∧
      (0 < d.digits ∨ d = ⟨0, 0⟩ → n.whole = ['0'] ∨ n.whole.head? ≠ some '0') :=
    ⟨positionalNumeral d, proper_positionalNumeral d, (whole_positionalNumeral d).1, (whole_positionalNumeral d).2,
      hl ▸ chars_positionalNumeral d, value_positionalNumeral d, head_positionalNumeral⟩
  unfold Layout.magnitudeText
  split
  · exact hpositional
  · split
    · exact hpositional
    · refine ⟨scientificNumeral l.plusSign d, proper_scientificNumeral _ d, ?_, ?_, chars_scientificNumeral _ d,
        by rw [toDecimal_scientificNumeral], head_scientificNumeral _⟩
      · have := digitsOf_ne_nil d.digits
        simpa [scientificNumeral] using this
      · simp [scientificNumeral, isWhole, exponentText]

/-- **A finite number is written as a numeral** behind a sign or none, with the digits of zero or of its shortest
decimal. -/
theorem exists_numeral_write {l : Layout} (hl : l.pointZero = true) {F : Format}
    (hF : 2 ^ (F.fractionBits + 1) < 10 ^ 16) (s : Bool) {m : ℕ} {e : ℤ} (hc : F.Canonical m e) :
    ∃ n : Numeral, n.Proper ∧ n.whole ≠ [] ∧ n.isWhole = false ∧
      (l.write F (.finite s m e)).toList = (if s then ['-'] else []) ++ n.chars ∧
      (n.whole = ['0'] ∨ n.whole.head? ≠ some '0') ∧
      if m = 0 then n.toDecimal.value = 0 else n.toDecimal.value ≠ 0 ∧ F.RoundsTo n.toDecimal.value m e := by
  obtain ⟨n, hproper, hne, hwhole, hchars, hvalue, hhead⟩ :=
    exists_numeral hl (if m = 0 then ⟨0, 0⟩ else shortest l.tie F m e)
  have htext : (l.write F (.finite s m e)).toList = (if s then ['-'] else []) ++ n.chars := by
    rw [hchars, Layout.write, String.toList_ofList]
  by_cases hm : m = 0
  · rw [if_pos hm] at hvalue hhead
    refine ⟨n, hproper, hne, hwhole, htext, hhead (.inr rfl), ?_⟩
    rw [if_pos hm, hvalue]
    exact value_eq_zero_iff.2 rfl
  · obtain ⟨hdigits, hround⟩ := shortest_roundsTo l.tie (Nat.pos_of_ne_zero hm) hc hF
    rw [if_neg hm] at hvalue hhead
    refine ⟨n, hproper, hne, hwhole, htext, hhead (.inl hdigits), ?_⟩
    rw [if_neg hm, hvalue]
    exact ⟨fun hzero => hdigits.ne' (value_eq_zero_iff.1 hzero), hround⟩

/-- **A number that is written is read back**, from the digits of its decimal. -/
theorem exists_numeral_float {l : Layout} (hl : l.pointZero = true) {x : Float} {m : ℕ} {e : ℤ}
    (hx : ofFloat x = .finite false m e) :
    ∃ n : Numeral, n.Proper ∧ n.whole ≠ [] ∧ n.isWhole = false ∧ n.chars = (l.float x).toList ∧ n.toFloat = x := by
  have hbits : x.toBits.toNat < 2 * binary64.signWeight := x.toBits.toNat_lt
  obtain ⟨hc, -, -⟩ := Format.decode_eq_finite hbits hx
  obtain ⟨n, hproper, hne, hwhole, htext, -, hvalue⟩ := exists_numeral_write hl (by decide) false hc
  refine ⟨n, hproper, hne, hwhole, ?_, ?_⟩
  · rw [Layout.float, hx]
    exact htext.symm
  · unfold Numeral.toFloat
    split at hvalue
    · rename_i hm
      subst hm
      exact toFloat_zero (value_eq_zero_iff.1 hvalue) hx
    · rename_i hm
      refine toFloat_eq (Nat.pos_of_ne_zero fun hzero => ?_) (Nat.pos_of_ne_zero hm) hx hvalue.2
      exact hvalue.1 (value_eq_zero_iff.2 hzero)

end Decimal
end FlatNtuple
