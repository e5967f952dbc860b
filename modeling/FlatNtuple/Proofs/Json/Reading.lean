import FlatNtuple.Proofs.Decimal.Layout
import FlatNtuple.Proofs.Json.Quoted
/-!
# Written documents are read back

What is written is read at the front of any text that goes on with a comma or a brace (`Written`): truth values, integers
(`written_integer`), numerals (`written_numeral`), and an object of written members (`readsMembers_cons`,
`reads_object`).  A numeral with a fraction or an exponent is never read as an integer (`ofNumeral_eq`).
-/
namespace FlatNtuple
namespace Json

open Decimal

/-- A value is read at the front of a text, up to a rest. -/
def Reads (cs : List Char) (j : Json) (rest : List Char) : Prop := ∃ h, readValue cs = some (j, ⟨rest, h⟩)

def ReadsMembers (cs : List Char) (ms : List (Option String × Json)) (rest : List Char) : Prop :=
  ∃ h, readMembers cs = some (ms, ⟨rest, h⟩)

/-- What comes next, if anything, is a comma or a closing brace. -/
def Closes (cs : List Char) : Prop := ∀ c t, cs = c :: t → c = ',' ∨ c = '}'

/-- A text is read as a value, whatever closes it. -/
def Written (text : List Char) (j : Json) : Prop := ∀ rest, Closes rest → Reads (text ++ rest) j rest

variable {j : Json} {c : Char} {cs rest text : List Char} {ms : List (Option String × Json)}

theorem Closes.apart (h : Closes cs) : Numeral.Apart cs := by
  rintro c t rfl
  rcases h c t rfl with rfl | rfl
  · exact ⟨rfl, rfl, nofun⟩
  · exact ⟨rfl, rfl, nofun⟩

/-! ## Truth values -/

theorem reads_true (rest : List Char) : Reads ('t' :: 'r' :: 'u' :: 'e' :: rest) (.bool true) rest := by
  have hskip := skipBlanks_cons (c := 't') rfl ('r' :: 'u' :: 'e' :: rest)
  unfold Reads
  rw [readValue]
  split
  case h_2 r hr =>
    cases hskip.symm.trans hr
    exact ⟨by simp only [List.length_cons]; omega, rfl⟩
  case h_7 _ hnot _ _ _ _ hr =>
    cases hskip.symm.trans hr
    exact (hnot _ rfl rfl).elim
  all_goals (rename_i hr; cases hskip.symm.trans hr)

theorem reads_false (rest : List Char) : Reads ('f' :: 'a' :: 'l' :: 's' :: 'e' :: rest) (.bool false) rest := by
  have hskip := skipBlanks_cons (c := 'f') rfl ('a' :: 'l' :: 's' :: 'e' :: rest)
  unfold Reads
  rw [readValue]
  split
  case h_3 r hr =>
    cases hskip.symm.trans hr
    exact ⟨by simp only [List.length_cons]; omega, rfl⟩
  case h_7 _ _ hnot _ _ _ hr =>
    cases hskip.symm.trans hr
    exact (hnot _ rfl rfl).elim
  all_goals (rename_i hr; cases hskip.symm.trans hr)

/-- What starts as a number is read as one. -/
theorem reads_number (hc : c.isDigit = true ∨ c = '-') (h : readNumber (c :: cs) = some (j, rest)) :
    Reads (c :: cs) j rest := by
  have hblank : isBlank c = false := by
    by_contra hblank
    simp only [isBlank, Bool.or_eq_true, decide_eq_true_eq, Bool.not_eq_false] at hblank
    rcases hblank with ((rfl | rfl) | rfl) | rfl <;> exact absurd hc (by decide)
  have hskip := skipBlanks_cons hblank cs
  unfold Reads
  rw [readValue]
  split
  case h_7 hr =>
    cases hskip.symm.trans hr
    split
    · rename_i h'
      cases h.symm.trans h'
      exact ⟨length_readNumber h, rfl⟩
    · rename_i h'
      cases h.symm.trans h'
  case h_8 hr => cases hskip.symm.trans hr
  all_goals
    rename_i hr
    cases hskip.symm.trans hr
    exact absurd hc (by decide)

/-! ## Objects -/

/-- An object without members. -/
theorem reads_object_nil (rest : List Char) : Reads ('{' :: '}' :: rest) (.object []) rest := by
  have hskip := skipBlanks_cons (c := '{') rfl ('}' :: rest)
  have hclose := skipBlanks_cons (c := '}') rfl rest
  unfold Reads
  rw [readValue]
  split
  case h_6 r hr =>
    cases hskip.symm.trans hr
    split
    · rename_i r' hr'
      cases hclose.symm.trans hr'
      exact ⟨by simp only [List.length_cons]; omega, rfl⟩
    · rename_i hnot
      exact absurd hclose (hnot _)
  case h_7 _ _ _ _ _ hnot hr =>
    cases hskip.symm.trans hr
    exact (hnot rfl).elim
  all_goals (rename_i hr; cases hskip.symm.trans hr)

/-- An object with members, of which the first starts with a quote. -/
theorem reads_object (h : ReadsMembers ('"' :: cs) ms rest) : Reads ('{' :: '"' :: cs) (ofMembers ms) rest := by
  have hskip := skipBlanks_cons (c := '{') rfl ('"' :: cs)
  have hquote := skipBlanks_cons (c := '"') rfl cs
  obtain ⟨hlength, hread⟩ := h
  unfold Reads
  rw [readValue]
  split
  case h_6 r hr =>
    cases hskip.symm.trans hr
    split
    · rename_i r' hr'
      cases hquote.symm.trans hr'
    · rw [hread]
      exact ⟨Nat.lt_succ_of_lt hlength, rfl⟩
  case h_7 _ _ _ _ _ hnot hr =>
    cases hskip.symm.trans hr
    exact (hnot rfl).elim
  all_goals (rename_i hr; cases hskip.symm.trans hr)

/-- What follows a value in an object: a comma and more members, or the brace that closes it. -/
inductive Continues : List Char → List (Option String × Json) → List Char → Prop
  | comma {cs rest : List Char} {ms : List (Option String × Json)} (h : ReadsMembers cs ms rest) :
      Continues (',' :: cs) ms rest
  | brace (rest : List Char) : Continues ('}' :: rest) [] rest

theorem Continues.closes (h : Continues cs ms rest) : Closes cs := by
  cases h with
  | comma => rintro c t ⟨⟩; exact .inl rfl
  | brace => rintro c t ⟨⟩; exact .inr rfl

/-- **A member is read**, and then what continues the object. -/
theorem readsMembers_cons (key : String) (hvalue : Written text j) (h : Continues cs ms rest) :
    ReadsMembers ((quote key).toList ++ ':' :: (text ++ cs)) ((some key, j) :: ms) rest := by
  obtain ⟨hkeyLength, hkey⟩ := readString_quote key (':' :: (text ++ cs))
  obtain ⟨_, hread⟩ := hvalue cs h.closes
  have hcolon := skipBlanks_cons (c := ':') rfl (text ++ cs)
  unfold ReadsMembers
  rw [readMembers]
  simp only [hkey]
  split
  · rename_i r hr
    cases hcolon.symm.trans hr
    simp only [hread]
    cases h with
    | @comma cs _ _ h =>
      obtain ⟨hlength, hms⟩ := h
      have hcomma := skipBlanks_cons (c := ',') rfl cs
      split
      · rename_i r' hr'
        cases hcomma.symm.trans hr'
        rw [hms]
        exact ⟨by simp only [List.length_cons, List.length_append] at hkeyLength ⊢; omega, rfl⟩
      · rename_i r' hr'
        cases hcomma.symm.trans hr'
      · rename_i hnot _
        exact absurd hcomma (hnot _)
    | brace rest =>
      have hbrace := skipBlanks_cons (c := '}') rfl rest
      split
      · rename_i r' hr'
        cases hbrace.symm.trans hr'
      · rename_i r' hr'
        cases hbrace.symm.trans hr'
        exact ⟨by simp only [List.length_cons, List.length_append]; omega, rfl⟩
      · rename_i hnot
        exact absurd hbrace (hnot _)
  · rename_i hnot
    exact absurd hcolon (hnot _)

theorem mapM_names (l : List (String × Json)) :
    (l.map fun m => (some m.1, m.2)).mapM (fun (k, j) => k.map fun k => (k, j)) = some l := by
  induction l with
  | nil => rfl
  | cons m rest ih =>
    rw [List.map_cons, List.mapM_cons, ih]
    rfl

theorem ofMembers_some (l : List (String × Json)) : ofMembers (l.map fun m => (some m.1, m.2)) = .object l := by
  rw [ofMembers, mapM_names]

/-- A text that is a value throughout is read as the value. -/
theorem read_eq {text : String} (h : Reads text.toList j []) : read text = some (j.within deepest) := by
  obtain ⟨hlength, hread⟩ := h
  rw [read, hread]
  rfl

/-! ## Numerals -/

theorem hasLeadingZero_eq {cs : List Char} (h : cs = ['0'] ∨ cs.head? ≠ some '0') : hasLeadingZero cs = false := by
  obtain rfl | h := h
  · rfl
  · unfold hasLeadingZero
    split
    · exact absurd rfl h
    · rfl

/-- The value of a numeral is read behind a sign or none. -/
theorem written_numeral {n : Numeral} (negative : Bool) (hn : n.Proper) (hne : n.whole ≠ [])
    (hhead : n.whole = ['0'] ∨ n.whole.head? ≠ some '0') :
    Written ((if negative then ['-'] else []) ++ n.chars) (ofNumeral negative n) := by
  intro rest hrest
  have hsplit := Numeral.split_proper hn hrest.apart
  obtain ⟨c, t, hwhole⟩ := List.exists_cons_of_ne_nil hne
  have hdigit : c.isDigit = true := hn.whole c (hwhole ▸ List.mem_cons_self)
  obtain ⟨t', hchars⟩ : ∃ t', n.chars ++ rest = c :: t' := by
    rw [Numeral.chars, hwhole]
    exact ⟨_, rfl⟩
  have hempty : (n.whole.isEmpty || hasLeadingZero n.whole) = false := by
    rw [hasLeadingZero_eq hhead, hwhole]
    rfl
  cases negative with
  | false =>
    have hminus : c ≠ '-' := by rintro rfl; cases hdigit
    have hread : readNumber (c :: t') = some (ofNumeral false n, rest) := by
      rw [readNumber]
      · simp only [← hchars, hsplit, hempty, Bool.false_eq_true, if_false]
      · exact fun r h => hminus (List.cons.inj h).1
    change Reads (n.chars ++ rest) _ _
    rw [hchars]
    exact reads_number (.inl hdigit) hread
  | true =>
    have hread : readNumber ('-' :: (n.chars ++ rest)) = some (ofNumeral true n, rest) := by
      simp only [readNumber, hsplit, hempty, Bool.false_eq_true, if_false]
    exact reads_number (.inr rfl) hread

/-- A numeral with a fraction or an exponent is read as a number that is no integer, if it is in range. -/
theorem ofNumeral_eq {n : Numeral} (h : n.isWhole = false) (negative : Bool) :
    (∃ x, ofNumeral negative n = .real x) ∨ ofNumeral negative n = .unreadable := by
  simp only [ofNumeral, h, Bool.false_and, Bool.false_eq_true, if_false]
  split
  · exact .inl ⟨_, rfl⟩
  · exact .inr rfl

theorem toList_toString (i : ℤ) :
    (toString i).toList = (if decide (i < 0) then ['-'] else []) ++ digitsOf i.natAbs := by
  rw [Int.toString_eq_repr, Int.repr_eq_if]
  obtain hi | hi := lt_or_ge i 0
  · have habs : (-i).toNat = i.natAbs := by omega
    rw [if_neg (not_le.2 hi), habs, decide_eq_true hi, String.toList_append, Nat.toList_repr]
    rfl
  · have habs : i.toNat = i.natAbs := by omega
    rw [if_pos hi, habs, decide_eq_false (not_lt.2 hi), Nat.toList_repr]
    rfl

theorem ofNumeral_digits {i : ℤ} (hlow : leastInteger ≤ i) (hhigh : i ≤ greatestInteger) :
    ofNumeral (decide (i < 0)) ⟨digitsOf i.natAbs, [], []⟩ = .integer i := by
  have hvalue : (if decide (i < 0) = true then -((Numeral.ofDigits (digitsOf i.natAbs) : ℕ) : ℤ)
      else (Numeral.ofDigits (digitsOf i.natAbs) : ℕ)) = i := by
    rw [ofDigits_digitsOf]
    split
    · rename_i hi
      have := of_decide_eq_true hi
      omega
    · rename_i hi
      have := of_decide_eq_false (Bool.eq_false_iff.2 hi)
      omega
  have hzero : (decide (i < 0) && i == 0) = false := by
    rw [Bool.and_eq_false_iff, decide_eq_false_iff_not, beq_eq_false_iff_ne]
    omega
  simp only [ofNumeral, hvalue, hzero]
  simp [Numeral.isWhole, hlow, hhigh]

/-- **Integers of 64 bits are read back.** -/
theorem written_integer {i : ℤ} (hlow : leastInteger ≤ i) (hhigh : i ≤ greatestInteger) :
    Written (toString i).toList (.integer i) := by
  rw [toList_toString, ← ofNumeral_digits hlow hhigh]
  have hhead : digitsOf i.natAbs = ['0'] ∨ (digitsOf i.natAbs).head? ≠ some '0' := by
    obtain hzero | hpos := Nat.eq_zero_or_pos i.natAbs
    · rw [hzero]
      exact .inl rfl
    · exact .inr (head?_digitsOf hpos)
  have hwritten := written_numeral (n := ⟨digitsOf i.natAbs, [], []⟩) (decide (i < 0))
    ⟨digitsOf_isDigit, .inl rfl, .inl rfl⟩ (digitsOf_ne_nil _) hhead
  simpa only [Numeral.chars, List.append_nil] using hwritten

end Json
end FlatNtuple
