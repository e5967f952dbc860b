import FlatNtuple.Proofs.Expr.Position
/-!
# Numbers go as far as they can

A number is the longest literal at its place (`Numeral.longest_split`): digits, digits on both sides of a point, or
digits behind one, and an exponent or none.  How far it goes is decided by a look at up to two characters, which is
enough because a fraction and an exponent that have begun with a digit can go on with digits only.  What a literal
stands for is decided by its characters alone (`Lexer.scanNumber_eq`): digits are an integer, or an error if that is too
large, and everything else is a decimal, which the reader of numbers accepts (`Numeral.readFloat_text`).
-/
namespace FlatNtuple

/-- The longest of the beginnings of a text with a property. -/
structure Longest (p : List Char → Prop) (cs w : List Char) : Prop where
  begins : ∃ rest, cs = w ++ rest
  holds : p w
  longest : ∀ w' rest, cs = w' ++ rest → p w' → w'.length ≤ w.length

namespace Numeral

/-! ## Literals -/

/-- Decimal digits, at least one. -/
structure Digits (ds : List Char) : Prop where
  ne_nil : ds ≠ []
  isDigit : ∀ c ∈ ds, c.isDigit = true

/-- A literal up to its exponent. -/
inductive Mantissa : List Char → Prop
  | whole {ds : List Char} (h : Digits ds) : Mantissa ds
  | fraction {ds ds' : List Char} (h : Digits ds) (h' : Digits ds') : Mantissa (ds ++ '.' :: ds')
  | point {ds : List Char} (h : Digits ds) : Mantissa ('.' :: ds)

/-- The exponent of a literal, which may be left out. -/
inductive Power : List Char → Prop
  | none : Power []
  | some {e : Char} {sign ds : List Char} (he : e = 'e' ∨ e = 'E') (hsign : sign = [] ∨ sign = ['+'] ∨ sign = ['-'])
      (h : Digits ds) : Power (e :: (sign ++ ds))

/-- A literal of a number. -/
def Literal (w : List Char) : Prop := ∃ m e, w = m ++ e ∧ Mantissa m ∧ Power e

variable {n : Numeral} {ds ds' e w rest : List Char}

theorem Digits.append (h : Digits ds) (hds : ∀ c ∈ ds', c.isDigit = true) : Digits (ds ++ ds') :=
  ⟨List.append_ne_nil_of_left_ne_nil h.ne_nil ds', List.forall_mem_append.2 ⟨h.isDigit, hds⟩⟩

theorem noDigit_dropWhile (cs : List Char) : NoDigit (cs.dropWhile Char.isDigit) := by
  intro c t hc
  have hhead := List.head?_dropWhile_not Char.isDigit cs
  simpa [hc] using hhead

/-- What is written as a numeral should be is a literal, if there are digits before its exponent. -/
theorem Proper.literal (h : n.Proper) (hne : n.whole ≠ [] ∨ n.fraction ≠ []) : Literal n.chars := by
  refine ⟨n.whole ++ n.fraction, n.exponent, rfl, ?_, ?_⟩
  · obtain hnil | ⟨ds, hfraction, hds⟩ := h.fraction
    · rw [hnil, List.append_nil]
      exact .whole ⟨hne.resolve_right fun hf => hf hnil, h.whole⟩
    · rw [hfraction]
      by_cases hwhole : n.whole = []
      · rw [hwhole]
        exact .point ⟨hds.1, hds.2⟩
      · exact .fraction ⟨hwhole, h.whole⟩ ⟨hds.1, hds.2⟩
  · obtain hnil | ⟨e, sign, ds, hexponent, he, hsign, hlength, hds⟩ := h.exponent
    · rw [hnil]
      exact .none
    · rw [hexponent]
      refine .some (isMark_iff.1 he) ?_ ⟨hds.1, hds.2⟩
      match sign, hlength with
      | [], _ => exact .inl rfl
      | [s], _ =>
        have hs := isSign_iff.1 (hsign s List.mem_cons_self)
        simpa using hs

/-! ## No literal is longer than what is split off -/

/-- Digits go on into what follows: the exponent and more digits, up to what begins with none. -/
theorem Power.exists_append (h : Power e) (rest : List Char) : ∃ tail behind, e ++ rest = tail ++ behind ∧
    (∀ c ∈ tail, c.isDigit = true) ∧ NoDigit behind ∧ e.length ≤ tail.length + (takeExponent behind).1.length := by
  cases h with
  | none =>
    exact ⟨rest.takeWhile Char.isDigit, rest.dropWhile Char.isDigit, List.takeWhile_append_dropWhile.symm,
      fun c hc => List.mem_takeWhile_imp hc, noDigit_dropWhile rest, Nat.zero_le _⟩
  | @some e sign ds he hsign h =>
    have hmark := isMark_iff.2 he
    have hds := h.append fun c hc => List.mem_takeWhile_imp (l := rest) hc
    have hsigns : (∀ s ∈ sign, isSign s = true) ∧ sign.length ≤ 1 := by
      rcases hsign with rfl | rfl | rfl <;> simp [isSign]
    have htake := takeExponent_mark hmark hsigns.1 hsigns.2 hds.ne_nil hds.isDigit (noDigit_dropWhile rest)
    have hrest : e :: (sign ++ ds) ++ rest =
        e :: (sign ++ (ds ++ rest.takeWhile Char.isDigit)) ++ rest.dropWhile Char.isDigit := by
      simp [List.takeWhile_append_dropWhile]
    refine ⟨[], e :: (sign ++ ds) ++ rest, rfl, List.forall_mem_nil _, ?_, ?_⟩
    · rintro c t hc
      obtain ⟨rfl, -⟩ := List.cons.inj hc
      rcases he with rfl | rfl <;> rfl
    · rw [hrest, htake]
      simp only [List.length_cons, List.length_append, List.length_nil]
      omega

theorem length_chars_split (cs : List Char) : (cs.takeWhile Char.isDigit).length ≤ (split cs).1.chars.length := by
  simp only [split, chars, List.length_append, Nat.add_assoc]
  exact Nat.le_add_right _ _

theorem chars_split_whole (hds : ∀ c ∈ ds, c.isDigit = true) (hrest : NoDigit rest)
    (hpoint : takeFraction rest = ([], rest)) : (split (ds ++ rest)).1.chars = ds ++ (takeExponent rest).1 := by
  obtain ⟨htake, hdrop⟩ := span_digits hds hrest
  simp only [split, chars, htake, hdrop, hpoint, List.append_nil]

theorem chars_split_fraction (hds : ∀ c ∈ ds, c.isDigit = true) (hds' : Digits ds') (hrest : NoDigit rest) :
    (split (ds ++ ('.' :: ds' ++ rest))).1.chars = ds ++ '.' :: ds' ++ (takeExponent rest).1 := by
  have hpoint : NoDigit ('.' :: ds' ++ rest) := by
    rintro c t hc
    obtain ⟨rfl, -⟩ := List.cons.inj hc
    rfl
  obtain ⟨htake, hdrop⟩ := span_digits hds hpoint
  simp only [split, chars, htake, hdrop, takeFraction_point hds'.ne_nil hds'.isDigit hrest]

/-- A literal with a point is not longer than what is split off. -/
theorem length_le_of_fraction (ds : List Char) (hds : ∀ c ∈ ds, c.isDigit = true) (hds' : Digits ds') (he : Power e)
    (rest : List Char) : (ds ++ '.' :: ds' ++ e).length ≤ (split (ds ++ '.' :: ds' ++ e ++ rest)).1.chars.length := by
  obtain ⟨tail, behind, heq, htail, hbehind, hlength⟩ := he.exists_append rest
  have htext : ds ++ '.' :: ds' ++ e ++ rest = ds ++ ('.' :: (ds' ++ tail) ++ behind) := by simp [heq]
  rw [htext, chars_split_fraction hds (hds'.append htail) hbehind]
  simp only [List.length_append, List.length_cons]
  omega

theorem length_le_split (h : Literal w) (rest : List Char) : w.length ≤ (split (w ++ rest)).1.chars.length := by
  obtain ⟨m, e, rfl, hm, he⟩ := h
  cases hm with
  | fraction h h' => exact length_le_of_fraction _ h.isDigit h' he rest
  | point h => exact length_le_of_fraction [] (List.forall_mem_nil _) h he rest
  | whole h =>
    cases he with
    | none =>
      refine le_trans ?_ (length_chars_split _)
      rw [List.append_nil, List.takeWhile_append_of_pos h.isDigit, List.length_append]
      exact Nat.le_add_right _ _
    | @some e sign ds he hsign h' =>
      -- Digits in front of the mark go no further, and it is no point.
      obtain ⟨tail, behind, heq, htail, hbehind, hlength⟩ := (Power.some he hsign h').exists_append rest
      obtain rfl : tail = [] := by
        cases tail with
        | nil => rfl
        | cons c t =>
          obtain ⟨rfl, -⟩ := List.cons.inj heq
          have hdigit := htail e List.mem_cons_self
          rcases he with rfl | rfl <;> cases hdigit
      have hpoint : takeFraction behind = ([], behind) := by
        refine takeFraction_nil fun c t hc hdot => ?_
        rw [hc, List.nil_append] at heq
        obtain ⟨rfl, -⟩ := List.cons.inj heq
        rcases he with rfl | rfl <;> cases hdot
      rw [List.append_assoc, heq, List.nil_append, chars_split_whole h.isDigit hbehind hpoint, List.length_append,
        List.length_append]
      simpa using hlength

/-- Where a number starts. -/
def Starts : List Char → Prop
  | c :: cs => c.isDigit = true ∨ c = '.' ∧ Lexer.startsWithDigit cs = true
  | [] => False

theorem whole_or_fraction_of_starts {cs : List Char} (h : Starts cs) :
    (split cs).1.whole ≠ [] ∨ (split cs).1.fraction ≠ [] := by
  match cs, h with
  | c :: cs, .inl h => exact .inl (by simp [split, h])
  | c :: d :: cs, .inr ⟨hc, h⟩ =>
    have hd : d.isDigit = true := h
    exact .inr (by simp [split, takeFraction, hc, hd])
  | [c], .inr ⟨_, h⟩ => cases h

/-- **What is split off is the longest literal.** -/
theorem longest_split {cs : List Char} (h : Starts cs) : Longest Literal cs (split cs).1.chars where
  begins := ⟨_, (split_append cs).symm⟩
  holds := (proper_split cs).literal (whole_or_fraction_of_starts h)
  longest := by
    rintro w rest rfl hw
    exact length_le_split hw rest

/-! ## What literals stand for -/

/-- A numeral that is written as it should be has neither a fraction nor an exponent if it is digits only. -/
theorem isWhole_iff (h : n.Proper) : n.isWhole = true ↔ ∀ c ∈ n.chars, c.isDigit = true := by
  simp only [isWhole, Bool.and_eq_true, List.isEmpty_iff]
  constructor
  · rintro ⟨hfraction, hexponent⟩
    simpa [chars, hfraction, hexponent] using h.whole
  · intro hdigits
    constructor
    · obtain hnil | ⟨ds, hfraction, -⟩ := h.fraction
      · exact hnil
      · have hpoint := hdigits '.' (by simp [chars, hfraction])
        cases hpoint
    · obtain hnil | ⟨e, sign, ds, hexponent, he, -⟩ := h.exponent
      · exact hnil
      · have hmark := hdigits e (by simp [chars, hexponent])
        rcases isMark_iff.1 he with rfl | rfl <;> cases hmark

theorem chars_of_isWhole (h : n.isWhole = true) : n.chars = n.whole := by
  simp only [isWhole, Bool.and_eq_true, List.isEmpty_iff] at h
  simp [chars, h]

/-- A special value is not named by what starts as a number. -/
theorem not_named {c : Char} (h : c.isDigit = true ∨ c = '.') (cs : List Char) (name : String)
    (hname : name.toList.head? = some 'i' ∨ name.toList.head? = some 'n') :
    String.ofList ((c :: cs).map Char.toLower) ≠ name := by
  have hlower : c.toLower = c := by
    obtain h | rfl := h
    · simp only [Char.isDigit, Bool.and_eq_true, decide_eq_true_eq] at h
      rw [Char.toLower, dif_neg]
      rintro ⟨hupper, -⟩
      exact absurd (UInt32.le_trans hupper h.2) (by decide)
    · rfl
  rintro rfl
  rw [String.toList_ofList, List.map_cons, List.head?_cons, hlower, Option.some.injEq, Option.some.injEq] at hname
  rcases hname with rfl | rfl <;> exact absurd h (by decide)

/-- **The reader of numbers accepts every literal**, and reads it as its numeral. -/
theorem readFloat_text {cs : List Char} (h : Starts cs) : readFloat (split cs).1.text = some (split cs).1.toFloat := by
  obtain ⟨c, t, hchars, hc⟩ : ∃ c t, (split cs).1.chars = c :: t ∧ (c.isDigit = true ∨ c = '.') := by
    match cs, h with
    | c :: cs, h =>
      obtain ⟨c', t, hchars⟩ := List.exists_cons_of_ne_nil (Lexer.chars_split_ne_nil h)
      have happend := split_append (c :: cs)
      rw [hchars] at happend
      obtain ⟨rfl, -⟩ := List.cons.inj happend
      exact ⟨c', t, hchars, h.imp_right And.left⟩
  have hsign : c ≠ '-' ∧ c ≠ '+' := by
    constructor <;> (rintro rfl; exact absurd hc (by decide))
  have hparts : ((split cs).1.whole.isEmpty && (split cs).1.fraction.isEmpty) = false := by
    simpa [List.isEmpty_iff, imp_iff_not_or] using whole_or_fraction_of_starts h
  have hread : readFloat (split cs).1.text = readFloat.unsigned (c :: t) := by
    rw [readFloat, text, String.toList_ofList, hchars]
    split
    · exact absurd (List.cons.inj ‹_›).1 hsign.1
    · exact absurd (List.cons.inj ‹_›).1 hsign.2
    · rfl
  have hsplit := split_chars cs
  rw [hchars] at hsplit
  rw [hread, readFloat.unsigned]
  have hinf := not_named hc t "inf" (.inl rfl)
  have hinfinity := not_named hc t "infinity" (.inl rfl)
  have hnan := not_named hc t "nan" (.inr rfl)
  simp only [hinf, hinfinity, hnan, hsplit, hparts, decide_false, Bool.or_self, Bool.false_eq_true, if_false]

end Numeral

open Lexer FlatNtuple.Parser

/-! ## Numbers among tokens -/

namespace Lexer

variable {c : Char} {cs : List Char}

theorem scan_starts (h : Numeral.Starts (c :: cs)) : scan c cs = scanNumber (c :: cs) := by
  rw [scan, if_pos]
  simpa [Numeral.Starts] using h

/-- **What a literal stands for depends on its characters only.** -/
theorem scanNumber_eq (cs : List Char) : scanNumber cs =
    let (n, rest) := Numeral.split cs
    if ∀ c ∈ n.chars, c.isDigit = true then
      if Numeral.ofDigits n.chars ≤ 2 ^ 63 - 1 then .token (.integer (Numeral.ofDigits n.chars)) n.chars rest
      else .invalidNumber n.chars rest
    else .token (.decimal n) n.chars rest := by
  have hgreatest : Token.greatestInteger = 2 ^ 63 - 1 := rfl
  have hwhole := Numeral.isWhole_iff (Numeral.proper_split cs)
  simp only [scanNumber, ← hgreatest]
  by_cases h : (Numeral.split cs).1.isWhole = true
  · rw [if_pos h, if_pos (hwhole.1 h), Numeral.chars_of_isWhole h]
  · rw [if_neg h, if_neg fun hdigits => h (hwhole.2 hdigits)]

/-- Decimals stand where a number starts. -/
theorem starts_of_decimal {n : Numeral} {lexeme rest : List Char} (h : scan c cs = .token (.decimal n) lexeme rest) :
    Numeral.Starts (c :: cs) ∧ n = (Numeral.split (c :: cs)).1 := by
  have hscans := scans_of_scan h
  generalize ht : Token.decimal n = t at hscans
  cases hscans with
  | number hstart hscan =>
    refine ⟨hstart, ?_⟩
    rw [scanNumber_eq, ← ht] at hscan
    simp only at hscan
    repeat' split at hscan
    all_goals cases hscan
    rfl
  | word => cases (congrArg Token.isLiteral ht).trans (isLiteral_ofWord _)
  | string => cases ht
  | short _ hsymbol => cases (congrArg Token.isLiteral ht).trans (isLiteral_ofSymbol hsymbol)
  | long hsymbol => cases (congrArg Token.isLiteral ht).trans (isLiteral_ofSymbol hsymbol)

theorem starts_of_invalidNumber {literal rest : List Char} (h : scan c cs = .invalidNumber literal rest) :
    Numeral.Starts (c :: cs) ∧ scanNumber (c :: cs) = .invalidNumber literal rest := by
  unfold scan at h
  split at h
  · rename_i hstart
    exact ⟨by simpa [Numeral.Starts] using hstart, h⟩
  · repeat' split at h
    all_goals cases h

end Lexer

namespace Scanner

/-- What is given for a literal at a position: an integer for digits in range, an error for other digits, and a decimal for
what is not digits only. -/
structure Stands (w : List Char) (p : ℕ) (r : Except ParseError (Option Token)) : Prop where
  integer_iff : ∀ v, r = .ok (some (.integer v)) ↔
    (∀ c ∈ w, c.isDigit = true) ∧ Numeral.ofDigits w ≤ 2 ^ 63 - 1 ∧ v = Numeral.ofDigits w
  invalidNumber_iff : ∀ literal q, r = .error (.invalidNumber literal q) ↔
    (∀ c ∈ w, c.isDigit = true) ∧ 2 ^ 63 - 1 < Numeral.ofDigits w ∧ literal = String.ofList w ∧ q = p
  decimal_iff : (∃ n, r = .ok (some (.decimal n)) ∧ n.text = String.ofList w) ↔ ¬∀ c ∈ w, c.isDigit = true

theorem stands_found (text : String) (start : ℕ) (torn : Bool) (pre cs : List Char) :
    Stands (Numeral.split cs).1.chars (byteLength pre) ((found text start torn pre (scanNumber cs)).1.map some) := by
  rw [scanNumber_eq]
  simp only
  split
  · rename_i hdigits
    split
    · rename_i hrange
      change Stands _ _ (.ok (some (.integer _)))
      refine ⟨fun v => ⟨?_, ?_⟩, fun literal q => ⟨nofun, ?_⟩, ⟨nofun, fun hmore => absurd hdigits hmore⟩⟩
      · rintro ⟨⟩
        exact ⟨hdigits, hrange, rfl⟩
      · rintro ⟨-, -, rfl⟩
        rfl
      · exact fun ⟨_, hlarge, _⟩ => absurd hrange (not_le.2 hlarge)
    · rename_i hlarge
      change Stands _ _ (.error (.invalidNumber _ _))
      refine ⟨fun v => ⟨nofun, ?_⟩, fun literal q => ⟨?_, ?_⟩, ⟨nofun, fun hmore => absurd hdigits hmore⟩⟩
      · exact fun ⟨_, hrange, _⟩ => absurd hrange hlarge
      · rintro ⟨⟩
        exact ⟨hdigits, not_le.1 hlarge, rfl, rfl⟩
      · rintro ⟨-, -, rfl, rfl⟩
        rfl
  · rename_i hmore
    change Stands _ _ (.ok (some (.decimal _)))
    exact ⟨fun v => ⟨nofun, fun h => absurd h.1 hmore⟩, fun literal q => ⟨nofun, fun h => absurd h.1 hmore⟩,
      fun _ => hmore, fun _ => ⟨_, rfl, rfl⟩⟩

theorem isBlank_of_starts {c : Char} {cs : List Char} (h : Numeral.Starts (c :: cs)) : isBlank c = false := by
  obtain h | ⟨rfl, -⟩ := h
  · exact isBlank_of_isNameChar (isNameChar_of_isDigit h)
  · rfl

theorem position_found (text : String) (start : ℕ) (torn : Bool) (pre cs : List Char) :
    (found text start torn pre (scanNumber cs)).2 = past text start torn (pre ++ (Numeral.split cs).1.chars) := by
  rw [scanNumber_eq]
  simp only
  repeat' split
  all_goals rfl

/-- **A number goes as far as the longest literal.** -/
theorem next_number {s : Scanner} {pre blanks cs : List Char} (hposition : s.position = byteLength pre)
    (htext : s.text.toList = pre ++ (blanks ++ cs)) (hblanks : ∀ b ∈ blanks, isBlank b = true) (hstart : Numeral.Starts cs) :
    ∃ w, Longest Numeral.Literal cs w ∧ s.next.2.tokenStart = byteLength (pre ++ blanks) ∧
      s.next.2.position = byteLength (pre ++ blanks) + byteLength w ∧ Stands w (byteLength (pre ++ blanks)) s.next.1 := by
  obtain ⟨text, position, start, torn⟩ := s
  obtain rfl : position = byteLength pre := hposition
  match cs, hstart with
  | c :: cs, hstart =>
    have hnot : ∀ x t, c :: cs = x :: t → isBlank x = false := by
      rintro _ _ ⟨⟩
      exact isBlank_of_starts hstart
    obtain ⟨htake, hdrop⟩ := Numeral.span_append blanks hnot
    rw [List.takeWhile_eq_self_iff.2 hblanks] at htake
    rw [List.dropWhile_eq_nil_iff.2 hblanks, List.nil_append] at hdrop
    have hnext := @next_past text start torn pre (blanks ++ c :: cs) htext
    simp only [htake, hdrop, scan_starts hstart] at hnext
    change (past text start torn pre).next = _ at hnext
    refine ⟨_, Numeral.longest_split hstart, ?_⟩
    change (past text start torn pre).next.2.tokenStart = _ ∧ (past text start torn pre).next.2.position = _ ∧
      Stands _ _ (past text start torn pre).next.1
    rw [hnext]
    refine ⟨?_, ?_, stands_found ..⟩
    · rw [position_found]
      rfl
    · rw [position_found, ← byteLength_append]
      rfl

end Scanner

theorem Expr.failed_of_invalidNumber {text literal : String} {limit p : ℕ}
    (h : Expr.parse text limit = .error (.invalidNumber literal p)) :
    (lex text).ending = .failed (.invalidNumber literal p) := by
  by_cases hnil : (lex text).lexemes = []
  · rw [Expr.parse, whole_nil hnil] at h
    cases hending : (lex text).ending with
    | finished stop => rw [hending] at h; cases h
    | failed e => rw [hending] at h; cases h; rfl
  · rcases whole_error (lex text).ending hnil (Nat.le_refl limit) h with ⟨hdeep, -⟩ | ⟨pre, rest, hls, -, hblames, -⟩
    · obtain ⟨pre, rest, hls, harrive, heq⟩ := hdeep
      cases heq
    · cases rest with
      | cons l rest => obtain h | ⟨what, h⟩ := hblames <;> cases h
      | nil =>
        cases hending : (lex text).ending with
        | failed e =>
          simp only [Setting.Blames, hending] at hblames
          rw [hblames]
        | finished stop =>
          simp only [Setting.Blames, hending] at hblames
          split at hblames <;> cases hblames

/-- A text whose number is too large fails where the number starts. -/
theorem exists_of_invalidNumber {text literal : String} {p : ℕ} (h : (lex text).ending = .failed (.invalidNumber literal p)) :
    ∃ pre cs, text.toList = pre ++ cs ∧ p = byteLength pre ∧ Longest Numeral.Literal cs literal.toList ∧
      (∀ c ∈ literal.toList, c.isDigit = true) ∧ 2 ^ 63 - 1 < Numeral.ofDigits literal.toList := by
  obtain ⟨front, c, cs, hrest, herror, -⟩ := (Cursor.ofString text).exists_of_failed h
  have hposition : (Cursor.ofString text).position + byteLength front = byteLength front := Nat.zero_add _
  rw [hposition] at herror
  cases hscan : scan c cs with
  | token t lexeme rest => rw [hscan] at herror; cases herror
  | invalidCharacter x => rw [hscan] at herror; cases herror
  | unclosedString passed => rw [hscan] at herror; cases herror
  | invalidNumber digits rest =>
    rw [hscan] at herror
    cases herror
    obtain ⟨hstart, hnumber⟩ := starts_of_invalidNumber hscan
    have hstands := Scanner.stands_found text 0 false front (c :: cs)
    rw [hnumber] at hstands
    obtain ⟨hdigits, hlarge, hliteral, -⟩ := (hstands.invalidNumber_iff _ _).1 rfl
    rw [hliteral, String.toList_ofList]
    exact ⟨front, c :: cs, hrest, rfl, Numeral.longest_split hstart, hdigits, hlarge⟩

/-- **Numbers go as far as they can.**  Whatever a scanner has passed of a text, where a number starts behind blanks it
passes the longest literal there, which is an integer, too large, or a decimal by its characters.  Decimals are accepted
by the reader of numbers, so that a parser complains of a number only where digits are too large an integer. -/
theorem Expr.numbers_longest (text : String) :
    (∀ (s : Scanner) (pre blanks cs : List Char), s.text = text → s.position = byteLength pre →
      text.toList = pre ++ (blanks ++ cs) → (∀ b ∈ blanks, isBlank b = true) → Numeral.Starts cs →
      ∃ w, Longest Numeral.Literal cs w ∧ s.next.2.tokenStart = byteLength (pre ++ blanks) ∧
        s.next.2.position = byteLength (pre ++ blanks) + byteLength w ∧
        Scanner.Stands w (byteLength (pre ++ blanks)) s.next.1) ∧
    (∀ l ∈ (lex text).lexemes, ∀ n, l.token = .decimal n → Numeral.readFloat n.text = some n.toFloat) ∧
    ∀ limit literal p, Expr.parse text limit = .error (.invalidNumber literal p) →
      ∃ pre cs, text.toList = pre ++ cs ∧ p = byteLength pre ∧ Longest Numeral.Literal cs literal.toList ∧
        (∀ c ∈ literal.toList, c.isDigit = true) ∧ 2 ^ 63 - 1 < Numeral.ofDigits literal.toList := by
  refine ⟨?_, fun l hl n hn => ?_, fun limit literal p h => exists_of_invalidNumber (Expr.failed_of_invalidNumber h)⟩
  · rintro s pre blanks cs rfl hposition htext hblanks hstart
    exact Scanner.next_number hposition htext hblanks hstart
  · obtain ⟨c, cs, lexeme, rest, hscan⟩ := Cursor.exists_scan _ hl
    rw [hn] at hscan
    obtain ⟨hstart, rfl⟩ := starts_of_decimal hscan
    exact Numeral.readFloat_text hstart

/-- A point without a digit behind it and a mark without one are left over, and a number behind a name is too large. -/
theorem Expr.numbers_longest_parts :
    (∃ w, Longest Numeral.Literal ['1', '.', 'e', '5'] w ∧ (Scanner.ofString " 1.e5").next.2.position = 1 + byteLength w ∧
      Numeral.ofDigits w = 1 ∧ byteLength w = 1) ∧
    (∃ w, Longest Numeral.Literal ['2', '.', '5', 'e', '+'] w ∧
      (Scanner.ofString "2.5e+").next.2.position = byteLength w ∧ byteLength w = 3 ∧ ¬∀ c ∈ w, c.isDigit = true) ∧
    Expr.parse "pt * 9223372036854775808" 9 = .error (.invalidNumber "9223372036854775808" 5) ∧
    2 ^ 63 - 1 < Numeral.ofDigits "9223372036854775808".toList := by
  refine ⟨?_, ?_, ?_⟩
  · obtain ⟨w, hlongest, -, hposition, hstands⟩ := (Expr.numbers_longest " 1.e5").1 (.ofString " 1.e5") [] [' ']
      ['1', '.', 'e', '5'] rfl rfl (by simp) (List.forall_mem_singleton.2 rfl) (.inl rfl)
    have hone : (Scanner.ofString " 1.e5").next.1 = .ok (some (.integer 1)) := by cbv
    have hstop : (Scanner.ofString " 1.e5").next.2.position = 2 := by cbv
    have hfront : byteLength ([] ++ [' ']) = 1 := rfl
    rw [hfront] at hposition
    obtain ⟨-, -, hvalue⟩ := (hstands.integer_iff 1).1 hone
    exact ⟨w, hlongest, hposition, hvalue.symm, by omega⟩
  · obtain ⟨w, hlongest, -, hposition, hstands⟩ := (Expr.numbers_longest "2.5e+").1 (.ofString "2.5e+") [] []
      ['2', '.', '5', 'e', '+'] rfl rfl (by simp) (List.forall_mem_nil _) (.inl rfl)
    have hdecimal : (Scanner.ofString "2.5e+").next.1 = .ok (some (.decimal ⟨['2'], ['.', '5'], []⟩)) := by cbv
    have hstop : (Scanner.ofString "2.5e+").next.2.position = 3 := by cbv
    have hfront : byteLength ([] ++ []) = 0 := rfl
    rw [hfront, Nat.zero_add] at hposition
    have hmore : ¬∀ c ∈ w, c.isDigit = true := by
      intro hdigits
      obtain hrange | hlarge := le_or_gt (Numeral.ofDigits w) (2 ^ 63 - 1)
      · cases hdecimal.symm.trans ((hstands.integer_iff _).2 ⟨hdigits, hrange, rfl⟩)
      · cases hdecimal.symm.trans ((hstands.invalidNumber_iff _ _).2 ⟨hdigits, hlarge, rfl, rfl⟩)
    exact ⟨w, hlongest, hposition, by omega, hmore⟩
  · have herror : Expr.parse "pt * 9223372036854775808" 9 = .error (.invalidNumber "9223372036854775808" 5) := by cbv
    obtain ⟨pre, cs, -, -, -, -, hlarge⟩ := (Expr.numbers_longest _).2.2 _ _ _ herror
    exact ⟨herror, hlarge⟩

end FlatNtuple
