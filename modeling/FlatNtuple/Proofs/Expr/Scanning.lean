import FlatNtuple.Proofs.Expr.Isolation
/-!
# The scanner finds the tokens

A scanner that has come past whole characters looks at the first byte of the next one, and what it makes of that byte is
what is made of the character (`token_past`): the classes it asks about are ASCII, and it stops at ASCII only.  The one
move that may end inside a character, the two bytes at a backslash, leads to bytes that the search for a quote passes
over (`findQuote_utf8`).
-/
namespace FlatNtuple
namespace Scanner

open Lexer

variable {text : String} {start : Nat} {torn : Bool} {pre cs : List Char} {c : Char}

/-- A scanner that has come past some characters. -/
def past (text : String) (start : Nat) (torn : Bool) (pre : List Char) : Scanner :=
  ⟨text, byteLength pre, start, torn⟩

/-! ## Looking ahead -/

theorem bytes_past (h : text.toList = pre ++ cs) : (past text start torn pre).bytes = utf8 cs := by
  rw [bytes, past, toList_toUTF8, h, utf8_append, ← length_utf8, List.drop_left]

theorem getElem?_utf8_zero (cs : List Char) : (utf8 cs)[0]?.map Char.ofUInt8 = cs.head?.map lead := by
  cases cs with
  | nil => rfl
  | cons c cs =>
    obtain ⟨b, bs, hbytes, -⟩ := exists_utf8EncodeChar c
    simp [utf8_cons, hbytes, lead]

theorem peek_past (h : text.toList = pre ++ cs) : (past text start torn pre).peek 0 = cs.head?.map lead := by
  rw [peek, bytes_past h, getElem?_utf8_zero]

theorem peek_advance (s : Scanner) (n k : Nat) : (s.advance n).peek k = s.peek (n + k) := by
  simp [peek, bytes, advance, Nat.add_assoc]

theorem advance_past {front : List Char} (hfront : ∀ c ∈ front, c.toNat < 128) :
    (past text start torn pre).advance front.length = past text start torn (pre ++ front) := by
  simp only [past, advance, byteLength_append, byteLength_of_ascii hfront]

theorem advance_one (hc : c.toNat < 128) : (past text start torn pre).advance 1 = past text start torn (pre ++ [c]) :=
  advance_past (List.forall_mem_singleton.2 hc)

theorem peek_behind {front : List Char} (hfront : ∀ c ∈ front, c.toNat < 128) (h : text.toList = pre ++ (front ++ cs)) :
    (past text start torn pre).peek front.length = cs.head?.map lead := by
  have hpeek := peek_advance (past text start torn pre) front.length 0
  rw [advance_past hfront, peek_past (by simpa using h)] at hpeek
  exact hpeek.symm

theorem peek_one (h : text.toList = pre ++ c :: cs) (hc : c.toNat < 128) :
    (past text start torn pre).peek 1 = cs.head?.map lead :=
  peek_behind (List.forall_mem_singleton.2 hc) h

theorem skipWhile_past (h : text.toList = pre ++ cs) {p : Char → Bool} (hp : AsciiClass p) :
    (past text start torn pre).skipWhile p = past text start torn (pre ++ cs.takeWhile p) := by
  rw [skipWhile, bytes_past h, hp.takeWhile_utf8, length_utf8]
  simp [past, advance, byteLength_append]

theorem cut_past {mid : List Char} (h : text.toList = pre ++ mid ++ cs) :
    (past text start torn (pre ++ mid)).cut (byteLength pre) = (String.ofList mid, past text start torn (pre ++ mid)) := by
  simp only [cut, past, slice?_append h]

theorem character_past (h : text.toList = pre ++ c :: cs) :
    (past text start torn pre).character = (c, past text start torn pre) := by
  have hsize : text.utf8ByteSize = byteLength (pre ++ c :: cs) := by rw [utf8ByteSize_eq, h]
  have hslice := slice?_append (show text.toList = pre ++ c :: cs ++ [] by simpa using h)
  simp only [character, past, hsize, hslice, Option.bind_some, String.toList_ofList, List.head?_cons]

/-! ## The classes of characters are ASCII -/

theorem asciiClass_isDigit : AsciiClass Char.isDigit := by
  intro c hc
  simp only [Char.isDigit, Bool.and_eq_true, decide_eq_true_eq] at hc
  exact Nat.lt_of_le_of_lt hc.2 (by decide)

theorem asciiClass_isAlpha : AsciiClass Char.isAlpha := by
  intro c hc
  simp only [Char.isAlpha, Char.isUpper, Char.isLower, Bool.or_eq_true, Bool.and_eq_true, decide_eq_true_eq] at hc
  rcases hc with ⟨-, hc⟩ | ⟨-, hc⟩
  · exact Nat.lt_of_le_of_lt hc (by decide)
  · exact Nat.lt_of_le_of_lt hc (by decide)

theorem asciiClass_isBlank : AsciiClass isBlank :=
  (((asciiClass_eq (by decide)).or (asciiClass_eq (by decide))).or (asciiClass_eq (by decide))).or (asciiClass_eq (by decide))

theorem asciiClass_isNameStart : AsciiClass isNameStart := asciiClass_isAlpha.or (asciiClass_eq (by decide))

theorem asciiClass_isNameChar : AsciiClass isNameChar :=
  (asciiClass_isAlpha.or asciiClass_isDigit).or (asciiClass_eq (by decide))

theorem asciiClass_isMark : AsciiClass Numeral.isMark := (asciiClass_eq (by decide)).or (asciiClass_eq (by decide))

theorem asciiClass_isSign : AsciiClass Numeral.isSign := (asciiClass_eq (by decide)).or (asciiClass_eq (by decide))

theorem any_peek_past (h : text.toList = pre ++ cs) {p : Char → Bool} (hp : AsciiClass p) :
    ((past text start torn pre).peek 0).any p = cs.head?.any p := by
  rw [peek_past h, hp.any_lead]

theorem any_peek_one (h : text.toList = pre ++ c :: cs) (hc : c.toNat < 128) {p : Char → Bool} (hp : AsciiClass p) :
    ((past text start torn pre).peek 1).any p = cs.head?.any p := by
  rw [peek_one h hc, hp.any_lead]

/-! ## Numbers -/

theorem any_isDigit_head (cs : List Char) : cs.head?.any Char.isDigit = startsWithDigit cs := by
  cases cs <;> rfl

/-- Whether a fraction begins. -/
theorem peek_point (h : text.toList = pre ++ cs) :
    ((past text start torn pre).peek 0 = some '.' && ((past text start torn pre).peek 1).any Char.isDigit) =
      (cs.head? = some '.' && startsWithDigit cs.tail) := by
  rw [peek_past h]
  cases cs with
  | nil => rfl
  | cons c t =>
    by_cases hc : c = '.'
    · subst hc
      rw [any_peek_one h (by decide) asciiClass_isDigit, any_isDigit_head]
      rfl
    · have hlead : lead c ≠ '.' := fun hlead => hc ((lead_eq_iff (by decide)).1 hlead)
      simp [hc, hlead]

theorem skipFraction_past (h : text.toList = pre ++ cs) : (past text start torn pre).skipFraction =
    (!(Numeral.takeFraction cs).1.isEmpty, past text start torn (pre ++ (Numeral.takeFraction cs).1)) := by
  unfold skipFraction
  rw [peek_point h]
  match cs, h with
  | [], h => simp [Numeral.takeFraction]
  | [c], h => simp [Numeral.takeFraction, startsWithDigit]
  | c :: d :: ds, h =>
    by_cases hpoint : c = '.' ∧ d.isDigit = true
    · obtain ⟨rfl, hd⟩ := hpoint
      have hnext : text.toList = pre ++ ['.'] ++ (d :: ds) := by simp [h]
      simp [startsWithDigit, hd, advance_one (show '.'.toNat < 128 by decide), skipWhile_past hnext asciiClass_isDigit,
        Numeral.takeFraction]
    · have hnone : Numeral.takeFraction (c :: d :: ds) = ([], c :: d :: ds) := by
        refine Numeral.takeFraction_nil fun _ _ hcs hc _ _ ht => ?_
        cases hcs
        cases ht
        simpa [hc] using hpoint
      have hcond : (decide (c = '.') && d.isDigit) = false := by simpa using hpoint
      simp [hnone, startsWithDigit, hcond]

theorem isDigit_of_isSign {s : Char} (h : Numeral.isSign s = true) : s.isDigit = false := by
  by_contra hdigit
  rw [Numeral.not_isSign_of_isDigit (Bool.not_eq_false _ ▸ hdigit)] at h
  cases h

/-- An exponent is taken as far as its digits go, if there are any behind its mark and its sign. -/
theorem takeExponent_eq {e : Char} {sign ds : List Char} (he : Numeral.isMark e = true)
    (hsign : ∀ s ∈ sign, Numeral.isSign s = true) (hlength : sign.length ≤ 1)
    (hall : sign = [] → ds.head?.any Numeral.isSign = false) :
    (Numeral.takeExponent (e :: (sign ++ ds))).1 =
      if ds.head?.any Char.isDigit then e :: (sign ++ ds.takeWhile Char.isDigit) else [] := by
  by_cases hd : ds.head?.any Char.isDigit = true
  · have hne : ds.takeWhile Char.isDigit ≠ [] := by
      cases ds with
      | nil => cases hd
      | cons d ds => simp_all
    have hrest : Numeral.NoDigit (ds.dropWhile Char.isDigit) := by
      intro c t hc
      have hhead := List.head?_dropWhile_not Char.isDigit ds
      simpa [hc] using hhead
    have hmark := Numeral.takeExponent_mark he hsign hlength hne (fun _ hc => List.mem_takeWhile_imp hc) hrest
    rw [List.cons_append, List.append_assoc, List.takeWhile_append_dropWhile] at hmark
    rw [hmark, if_pos hd]
  · rw [if_neg hd]
    match sign, ds, hsign, hlength with
    | [], [], _, _ => rfl
    | [], [d], _, _ => simp_all [Numeral.takeExponent]
    | [], d :: x :: ds, _, _ => simp_all [Numeral.takeExponent]
    | [s], [], hsign, _ =>
      have hs := isDigit_of_isSign (hsign s List.mem_cons_self)
      simp [Numeral.takeExponent, hs]
    | [s], d :: ds, hsign, _ =>
      have hs := isDigit_of_isSign (hsign s List.mem_cons_self)
      simp_all [Numeral.takeExponent]

/-- The sign in front of some digits, if there is one. -/
theorem exists_sign (cs : List Char) : ∃ sign ds, cs = sign ++ ds ∧ (∀ s ∈ sign, Numeral.isSign s = true) ∧
    (sign = [] → ds.head?.any Numeral.isSign = false) ∧ sign.length = if cs.head?.any Numeral.isSign then 1 else 0 := by
  cases cs with
  | nil => exact ⟨[], [], rfl, nofun, fun _ => rfl, rfl⟩
  | cons s ds =>
    by_cases hs : Numeral.isSign s = true
    · exact ⟨[s], ds, rfl, List.forall_mem_singleton.2 hs, nofun, by simp [hs]⟩
    · exact ⟨[], s :: ds, rfl, nofun, fun _ => by simpa using hs, by simp [hs]⟩

theorem skipExponent_past (h : text.toList = pre ++ cs) : (past text start torn pre).skipExponent =
    (!(Numeral.takeExponent cs).1.isEmpty, past text start torn (pre ++ (Numeral.takeExponent cs).1)) := by
  unfold skipExponent
  extract_lets digitsAt
  rw [any_peek_past h asciiClass_isMark]
  cases cs with
  | nil => simp [Numeral.takeExponent]
  | cons e t =>
    by_cases he : Numeral.isMark e = true
    · have hmark := asciiClass_isMark e he
      have hsignAt : digitsAt = if t.head?.any Numeral.isSign then 2 else 1 := by
        simp only [digitsAt, any_peek_one h hmark asciiClass_isSign]
      obtain ⟨sign, ds, rfl, hsign, hall, hlength⟩ := exists_sign t
      have hfront : ∀ c ∈ e :: sign, c.toNat < 128 :=
        List.forall_mem_cons.2 ⟨hmark, fun s hs => asciiClass_isSign s (hsign s hs)⟩
      have hdigitsAt : digitsAt = (e :: sign).length := by
        rw [hsignAt, List.length_cons, hlength]
        split <;> rfl
      have hds : text.toList = pre ++ (e :: sign) ++ ds := by simp [h]
      rw [takeExponent_eq he hsign (by rw [hlength]; split <;> decide) hall, hdigitsAt, peek_behind hfront h,
        asciiClass_isDigit.any_lead, advance_past hfront, skipWhile_past hds asciiClass_isDigit]
      by_cases hd : ds.head?.any Char.isDigit = true
      · simp [he, hd]
      · simp [he, hd]
    · have hnone : Numeral.takeExponent (e :: t) = ([], e :: t) := Numeral.takeExponent_nil fun _ _ hcs => by
        cases hcs
        simpa using he
      simp [he, hnone]

/-- What a scanner makes of the way the characters behind those it has come past read. -/
def found (text : String) (start : Nat) (torn : Bool) (pre : List Char) : Scan → Except ParseError Token × Scanner
  | .token t lexeme _ => (.ok t, past text start torn (pre ++ lexeme))
  | .invalidCharacter x => (.error (.invalidCharacter x (byteLength pre)), past text start torn pre)
  | .invalidNumber literal _ =>
    (.error (.invalidNumber (String.ofList literal) (byteLength pre)), past text start torn (pre ++ literal))
  | .unclosedString passed => (.error (.unclosedString (byteLength pre)), ⟨text, byteLength pre + passed, start, torn⟩)

theorem integer?_eq {ds : List Char} (hne : ds ≠ []) : integer? (String.ofList ds) =
    if Numeral.ofDigits ds ≤ Token.greatestInteger then some (Numeral.ofDigits ds) else none := by
  have hempty : (String.ofList ds).isEmpty = false := by simpa using hne
  simp [integer?, hempty]

/-- The moves over a number end behind its numeral, and tell whether it has a fraction or an exponent. -/
theorem numeral_past (h : text.toList = pre ++ cs) :
    ((past text start torn pre).skipWhile Char.isDigit).skipFraction.1 = !(Numeral.split cs).1.fraction.isEmpty ∧
    ((past text start torn pre).skipWhile Char.isDigit).skipFraction.2.skipExponent =
      (!(Numeral.split cs).1.exponent.isEmpty, past text start torn (pre ++ (Numeral.split cs).1.chars)) := by
  have hwhole : (Numeral.split cs).1.whole = cs.takeWhile Char.isDigit := rfl
  have hfraction : (Numeral.split cs).1.fraction = (Numeral.takeFraction (cs.dropWhile Char.isDigit)).1 := rfl
  have hexponent : (Numeral.split cs).1.exponent =
      (Numeral.takeExponent (Numeral.takeFraction (cs.dropWhile Char.isDigit)).2).1 := rfl
  have h₁ : text.toList = (pre ++ (Numeral.split cs).1.whole) ++ cs.dropWhile Char.isDigit := by
    rw [hwhole, List.append_assoc, List.takeWhile_append_dropWhile, h]
  have h₂ : text.toList = (pre ++ (Numeral.split cs).1.whole ++ (Numeral.split cs).1.fraction) ++
      (Numeral.takeFraction (cs.dropWhile Char.isDigit)).2 := by
    rw [hfraction, List.append_assoc _ _ (Prod.snd _), Numeral.takeFraction_append, h₁]
  rw [skipWhile_past h asciiClass_isDigit, ← hwhole, skipFraction_past h₁, ← hfraction, skipExponent_past h₂, ← hexponent]
  simp only [Numeral.chars, List.append_assoc, and_self]

theorem number_past (h : text.toList = pre ++ cs) (hne : (Numeral.split cs).1.chars ≠ []) :
    (past text start torn pre).number = found text start torn pre (scanNumber cs) := by
  obtain ⟨hfraction, hmoved⟩ := @numeral_past text start torn pre cs h
  have hcut : text.toList = pre ++ (Numeral.split cs).1.chars ++ (Numeral.split cs).2 := by
    rw [List.append_assoc, Numeral.split_append, h]
  have hposition : (past text start torn pre).position = byteLength pre := rfl
  simp only [number, hmoved, hfraction, hposition, cut_past hcut, String.toList_ofList, Numeral.split_chars,
    integer?_eq hne, scanNumber]
  by_cases hwhole : (Numeral.split cs).1.isWhole = true
  · have hparts := hwhole
    simp only [Numeral.isWhole, Bool.and_eq_true, List.isEmpty_iff] at hparts
    have hchars : (Numeral.split cs).1.chars = (Numeral.split cs).1.whole := by simp [Numeral.chars, hparts]
    by_cases hrange : Numeral.ofDigits (Numeral.split cs).1.whole ≤ Token.greatestInteger
    · simp [hwhole, hparts, hchars, hrange, found]
    · simp [hwhole, hparts, hchars, hrange, found]
  · have hparts : (!(Numeral.split cs).1.fraction.isEmpty || !(Numeral.split cs).1.exponent.isEmpty) = true := by
      rwa [← Bool.not_and, Bool.not_eq_true', ← Bool.not_eq_true]
    simp [hwhole, hparts, found]

theorem word_past (h : text.toList = pre ++ cs) : (past text start torn pre).word =
    (.ok (.ofWord (String.ofList (cs.takeWhile isNameChar))), past text start torn (pre ++ cs.takeWhile isNameChar)) := by
  have hcut : text.toList = pre ++ cs.takeWhile isNameChar ++ cs.dropWhile isNameChar := by
    rw [List.append_assoc, List.takeWhile_append_dropWhile, h]
  have hposition : (past text start torn pre).position = byteLength pre := rfl
  simp only [word, skipWhile_past h asciiClass_isNameChar, hposition, cut_past hcut]

/-! ## Strings -/

theorem findQuote_cons {quote : Char} {b : UInt8} (hb : Char.ofUInt8 b ≠ quote) (hslash : Char.ofUInt8 b ≠ '\\')
    (bs : List UInt8) : findQuote quote (b :: bs) = ((findQuote quote bs).1 + 1, (findQuote quote bs).2) := by
  cases bs <;> simp [findQuote, hb, hslash]

theorem findQuote_found {quote : Char} {b : UInt8} (hb : Char.ofUInt8 b = quote) (bs : List UInt8) :
    findQuote quote (b :: bs) = (0, true) := by
  cases bs <;> simp [findQuote, hb]

theorem findQuote_skip {quote : Char} {bs : List UInt8}
    (hbs : ∀ b ∈ bs, Char.ofUInt8 b ≠ quote ∧ Char.ofUInt8 b ≠ '\\') (rest : List UInt8) :
    findQuote quote (bs ++ rest) = ((findQuote quote rest).1 + bs.length, (findQuote quote rest).2) := by
  induction bs with
  | nil => rfl
  | cons b bs ih =>
    rw [List.forall_mem_cons] at hbs
    rw [List.cons_append, findQuote_cons hbs.1.1 hbs.1.2, ih hbs.2]
    rfl

theorem findQuote_backslash {quote : Char} {b : UInt8} (hne : quote ≠ '\\') (hb : Char.ofUInt8 b = '\\') (x : UInt8)
    (bs : List UInt8) : findQuote quote (b :: x :: bs) = ((findQuote quote bs).1 + 2, (findQuote quote bs).2) := by
  simp [findQuote, hb, hne.symm]

theorem exists_lead (c : Char) : ∃ b bs, String.utf8EncodeChar c = b :: bs ∧ Char.ofUInt8 b = lead c ∧
    (∀ x ∈ bs, High x) ∧ c.utf8Size = bs.length + 1 := by
  obtain ⟨b, bs, hbytes, -, -, hhigh⟩ := exists_utf8EncodeChar c
  refine ⟨b, bs, hbytes, by simp [lead, hbytes], hhigh, ?_⟩
  rw [← String.length_utf8EncodeChar, hbytes, List.length_cons]

theorem passedBytes_cons (hc : c ≠ '\\') (cs : List Char) : passedBytes (c :: cs) = c.utf8Size + passedBytes cs := by
  rw [passedBytes]
  · exact fun h _ => hc h
  · exact fun _ _ h _ => hc h

/-- **The search for a quote among bytes finds the one that closes the string.**  What a backslash takes along is the
first byte of a character; the others are passed over like any byte that is no quote. -/
theorem findQuote_utf8 {quote : Char} (hquote : quote.toNat < 128) (hne : quote ≠ '\\') (cs : List Char) :
    findQuote quote (utf8 cs) = match closeString quote cs with
      | some (raw, _) => (byteLength raw, true)
      | none => (passedBytes cs, false) := by
  have hhigh {bs : List UInt8} (hbs : ∀ b ∈ bs, High b) :
      ∀ b ∈ bs, Char.ofUInt8 b ≠ quote ∧ Char.ofUInt8 b ≠ '\\' :=
    fun b hb => ⟨(hbs b hb).ne hquote, (hbs b hb).ne (by decide)⟩
  fun_induction closeString quote cs with
  | case1 => rfl
  | case2 =>
    obtain ⟨b, bs, hbytes, hb, -, hsize⟩ := exists_lead '\\'
    obtain rfl : bs = [] := List.length_eq_zero_iff.1 (Nat.succ.inj hsize.symm)
    have hslash : Char.ofUInt8 b = '\\' := hb
    simp [utf8, hbytes, findQuote, hslash, hne.symm, passedBytes]
  | case3 c cs ih =>
    obtain ⟨x, xs, hslash, hx, -, hsize⟩ := exists_lead '\\'
    obtain rfl : xs = [] := List.length_eq_zero_iff.1 (Nat.succ.inj hsize.symm)
    obtain ⟨b, bs, hbytes, hb, hbs, hlength⟩ := exists_lead c
    rw [utf8_cons, utf8_cons, hslash, hbytes, List.cons_append, List.nil_append, List.cons_append,
      findQuote_backslash hne hx, findQuote_skip (hhigh hbs), ih, passedBytes]
    cases closeString quote cs with
    | none => simp [hlength]; omega
    | some r =>
      have hone : Char.utf8Size '\\' = 1 := rfl
      simp [hlength, hone, byteLength_cons]
      omega
  | case4 cs hlast hmore =>
    obtain ⟨b, bs, hbytes, hb, -⟩ := exists_lead quote
    rw [utf8_cons, hbytes, List.cons_append, findQuote_found (hb.trans (lead_of_ascii hquote))]
    rfl
  | case5 c cs hlast hmore hc ih =>
    have hbackslash : c ≠ '\\' := ne_backslash hlast hmore
    obtain ⟨b, bs, hbytes, hb, hbs, hlength⟩ := exists_lead c
    have hskip : ∀ x ∈ b :: bs, Char.ofUInt8 x ≠ quote ∧ Char.ofUInt8 x ≠ '\\' := by
      refine List.forall_mem_cons.2 ⟨?_, hhigh hbs⟩
      rw [hb]
      exact ⟨fun h => hc ((lead_eq_iff hquote).1 h), fun h => hbackslash ((lead_eq_iff (by decide)).1 h)⟩
    rw [utf8_cons, hbytes, findQuote_skip hskip, ih, passedBytes_cons hbackslash]
    cases closeString quote cs with
    | none => simp [hlength]; omega
    | some r => simp [hlength, byteLength_cons]; omega

theorem string_past (h : text.toList = pre ++ c :: cs) (hc : c = '\'' ∨ c = '"') : (past text start torn pre).string c =
    found text start torn pre (match closeString c cs with
      | some (raw, rest) => .token (.string (String.ofList raw)) (c :: raw ++ [c]) rest
      | none => .unclosedString (1 + passedBytes cs)) := by
  have hquote : c.toNat < 128 ∧ c ≠ '\\' := by rcases hc with rfl | rfl <;> decide
  have hbehind : text.toList = pre ++ [c] ++ cs := by simp [h]
  have hopening : (past text start torn pre).position = byteLength pre := rfl
  simp only [string, hopening, advance_one hquote.1, bytes_past hbehind, findQuote_utf8 hquote.1 hquote.2]
  cases hclose : closeString c cs with
  | none => simp [past, advance, found, byteLength_append, byteLength_of_ascii, hquote.1, Nat.add_assoc]
  | some r =>
    obtain ⟨raw, rest⟩ := r
    have hcut : text.toList = pre ++ [c] ++ raw ++ (c :: rest) := by
      rw [hbehind, List.append_assoc _ raw, closeString_append hclose]
    have hmoved : (past text start torn (pre ++ [c])).advance (byteLength raw) =
        past text start torn (pre ++ [c] ++ raw) := by simp only [past, advance, byteLength_append]
    have hposition : (past text start torn (pre ++ [c])).position = byteLength (pre ++ [c]) := rfl
    simp only [hmoved, hposition, cut_past hcut, advance_one hquote.1, found]
    simp

/-! ## Symbols -/

theorem ofSymbol_high (hc : 128 ≤ c.toNat) (next : Option Char) : Token.ofSymbol c next = none := by
  unfold Token.ofSymbol
  split <;> first | rfl | exact absurd hc (by decide)

theorem ofSymbol_lead (c : Char) (next : Option Char) :
    Token.ofSymbol c (next.map lead) = Token.ofSymbol c next := by
  cases next with
  | none => rfl
  | some x =>
    have heq : lead x = '=' ↔ x = '=' := lead_eq_iff (by decide)
    have hand : lead x = '&' ↔ x = '&' := lead_eq_iff (by decide)
    have hor : lead x = '|' ↔ x = '|' := lead_eq_iff (by decide)
    unfold Token.ofSymbol
    split <;> simp [heq, hand, hor]

/-- What a symbol takes along is an ASCII character. -/
theorem ofSymbol_next {x : Char} {t : Token} (h : Token.ofSymbol c (some x) = some (t, true)) : x.toNat < 128 := by
  have hx : x = '=' ∨ x = '&' ∨ x = '|' := by
    unfold Token.ofSymbol at h
    split at h <;> grind
  rcases hx with rfl | rfl | rfl <;> decide

theorem symbol_past (h : text.toList = pre ++ c :: cs) {t : Token} {long : Bool}
    (ht : Token.ofSymbol c cs.head? = some (t, long)) :
    (past text start torn pre).advance (if long then 2 else 1) =
      past text start torn (pre ++ if long then c :: cs.take 1 else [c]) := by
  have hc : c.toNat < 128 := by
    by_contra hc
    rw [ofSymbol_high (Nat.not_lt.1 hc)] at ht
    cases ht
  cases long with
  | false => exact advance_one hc
  | true =>
    obtain ⟨x, xs, rfl⟩ := ofSymbol_long ht
    have hfront : ∀ y ∈ [c, x], y.toNat < 128 := by simp [hc, ofSymbol_next ht]
    exact advance_past hfront

theorem ofSymbol_peek (h : text.toList = pre ++ c :: cs) :
    Token.ofSymbol (lead c) ((past text start torn pre).peek 1) = Token.ofSymbol c cs.head? := by
  rcases Nat.lt_or_ge c.toNat 128 with hc | hc
  · rw [lead_of_ascii hc, peek_one h hc, ofSymbol_lead]
  · rw [ofSymbol_high hc, ofSymbol_high (lead_of_not_ascii hc)]

/-- **What is made of the first byte of a character is what is made of the character.** -/
theorem token_past (h : text.toList = pre ++ c :: cs) :
    (past text start torn pre).token (lead c) = found text start torn pre (scan c cs) := by
  have hpoint : ((lead c).isDigit || (lead c = '.' && ((past text start torn pre).peek 1).any Char.isDigit)) =
      (c.isDigit || (c = '.' && startsWithDigit cs)) := by
    have hpoint := @peek_point text start torn pre (c :: cs) h
    rw [peek_past h] at hpoint
    rw [asciiClass_isDigit.lead]
    exact congrArg (c.isDigit || ·) (by simpa using hpoint)
  have hquote : (lead c = '\'' || lead c = '"') = (c = '\'' || c = '"') :=
    (AsciiClass.or (asciiClass_eq (by decide)) (asciiClass_eq (by decide)) : AsciiClass fun c => c = '\'' || c = '"').lead c
  unfold token scan
  rw [hpoint, hquote, asciiClass_isNameStart.lead]
  split
  · rename_i hnumber
    exact number_past h (chars_split_ne_nil (by simpa using hnumber))
  split
  · rename_i hname
    have hchar := isNameChar_of_isNameStart hname
    rw [word_past h, List.takeWhile_cons_of_pos hchar]
    rfl
  split
  · rename_i hc
    have hc : c = '\'' ∨ c = '"' := by simpa using hc
    have hlead : lead c = c := lead_of_ascii (by rcases hc with rfl | rfl <;> decide)
    rw [hlead]
    exact string_past h hc
  · rw [ofSymbol_peek h]
    cases hsymbol : Token.ofSymbol c cs.head? with
    | none =>
      simp only [character_past h]
      rfl
    | some r =>
      obtain ⟨t, long⟩ := r
      simp only [symbol_past h hsymbol]
      cases long <;> rfl

/-! ## Runs -/

/-- A scanner and a cursor at the same place.  Both may have been led past the end by a string that is not closed. -/
structure Beside (s : Scanner) (c : Cursor) : Prop where
  position : c.position = s.position
  tokenStart : c.tokenStart = s.tokenStart
  rest : ∃ pre, s.text.toList = pre ++ c.rest ∧
    (s.position = byteLength pre ∨ c.rest = [] ∧ byteLength pre ≤ s.position)

/-- What a scanner gives for what a cursor comes upon. -/
def given : Cursor.Found → Except ParseError (Option Token)
  | .lexeme l => .ok (some l.token)
  | .finish => .ok none
  | .error e => .error e

theorem next_past (h : text.toList = pre ++ cs) : (past text start torn pre).next =
    let front := pre ++ cs.takeWhile isBlank
    match cs.dropWhile isBlank with
    | [] => (.ok none, past text (byteLength front) torn front)
    | c :: cs =>
      let (t, s) := found text (byteLength front) torn front (scan c cs)
      (t.map some, s) := by
  have hfront : text.toList = (pre ++ cs.takeWhile isBlank) ++ cs.dropWhile isBlank := by
    rw [List.append_assoc, List.takeWhile_append_dropWhile, h]
  have hstart : { past text start torn (pre ++ cs.takeWhile isBlank) with
      tokenStart := (past text start torn (pre ++ cs.takeWhile isBlank)).position } =
      past text (byteLength (pre ++ cs.takeWhile isBlank)) torn (pre ++ cs.takeWhile isBlank) := rfl
  simp only [next, skipWhile_past h asciiClass_isBlank, hstart, peek_past hfront]
  cases hd : cs.dropWhile isBlank with
  | nil => rfl
  | cons c t =>
    rw [hd] at hfront
    simp only [List.head?_cons, Option.map_some, token_past hfront]

theorem next_beyond {s : Scanner} (h : s.bytes = []) : s.next = (.ok none, { s with tokenStart := s.position }) := by
  have hskip : s.skipWhile isBlank = s := by simp [skipWhile, advance, h]
  have hpeek : peek { s with tokenStart := s.position } 0 = none := by
    change (s.bytes[0]?).map Char.ofUInt8 = none
    rw [h]
    rfl
  simp only [next, hskip, hpeek]

theorem scan_invalidNumber {literal rest : List Char} (h : scan c cs = .invalidNumber literal rest) :
    literal ++ rest = c :: cs := by
  unfold scan at h
  split at h
  · unfold scanNumber at h
    simp only at h
    repeat' split at h
    all_goals cases h
    exact Numeral.split_append _
  · repeat' split at h
    all_goals cases h

theorem byteLength_le_passedBytes (cs : List Char) : byteLength cs ≤ passedBytes cs := by
  fun_induction passedBytes cs with
  | case1 => exact Nat.zero_le _
  | case2 => decide
  | case3 c cs ih =>
    have hone : Char.utf8Size '\\' = 1 := rfl
    rw [byteLength_cons, byteLength_cons, hone]
    omega
  | case4 c cs _ _ ih =>
    rw [byteLength_cons]
    omega

theorem eq_of_unclosedString {passed : Nat} (h : scan c cs = .unclosedString passed) :
    (c = '\'' ∨ c = '"') ∧ closeString c cs = none ∧ passed = 1 + passedBytes cs := by
  unfold scan at h
  split at h
  · unfold scanNumber at h
    simp only at h
    repeat' split at h
    all_goals cases h
  · split at h
    · cases h
    · split at h
      · rename_i hc
        split at h
        · cases h
        · rename_i hclose
          cases h
          exact ⟨by simpa using hc, hclose, rfl⟩
      · split at h <;> cases h

/-- A string that is not closed leads to the end of the text at least. -/
theorem scan_unclosedString {passed : Nat} (h : scan c cs = .unclosedString passed) : byteLength (c :: cs) ≤ passed := by
  obtain ⟨hquote, -, rfl⟩ := eq_of_unclosedString h
  have hone : c.utf8Size = 1 := by rcases hquote with rfl | rfl <;> rfl
  rw [byteLength_cons, hone]
  exact Nat.add_le_add_left (byteLength_le_passedBytes cs) 1

/-- **The scanner goes where the cursor goes.** -/
theorem next_beside {s : Scanner} {c : Cursor} (h : s.Beside c) :
    s.next.1 = given c.next.1 ∧ s.next.2.Beside c.next.2 ∧ s.next.2.torn = s.torn := by
  obtain ⟨text, position, start, torn⟩ := s
  obtain ⟨position, rest, start⟩ := c
  obtain ⟨rfl, rfl, pre, htext, hplace⟩ := h
  simp only at htext hplace ⊢
  rcases hplace with rfl | ⟨rfl, hle⟩
  · have hnext := @next_past text start torn pre rest htext
    have hfront : text.toList = (pre ++ rest.takeWhile isBlank) ++ rest.dropWhile isBlank := by
      rw [List.append_assoc, List.takeWhile_append_dropWhile, htext]
    rw [past] at hnext
    simp only [hnext, Cursor.next, ← byteLength_append]
    cases hd : rest.dropWhile isBlank with
    | nil =>
      rw [hd] at hfront
      exact ⟨rfl, ⟨rfl, rfl, _, hfront, .inl rfl⟩, rfl⟩
    | cons c cs =>
      rw [hd] at hfront
      simp only
      cases hscan : scan c cs with
      | token t lexeme rest' =>
        rw [← scan_append hscan, ← List.append_assoc] at hfront
        exact ⟨rfl, ⟨rfl, rfl, _, hfront, .inl rfl⟩, rfl⟩
      | invalidCharacter x => exact ⟨rfl, ⟨rfl, rfl, _, hfront, .inl rfl⟩, rfl⟩
      | invalidNumber literal rest' =>
        rw [← scan_invalidNumber hscan, ← List.append_assoc] at hfront
        exact ⟨rfl, ⟨rfl, rfl, _, hfront, .inl rfl⟩, rfl⟩
      | unclosedString passed =>
        have hbeyond := scan_unclosedString hscan
        refine ⟨rfl, ⟨rfl, rfl, _, hfront.trans (List.append_nil _).symm, .inr ⟨rfl, ?_⟩⟩, rfl⟩
        rw [byteLength_append]
        exact Nat.add_le_add_left hbeyond _
  · have hbytes : bytes ⟨text, position, start, torn⟩ = [] := by
      rw [bytes, toList_toUTF8, htext, List.append_nil]
      exact List.drop_eq_nil_of_le (by rwa [length_utf8])
    rw [next_beyond hbytes]
    exact ⟨rfl, ⟨rfl, rfl, pre, htext, .inr ⟨rfl, hle⟩⟩, rfl⟩

theorem beside_ofString (text : String) : (ofString text).Beside (.ofString text) := ⟨rfl, rfl, [], rfl, .inl rfl⟩

theorem run_eq (s : Scanner) : s.run = match s.next.1 with
    | .ok (some t) => (⟨⟨t, s.next.2.tokenStart, s.next.2.position⟩ :: s.next.2.run.1.lexemes, s.next.2.run.1.ending⟩,
        s.next.2.run.2)
    | .ok none => (⟨[], .finished s.next.2.position⟩, s.next.2)
    | .error e => (⟨[], .failed e⟩, s.next.2) := by
  rw [run]
  split <;> simp only [*]

/-- **A run of the scanner is a run of the cursor**, and never is anything torn. -/
theorem run_beside {s : Scanner} {c : Cursor} (h : s.Beside c) :
    s.run.1 = c.lex ∧ s.run.2.torn = s.torn ∧ ∀ stop, c.lex.ending = .finished stop → s.run.2.position = stop := by
  fun_induction Cursor.lex c generalizing s with
  | case1 c l c' hnext hlt r =>
    rename_i ih
    obtain ⟨hgiven, hbeside, htorn⟩ := next_beside h
    rw [hnext] at hgiven hbeside
    obtain ⟨-, -, -, -, -, -, -, -, -, -, hposition, hstart⟩ := next_eq_lexeme hnext
    obtain ⟨hlexed, htorn', hstop⟩ := ih hbeside
    have hlexeme : l = ⟨l.token, s.next.2.tokenStart, s.next.2.position⟩ := by
      rw [← hbeside.tokenStart, ← hbeside.position, hposition, hstart]
    have hrun : s.run = (⟨⟨l.token, s.next.2.tokenStart, s.next.2.position⟩ :: s.next.2.run.1.lexemes,
        s.next.2.run.1.ending⟩, s.next.2.run.2) := by
      rw [run_eq, hgiven]
      rfl
    rw [hrun, hlexed, ← hlexeme]
    exact ⟨rfl, htorn'.trans htorn, hstop⟩
  | case2 c c' hnext =>
    obtain ⟨hgiven, hbeside, htorn⟩ := next_beside h
    rw [hnext] at hgiven hbeside
    have hrun : s.run = (⟨[], .finished s.next.2.position⟩, s.next.2) := by
      rw [run_eq, hgiven]
      rfl
    rw [hrun, hbeside.position]
    exact ⟨rfl, htorn, by rintro _ ⟨⟩; rfl⟩
  | case3 c e c' hnext =>
    obtain ⟨hgiven, hbeside, htorn⟩ := next_beside h
    rw [hnext] at hgiven
    have hrun : s.run = (⟨[], .failed e⟩, s.next.2) := by
      rw [run_eq, hgiven]
      rfl
    rw [hrun]
    exact ⟨rfl, htorn, fun _ hstop => by cases hstop⟩

end Scanner
end FlatNtuple
