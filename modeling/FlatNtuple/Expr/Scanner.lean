import FlatNtuple.Expr.Lexer
/-!
# From bytes to tokens

A `Scanner` hands out the tokens of a text one by one, like a `Cursor`, but it goes by bytes: it compares bytes, counts
in bytes and moves over them without regard to the characters they belong to.  What it needs of the text it cuts out at
the end, between two positions.  Where one of them lies inside a character there is nothing to cut out; the scanner then
goes on with an empty text, or with the replacement character, and is `torn` from then on.
-/
namespace FlatNtuple

/-- The text between two byte positions, if neither lies inside a character. -/
def slice? (text : String) (start stop : Nat) : Option String := do
  let first ← text.pos? ⟨start⟩
  let last ← text.pos? ⟨stop⟩
  if start ≤ stop then some (String.extract first last) else none

/-- A place in the bytes of a text, and where the last token started. -/
structure Scanner where
  text : String
  position : Nat
  tokenStart : Nat
  /-- Whether something was to be cut out that begins or ends inside a character. -/
  torn : Bool
  deriving DecidableEq

namespace Scanner

def ofString (text : String) : Scanner := ⟨text, 0, 0, false⟩

variable (s : Scanner)

/-- The bytes from the position on. -/
def bytes : List UInt8 := s.text.toUTF8.data.toList.drop s.position

/-- The byte at some distance, as the character of its number. -/
def peek (offset : Nat) : Option Char := s.bytes[offset]?.map Char.ofUInt8

def advance (n : Nat) : Scanner := { s with position := s.position + n }

def skipWhile (p : Char → Bool) : Scanner := s.advance (s.bytes.takeWhile fun b => p (.ofUInt8 b)).length

/-- Cuts out what lies between a position and the present one. -/
def cut (start : Nat) : String × Scanner :=
  match slice? s.text start s.position with
  | some piece => (piece, s)
  | none => ("", { s with torn := true })

/-- The character at the position. -/
def character : Char × Scanner :=
  match (slice? s.text s.position s.text.utf8ByteSize).bind fun rest => rest.toList.head? with
  | some c => (c, s)
  | none => ('\uFFFD', { s with torn := true })

/-- The integer that digits spell, if there are any and it is in range. -/
def integer? (digits : String) : Option Nat :=
  let value := Numeral.ofDigits digits.toList
  if digits.isEmpty = false ∧ value ≤ Token.greatestInteger then some value else none

/-- A point and the digits behind it are passed, and whether there are any. -/
def skipFraction : Bool × Scanner :=
  if s.peek 0 = some '.' && (s.peek 1).any Char.isDigit then (true, (s.advance 1).skipWhile Char.isDigit)
  else (false, s)

/-- An exponent mark, a sign or none, and the digits behind them are passed, and whether there are any. -/
def skipExponent : Bool × Scanner :=
  let digitsAt := if (s.peek 1).any Numeral.isSign then 2 else 1
  if (s.peek 0).any Numeral.isMark && (s.peek digitsAt).any Char.isDigit then
    (true, (s.advance digitsAt).skipWhile Char.isDigit)
  else (false, s)

def number : Except ParseError Token × Scanner :=
  let (fraction, s₁) := (s.skipWhile Char.isDigit).skipFraction
  let (exponent, s₂) := s₁.skipExponent
  let (digits, s₃) := s₂.cut s.position
  if fraction || exponent then (.ok (.decimal (Numeral.split digits.toList).1), s₃)
  else match integer? digits with
    | some value => (.ok (.integer value), s₃)
    | none => (.error (.invalidNumber digits s.position), s₃)

def word : Except ParseError Token × Scanner :=
  let (word, s) := (s.skipWhile Lexer.isNameChar).cut s.position
  (.ok (Token.ofWord word), s)

/-- How far it is to a quote, or to the end if there is none.  A backslash takes the next byte along, also at the very
end, where there is none. -/
def findQuote (quote : Char) : List UInt8 → Nat × Bool
  | [] => (0, false)
  | [b] => if Char.ofUInt8 b = quote then (0, true) else if Char.ofUInt8 b = '\\' then (2, false) else (1, false)
  | b :: b' :: bs =>
    if Char.ofUInt8 b = quote then (0, true)
    else if Char.ofUInt8 b = '\\' then
      let (n, found) := findQuote quote bs
      (n + 2, found)
    else
      let (n, found) := findQuote quote (b' :: bs)
      (n + 1, found)

/-- A string literal, from its opening quote on. -/
def string (quote : Char) : Except ParseError Token × Scanner :=
  let opening := s.position
  let s := s.advance 1
  match findQuote quote s.bytes with
  | (n, true) =>
    let (raw, s) := (s.advance n).cut s.position
    (.ok (.string raw), s.advance 1)
  | (n, false) => (.error (.unclosedString opening), s.advance n)

/-- The token that starts with a byte. -/
def token (c : Char) : Except ParseError Token × Scanner :=
  if c.isDigit || (c = '.' && (s.peek 1).any Char.isDigit) then s.number
  else if Lexer.isNameStart c then s.word
  else if c = '\'' || c = '"' then s.string c
  else match Token.ofSymbol c (s.peek 1) with
    | some (t, long) => (.ok t, s.advance (if long then 2 else 1))
    | none =>
      let (c, s) := s.character
      (.error (.invalidCharacter c s.position), s)

/-- The next token, if there is one before the end of the text. -/
def next : Except ParseError (Option Token) × Scanner :=
  let s := s.skipWhile Lexer.isBlank
  let s := { s with tokenStart := s.position }
  match s.peek 0 with
  | none => (.ok none, s)
  | some c =>
    let (t, s) := s.token c
    (t.map some, s)

/-! ## Every token takes a byte -/

variable {s} {c : Char}

/-- A scanner has moved on over the same text. -/
structure Follows (s s' : Scanner) : Prop where
  text : s'.text = s.text
  position : s.position ≤ s'.position

theorem Follows.trans {s₁ s₂ s₃ : Scanner} (h : s₁.Follows s₂) (h' : s₂.Follows s₃) : s₁.Follows s₃ :=
  ⟨h'.text.trans h.text, Nat.le_trans h.position h'.position⟩

theorem follows_advance (n : Nat) : s.Follows (s.advance n) := ⟨rfl, Nat.le_add_right ..⟩

theorem follows_skipWhile (p : Char → Bool) : s.Follows (s.skipWhile p) := follows_advance _

theorem position_cut (start : Nat) : (s.cut start).2.position = s.position := by
  unfold cut
  split <;> rfl

theorem follows_cut (start : Nat) : s.Follows (s.cut start).2 := by
  unfold cut
  split <;> exact ⟨rfl, Nat.le_refl _⟩

theorem follows_skipFraction : s.Follows s.skipFraction.2 := by
  unfold skipFraction
  split
  · exact (follows_advance 1).trans (follows_skipWhile _)
  · exact ⟨rfl, Nat.le_refl _⟩

theorem follows_skipExponent : s.Follows s.skipExponent.2 := by
  unfold skipExponent
  extract_lets digitsAt
  split
  · exact (follows_advance digitsAt).trans (follows_skipWhile _)
  · exact ⟨rfl, Nat.le_refl _⟩

theorem number_snd : s.number.2 = ((s.skipWhile Char.isDigit).skipFraction.2.skipExponent.2.cut s.position).2 := by
  unfold number
  simp only
  split
  · rfl
  · split <;> rfl

theorem exists_bytes (h : s.peek 0 = some c) : ∃ b bs, s.bytes = b :: bs ∧ Char.ofUInt8 b = c := by
  unfold peek at h
  cases hbytes : s.bytes with
  | nil => simp [hbytes] at h
  | cons b bs => exact ⟨b, bs, rfl, by simpa [hbytes] using h⟩

theorem position_lt_skipWhile {p : Char → Bool} (h : s.peek 0 = some c) (hc : p c = true) :
    s.position < (s.skipWhile p).position := by
  obtain ⟨b, bs, hbytes, rfl⟩ := exists_bytes h
  simp [skipWhile, advance, hbytes, hc]

theorem skipWhile_of_not {p : Char → Bool} (h : s.peek 0 = some c) (hc : p c = false) : s.skipWhile p = s := by
  obtain ⟨b, bs, hbytes, rfl⟩ := exists_bytes h
  simp [skipWhile, advance, hbytes, hc]

theorem position_lt_number (h : s.peek 0 = some c) (hc : (c.isDigit || (c = '.' && (s.peek 1).any Char.isDigit)) = true) :
    s.position < s.number.2.position := by
  rw [number_snd, position_cut]
  refine Nat.lt_of_lt_of_le ?_ follows_skipExponent.position
  by_cases hdigit : c.isDigit = true
  · exact Nat.lt_of_lt_of_le (position_lt_skipWhile h hdigit) follows_skipFraction.position
  · simp only [hdigit, Bool.false_or, Bool.and_eq_true, decide_eq_true_eq] at hc
    obtain ⟨rfl, hnext⟩ := hc
    rw [skipWhile_of_not h rfl, skipFraction, if_pos (by simp [h, hnext])]
    exact Nat.lt_of_lt_of_le (Nat.lt_succ_self _) (follows_skipWhile (s := s.advance 1) _).position

theorem follows_token : s.Follows (s.token c).2 := by
  unfold token
  split
  · rw [number_snd]
    exact (follows_skipWhile _).trans (follows_skipFraction.trans (follows_skipExponent.trans (follows_cut _)))
  · split
    · exact (follows_skipWhile _).trans (follows_cut _)
    · split
      · unfold string
        extract_lets opening s'
        split
        · exact (follows_advance 1).trans ((follows_advance _).trans ((follows_cut _).trans (follows_advance 1)))
        · exact (follows_advance 1).trans (follows_advance _)
      · split
        · exact follows_advance _
        · simp only [character]
          split <;> exact ⟨rfl, Nat.le_refl _⟩

theorem position_lt_token {t : Token} (h : s.peek 0 = some c) (ht : (s.token c).1 = .ok t) :
    s.position < (s.token c).2.position := by
  unfold token at ht ⊢
  split
  · exact position_lt_number h ‹_›
  · rename_i hnumber
    rw [if_neg hnumber] at ht
    split
    · rename_i hstart
      have hname : Lexer.isNameChar c = true := by
        simp only [Lexer.isNameStart, Lexer.isNameChar, Char.isAlphanum, Bool.or_eq_true] at hstart ⊢
        exact hstart.imp_left Or.inl
      simpa only [word, position_cut] using position_lt_skipWhile h hname
    · rename_i hword
      rw [if_neg hword] at ht
      split
      · unfold string
        extract_lets opening s'
        split
        · simp only [advance, position_cut, s']; omega
        · simp only [advance, s']; omega
      · rename_i hstring
        rw [if_neg hstring] at ht
        split
        · simp only [advance]; split <;> omega
        · rename_i hsymbol
          rw [hsymbol] at ht
          simp at ht

theorem length_bytes : s.bytes.length = s.text.utf8ByteSize - s.position := by
  simp [bytes]

/-- A token takes at least one byte. -/
theorem length_bytes_next {s' : Scanner} {t : Token} (h : s.next = (.ok (some t), s')) :
    s'.bytes.length < s.bytes.length := by
  unfold next at h
  extract_lets s₁ s₂ at h
  split at h
  · simp at h
  · rename_i c hpeek
    simp only [Prod.mk.injEq] at h
    obtain ⟨ht, rfl⟩ := h
    obtain ⟨t', ht'⟩ : ∃ t', (s₂.token c).1 = .ok t' := by
      cases hresult : (s₂.token c).1 with
      | error e => simp [hresult, Except.map] at ht
      | ok t' => exact ⟨t', rfl⟩
    obtain ⟨b, bs, hbytes, -⟩ := exists_bytes hpeek
    have hleft : 0 < s₂.bytes.length := by simp [hbytes]
    have hlt := position_lt_token hpeek ht'
    have hskip : s.position ≤ s₂.position := (follows_skipWhile Lexer.isBlank).position
    rw [length_bytes] at hleft
    rw [length_bytes, length_bytes, follows_token.text]
    change _ - _ < s₂.text.utf8ByteSize - _
    omega

/-! ## Whole texts -/

/-- The lexemes up to the end or up to the first error, and where the scanner stands then. -/
def run (s : Scanner) : Lexed × Scanner :=
  match h : s.next with
  | (.ok (some t), s') =>
    have := length_bytes_next h
    let (r, last) := s'.run
    (⟨⟨t, s'.tokenStart, s'.position⟩ :: r.lexemes, r.ending⟩, last)
  | (.ok none, s') => (⟨[], .finished s'.position⟩, s')
  | (.error e, s') => (⟨[], .failed e⟩, s')
termination_by s.bytes.length

end Scanner
end FlatNtuple
