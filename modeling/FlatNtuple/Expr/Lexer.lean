import FlatNtuple.Expr.Error
/-!
# From texts to tokens

`scan` reads the token at the front of a text.  A `Cursor` is a place in a text, and `Cursor.next` moves it past blanks
and one token, or to where an error was noticed.  `lex` runs a cursor over a whole text: the lexemes up to the end or up
to the first error.  `length_scan` is why the run ends: a token takes at least one character.
-/
namespace FlatNtuple

/-- A token with the byte positions of its first character and of what follows it. -/
structure Lexeme where
  token : Token
  start : Nat
  stop : Nat
  deriving DecidableEq, Repr

/-- How many bytes characters take in UTF-8. -/
def byteLength (cs : List Char) : Nat := cs.foldl (fun n c => n + c.utf8Size) 0

namespace Lexer

def isBlank (c : Char) : Bool := c = ' ' || c = '\t' || c = '\r' || c = '\n'

def isNameStart (c : Char) : Bool := c.isAlpha || c = '_'

def isNameChar (c : Char) : Bool := c.isAlphanum || c = '_'

/-- How the front of a text reads.  What is read and the rest make up the text. -/
inductive Scan
  | token (token : Token) (lexeme rest : List Char)
  | invalidCharacter (char : Char)
  /-- An integer that is too large, and what follows it. -/
  | invalidNumber (literal rest : List Char)
  /-- A string without an end, and the bytes passed over in search of it. -/
  | unclosedString (passed : Nat)

/-- The raw contents of a string literal up to its closing quote, and what follows the quote.  A backslash takes the
next character along. -/
def closeString (quote : Char) : List Char → Option (List Char × List Char)
  | [] => none
  | '\\' :: [] => none
  | '\\' :: c :: cs => (closeString quote cs).map fun (raw, rest) => ('\\' :: c :: raw, rest)
  | c :: cs =>
    if c = quote then some ([], cs) else (closeString quote cs).map fun (raw, rest) => (c :: raw, rest)

/-- The bytes passed over by a search for a quote that is not there.  A backslash counts two even at the very end. -/
def passedBytes : List Char → Nat
  | [] => 0
  | '\\' :: [] => 2
  | '\\' :: c :: cs => 1 + c.utf8Size + passedBytes cs
  | c :: cs => c.utf8Size + passedBytes cs

def startsWithDigit : List Char → Bool
  | c :: _ => c.isDigit
  | [] => false

def scanNumber (cs : List Char) : Scan :=
  let (n, rest) := Numeral.split cs
  if n.isWhole then
    let value := Numeral.ofDigits n.whole
    if value ≤ Token.greatestInteger then .token (.integer value) n.chars rest else .invalidNumber n.chars rest
  else .token (.decimal n) n.chars rest

/-- The token of a text that starts with the given character. -/
def scan (c : Char) (cs : List Char) : Scan :=
  if c.isDigit || (c = '.' && startsWithDigit cs) then scanNumber (c :: cs)
  else if isNameStart c then
    let word := c :: cs.takeWhile isNameChar
    .token (Token.ofWord (String.ofList word)) word (cs.dropWhile isNameChar)
  else if c = '\'' || c = '"' then
    match closeString c cs with
    | some (raw, rest) => .token (.string (String.ofList raw)) (c :: raw ++ [c]) rest
    | none => .unclosedString (1 + passedBytes cs)
  else match Token.ofSymbol c cs.head? with
    | some (t, false) => .token t [c] cs
    | some (t, true) => .token t (c :: cs.take 1) (cs.drop 1)
    | none => .invalidCharacter c

/-- What is read and the rest make up the text, and something is read. -/
theorem closeString_append {quote : Char} {cs raw rest : List Char} (h : closeString quote cs = some (raw, rest)) :
    raw ++ quote :: rest = cs := by
  fun_induction closeString quote cs generalizing raw rest with
  | case1 => simp at h
  | case2 => simp at h
  | case3 c cs ih =>
    obtain ⟨⟨raw', rest'⟩, hr, he⟩ := Option.map_eq_some_iff.1 h
    simp only [Prod.mk.injEq] at he
    obtain ⟨rfl, rfl⟩ := he
    simp [ih hr]
  | case4 cs =>
    simp only [Option.some.injEq, Prod.mk.injEq] at h
    obtain ⟨rfl, rfl⟩ := h
    rfl
  | case5 c cs _ _ _ ih =>
    obtain ⟨⟨raw', rest'⟩, hr, he⟩ := Option.map_eq_some_iff.1 h
    simp only [Prod.mk.injEq] at he
    obtain ⟨rfl, rfl⟩ := he
    simp [ih hr]

theorem scanNumber_append {cs lexeme rest : List Char} {t : Token} (h : scanNumber cs = .token t lexeme rest) :
    lexeme ++ rest = cs := by
  unfold scanNumber at h
  simp only at h
  repeat' split at h
  all_goals
    simp only [Scan.token.injEq, reduceCtorEq] at h
    try (obtain ⟨-, rfl, rfl⟩ := h; exact Numeral.split_append cs)

theorem scan_append {c : Char} {cs lexeme rest : List Char} {t : Token} (h : scan c cs = .token t lexeme rest) :
    lexeme ++ rest = c :: cs := by
  unfold scan at h
  split at h
  · exact scanNumber_append h
  · split at h
    · simp only [Scan.token.injEq] at h
      obtain ⟨-, rfl, rfl⟩ := h
      simp
    · split at h
      · split at h
        · rename_i raw rest' hr
          simp only [Scan.token.injEq] at h
          obtain ⟨-, rfl, rfl⟩ := h
          simp [← closeString_append hr]
        · simp at h
      · split at h <;> simp only [Scan.token.injEq, reduceCtorEq] at h
        · obtain ⟨-, rfl, rfl⟩ := h
          rfl
        · obtain ⟨-, rfl, rfl⟩ := h
          exact congrArg (c :: ·) (List.take_append_drop 1 cs)

theorem chars_split_ne_nil {c : Char} {cs : List Char} (h : c.isDigit = true ∨ c = '.' ∧ startsWithDigit cs = true) :
    (Numeral.split (c :: cs)).1.chars ≠ [] := by
  rcases h with h | ⟨rfl, h⟩
  · simp [Numeral.split, Numeral.chars, h]
  · cases cs with
    | nil => simp [startsWithDigit] at h
    | cons d cs =>
      simp only [startsWithDigit] at h
      have hdot : Char.isDigit '.' = false := rfl
      simp [Numeral.split, Numeral.chars, Numeral.takeFraction, hdot, h]

theorem lexeme_ne_nil {c : Char} {cs lexeme rest : List Char} {t : Token} (h : scan c cs = .token t lexeme rest) :
    lexeme ≠ [] := by
  unfold scan at h
  split at h
  · rename_i hc
    simp only [Bool.or_eq_true, Bool.and_eq_true, decide_eq_true_eq] at hc
    have hne := chars_split_ne_nil hc
    unfold scanNumber at h
    simp only at h
    repeat' split at h
    all_goals
      simp only [Scan.token.injEq, reduceCtorEq] at h
      try (obtain ⟨-, rfl, -⟩ := h; exact hne)
  · repeat' split at h
    all_goals
      simp only [Scan.token.injEq, reduceCtorEq] at h
      try (obtain ⟨-, rfl, -⟩ := h; simp)

/-- A token takes at least one character. -/
theorem length_scan {c : Char} {cs lexeme rest : List Char} {t : Token} (h : scan c cs = .token t lexeme rest) :
    rest.length < (c :: cs).length := by
  have := List.length_pos_iff.2 (lexeme_ne_nil h)
  have := congrArg List.length (scan_append h)
  rw [List.length_append] at this
  omega

end Lexer

/-! ## Cursors -/

/-- A place in a text: its byte position, the characters from there on, and where the last token started. -/
structure Cursor where
  position : Nat
  rest : List Char
  tokenStart : Nat

namespace Cursor

open Lexer

def ofString (text : String) : Cursor := ⟨0, text.toList, 0⟩

/-- What a cursor comes upon behind the next blanks. -/
inductive Found
  | lexeme (l : Lexeme)
  | finish
  | error (e : ParseError)

/-- The next token, and the cursor behind it.  After an error the cursor stands where the error was noticed: at a
character that starts no token, behind a number that is too large, behind the search for a closing quote. -/
def next (c : Cursor) : Found × Cursor :=
  let start := c.position + byteLength (c.rest.takeWhile isBlank)
  match c.rest.dropWhile isBlank with
  | [] => (.finish, ⟨start, [], start⟩)
  | ch :: cs =>
    match scan ch cs with
    | .token t lexeme rest =>
      let stop := start + byteLength lexeme
      (.lexeme ⟨t, start, stop⟩, ⟨stop, rest, start⟩)
    | .invalidCharacter x => (.error (.invalidCharacter x start), ⟨start, ch :: cs, start⟩)
    | .invalidNumber literal rest =>
      (.error (.invalidNumber (String.ofList literal) start), ⟨start + byteLength literal, rest, start⟩)
    | .unclosedString passed => (.error (.unclosedString start), ⟨start + passed, [], start⟩)

theorem length_next {c c' : Cursor} {l : Lexeme} (h : c.next = (.lexeme l, c')) : c'.rest.length < c.rest.length := by
  unfold next at h
  simp only at h
  split at h
  · simp at h
  · rename_i ch cs hd
    have hle := (List.dropWhile_sublist (l := c.rest) isBlank).length_le
    rw [hd] at hle
    split at h
    · rename_i t lexeme rest hs
      simp only [Prod.mk.injEq] at h
      obtain ⟨-, rfl⟩ := h
      exact Nat.lt_of_lt_of_le (length_scan hs) hle
    all_goals simp at h

end Cursor

/-! ## Whole texts -/

/-- How a run over a text ends: at a position, or with an error. -/
inductive Ending
  | finished (stop : Nat)
  | failed (error : ParseError)
  deriving DecidableEq, Repr

/-- The lexemes of a text up to its end or up to the first error. -/
structure Lexed where
  lexemes : List Lexeme
  ending : Ending
  deriving DecidableEq, Repr

def Cursor.lex (c : Cursor) : Lexed :=
  match h : c.next with
  | (.lexeme l, c') =>
    have := length_next h
    let r := c'.lex
    ⟨l :: r.lexemes, r.ending⟩
  | (.finish, c') => ⟨[], .finished c'.position⟩
  | (.error e, _) => ⟨[], .failed e⟩
termination_by c.rest.length

def lex (text : String) : Lexed := (Cursor.ofString text).lex

end FlatNtuple
