import FlatNtuple.Proofs.Expr.Lexing
/-!
# Tokens by themselves

Where a token ends is often decided by what stands behind it: a point by the digit, a `<` by the `=`, an exponent mark by
the digits.  Nothing of this reaches past the token.  Cut out of a text, a token is the token it was (`Scans.alone`),
and it still is in front of a blank or a string (`Scans.divided`), which go on with no token.
-/
namespace FlatNtuple
namespace Lexer

/-- What comes next, if anything, is a blank or a string. -/
def Divided (cs : List Char) : Prop := ∀ c t, cs = c :: t → isBlank c = true ∨ c = '\'' ∨ c = '"'

theorem divided_nil : Divided [] := nofun

theorem divided_cons {c : Char} (h : isBlank c = true ∨ c = '\'' ∨ c = '"') (cs : List Char) : Divided (c :: cs) := by
  rintro _ _ ⟨⟩
  exact h

theorem Divided.eq {c : Char} {cs : List Char} (h : Divided (c :: cs)) :
    c = ' ' ∨ c = '\t' ∨ c = '\r' ∨ c = '\n' ∨ c = '\'' ∨ c = '"' := by
  have hc := h c cs rfl
  simp only [isBlank, Bool.or_eq_true, decide_eq_true_eq] at hc
  tauto

theorem Divided.foreign {cs : List Char} (h : Divided cs) : Numeral.Foreign cs := by
  rintro c t rfl
  rcases h.eq with rfl | rfl | rfl | rfl | rfl | rfl <;> decide

theorem Divided.not_nameChar {cs : List Char} (h : Divided cs) : ∀ c t, cs = c :: t → isNameChar c = false := by
  rintro c t rfl
  rcases h.eq with rfl | rfl | rfl | rfl | rfl | rfl <;> decide

/-! ## Strings -/

/-- What is left when the patterns with a backslash in front do not match. -/
theorem ne_backslash {c : Char} {cs : List Char} (hlast : c = '\\' → cs = [] → False)
    (hmore : ∀ d ds, c = '\\' → cs = d :: ds → False) : c ≠ '\\' := by
  intro hc
  cases cs with
  | nil => exact hlast hc rfl
  | cons d ds => exact hmore d ds hc rfl

/-- Where a string is closed does not depend on what follows. -/
theorem closeString_swap {quote : Char} {cs raw rest : List Char} (h : closeString quote cs = some (raw, rest))
    (other : List Char) : closeString quote (raw ++ quote :: other) = some (raw, other) := by
  fun_induction closeString quote cs generalizing raw rest with
  | case1 => cases h
  | case2 => cases h
  | case3 c cs ih =>
    obtain ⟨⟨raw', rest'⟩, hr, he⟩ := Option.map_eq_some_iff.1 h
    cases he
    rw [List.cons_append, List.cons_append, closeString, ih hr]
    rfl
  | case4 cs hlast hmore =>
    cases h
    exact closeString_quote (ne_backslash hlast hmore) other
  | case5 c cs hlast hmore hne ih =>
    obtain ⟨⟨raw', rest'⟩, hr, he⟩ := Option.map_eq_some_iff.1 h
    cases he
    rw [List.cons_append, closeString_char (ne_backslash hlast hmore) hne, ih hr]
    rfl

/-! ## Numbers -/

theorem startsWithDigit_append (cs : List Char) {rest : List Char} (h : Divided rest) :
    startsWithDigit (cs ++ rest) = startsWithDigit cs := by
  cases cs with
  | cons c cs => rfl
  | nil =>
    cases rest with
    | nil => rfl
    | cons c t => exact (h.foreign c t rfl).1

/-- The numeral split off decides. -/
theorem scanNumber_of_split {cs cs' lexeme rest rest' : List Char} {t : Token} (h : scanNumber cs = .token t lexeme rest)
    (hsplit : Numeral.split cs' = ((Numeral.split cs).1, rest')) :
    (lexeme, rest) = ((Numeral.split cs).1.chars, (Numeral.split cs).2) ∧ scanNumber cs' = .token t lexeme rest' := by
  unfold scanNumber at h ⊢
  rw [hsplit]
  simp only at h ⊢
  split at h
  · split at h
    · cases h
      simp [*]
    · cases h
  · cases h
    simp [*]

theorem scanNumber_divided {cs lexeme rest other : List Char} {t : Token} (h : scanNumber cs = .token t lexeme rest)
    (hother : Divided other) : scanNumber (cs ++ other) = .token t lexeme (rest ++ other) := by
  obtain ⟨he, hnumber⟩ := scanNumber_of_split h (Numeral.split_foreign hother.foreign)
  cases he
  exact hnumber

theorem scanNumber_alone {cs lexeme rest : List Char} {t : Token} (h : scanNumber cs = .token t lexeme rest) :
    scanNumber lexeme = .token t lexeme [] := by
  obtain ⟨he, hnumber⟩ := scanNumber_of_split h (Numeral.split_chars cs)
  cases he
  exact hnumber

/-! ## Symbols -/

theorem ofSymbol_divided {c d : Char} {cs : List Char} (h : Divided (d :: cs)) :
    Token.ofSymbol c (some d) = Token.ofSymbol c none := by
  have hne : d ≠ '=' ∧ d ≠ '&' ∧ d ≠ '|' := by rcases h.eq with rfl | rfl | rfl | rfl | rfl | rfl <;> decide
  unfold Token.ofSymbol
  split <;> simp [hne]

theorem ofSymbol_append {c : Char} {cs other : List Char} (h : Divided other) :
    Token.ofSymbol c (cs ++ other).head? = Token.ofSymbol c cs.head? := by
  cases cs with
  | cons d cs => rfl
  | nil =>
    cases other with
    | nil => rfl
    | cons d ds => exact ofSymbol_divided h

/-- A symbol that takes the next character along has one. -/
theorem ofSymbol_long {c : Char} {cs : List Char} {t : Token} (h : Token.ofSymbol c cs.head? = some (t, true)) :
    ∃ d ds, cs = d :: ds := by
  cases cs with
  | cons d ds => exact ⟨d, ds, rfl⟩
  | nil =>
    unfold Token.ofSymbol at h
    split at h <;> simp at h

/-- A symbol that does not take the next character along does without one. -/
theorem ofSymbol_short {c : Char} {next : Option Char} {t : Token} (h : Token.ofSymbol c next = some (t, false)) :
    Token.ofSymbol c none = some (t, false) := by
  unfold Token.ofSymbol at h ⊢
  split at h <;> grind

/-- What a symbol starts with starts no token of another kind, but for the point. -/
theorem ofSymbol_start {c : Char} {next : Option Char} {r : Token × Bool} (h : Token.ofSymbol c next = some r) :
    c.isDigit = false ∧ isNameStart c = false ∧ c ≠ '\'' ∧ c ≠ '"' := by
  unfold Token.ofSymbol at h
  split at h <;> first | decide | cases h

/-! ## Tokens -/

/-- How a text starts with a token, by the kinds of tokens. -/
inductive Scans (c : Char) : List Char → Token → List Char → List Char → Prop
  | number {cs : List Char} {t : Token} {lexeme rest : List Char}
      (hstart : c.isDigit = true ∨ c = '.' ∧ startsWithDigit cs = true) (hscan : scanNumber (c :: cs) = .token t lexeme rest) :
      Scans c cs t lexeme rest
  | word {cs : List Char} (hstart : isNameStart c = true) :
      Scans c cs (.ofWord (String.ofList (c :: cs.takeWhile isNameChar))) (c :: cs.takeWhile isNameChar)
        (cs.dropWhile isNameChar)
  | string {cs raw rest : List Char} (hstart : c = '\'' ∨ c = '"') (hclose : closeString c cs = some (raw, rest)) :
      Scans c cs (.string (String.ofList raw)) (c :: (raw ++ [c])) rest
  | short {cs : List Char} {t : Token} (hpoint : c = '.' → startsWithDigit cs = false)
      (hsymbol : Token.ofSymbol c cs.head? = some (t, false)) : Scans c cs t [c] cs
  | long {d : Char} {ds : List Char} {t : Token} (hsymbol : Token.ofSymbol c (some d) = some (t, true)) :
      Scans c (d :: ds) t [c, d] ds

section
variable {c : Char} {cs lexeme rest : List Char} {t : Token}

theorem scans_of_scan (h : scan c cs = .token t lexeme rest) : Scans c cs t lexeme rest := by
  unfold scan at h
  split at h
  · rename_i hnumber
    exact .number (by simpa using hnumber) h
  · rename_i hnumber
    split at h
    · cases h
      exact .word ‹_›
    · split at h
      · rename_i hquote
        split at h
        · cases h
          exact .string (by simpa using hquote) ‹_›
        · cases h
      · split at h
        · cases h
          exact .short (by simp_all) ‹_›
        · rename_i hsymbol
          cases h
          obtain ⟨d, ds, rfl⟩ := ofSymbol_long hsymbol
          exact .long hsymbol
        · cases h

theorem Scans.scan (h : Scans c cs t lexeme rest) : scan c cs = .token t lexeme rest := by
  cases h with
  | number hstart hscan => rwa [Lexer.scan, if_pos (by simpa using hstart)]
  | word hstart => exact scan_name hstart cs
  | string hstart hclose => exact scan_string hstart hclose
  | short hpoint hsymbol =>
    obtain ⟨hdigit, hname, hsingle, hdouble⟩ := ofSymbol_start hsymbol
    have hnumber : (c.isDigit || (c = '.' && startsWithDigit cs)) = false := by simpa [hdigit] using hpoint
    simp [Lexer.scan, hnumber, hname, hsingle, hdouble, hsymbol]
  | @long d ds _ hsymbol =>
    obtain ⟨hdigit, hname, hsingle, hdouble⟩ := ofSymbol_start hsymbol
    have hpoint : c ≠ '.' := by rintro rfl; cases hsymbol
    simp [Lexer.scan, hdigit, hpoint, hname, hsingle, hdouble, hsymbol]

/-- **A token is the same in front of a blank or a string.** -/
theorem Scans.divided (h : Scans c cs t lexeme rest) {other : List Char} (hother : Divided other) :
    Scans c (cs ++ other) t lexeme (rest ++ other) := by
  cases h with
  | number hstart hscan =>
    exact .number (by rwa [startsWithDigit_append cs hother]) (scanNumber_divided hscan hother)
  | word hstart =>
    obtain ⟨htake, hdrop⟩ := Numeral.span_append cs hother.not_nameChar
    have hword := @Scans.word c (cs ++ other) hstart
    rwa [htake, hdrop] at hword
  | string hstart hclose =>
    refine .string hstart ?_
    rw [← closeString_append hclose, List.append_assoc, List.cons_append, closeString_swap hclose]
  | short hpoint hsymbol =>
    exact .short (by rwa [startsWithDigit_append cs hother]) (by rwa [ofSymbol_append hother])
  | long hsymbol => exact .long hsymbol

/-- A token that ends in front of a blank or a string does not depend on what comes from there on. -/
theorem Scans.of_divided {other : List Char} (h : Scans c (cs ++ other) t lexeme (rest ++ other))
    (hother : Divided other) : Scans c cs t lexeme rest := by
  generalize hcs : cs ++ other = cs' at h
  generalize hrest : rest ++ other = rest' at h
  cases h with
  | number hstart hscan =>
    subst hcs
    have hsplit : Numeral.split (c :: (cs ++ other)) =
        ((Numeral.split (c :: cs)).1, (Numeral.split (c :: cs)).2 ++ other) := by
      rw [← List.cons_append, Numeral.split_foreign hother.foreign]
    have hsame : Numeral.split (c :: cs) = ((Numeral.split (c :: (cs ++ other))).1, (Numeral.split (c :: cs)).2) := by
      rw [hsplit]
    obtain ⟨he, hnumber⟩ := scanNumber_of_split hscan hsame
    rw [hsplit, Prod.mk.injEq] at he
    obtain rfl : rest = (Numeral.split (c :: cs)).2 := List.append_cancel_right (hrest.trans he.2)
    exact .number (by rwa [startsWithDigit_append cs hother] at hstart) hnumber
  | word hstart =>
    subst hcs
    obtain ⟨htake, hdrop⟩ := Numeral.span_append cs hother.not_nameChar
    rw [hdrop] at hrest
    obtain rfl : rest = cs.dropWhile isNameChar := List.append_cancel_right hrest
    rw [htake]
    exact .word hstart
  | @string _ raw _ hstart hclose =>
    have happend := closeString_append hclose
    rw [← hcs, ← hrest, ← List.cons_append, ← List.append_assoc] at happend
    rw [← List.append_cancel_right happend]
    exact .string hstart (closeString_swap hclose rest)
  | short hpoint hsymbol =>
    obtain rfl : rest = cs := List.append_cancel_right (hrest.trans hcs.symm)
    subst hcs
    rw [startsWithDigit_append _ hother] at hpoint
    rw [ofSymbol_append hother] at hsymbol
    exact .short hpoint hsymbol
  | @long d _ _ hsymbol =>
    rw [← hrest, ← List.cons_append] at hcs
    rw [List.append_cancel_right hcs]
    exact .long hsymbol

/-- A point that starts a number by itself has its digit in it. -/
theorem startsWithDigit_alone {w : List Char} (hdigit : startsWithDigit cs = true)
    (h : (Numeral.split ('.' :: cs)).1.chars = '.' :: w) : startsWithDigit w = true := by
  cases cs with
  | nil => cases hdigit
  | cons d ds =>
    have hdot : Char.isDigit '.' = false := rfl
    have hd : d.isDigit = true := hdigit
    simp only [Numeral.split, Numeral.chars, Numeral.takeFraction, List.takeWhile_cons, List.dropWhile_cons, hdot, hd,
      Bool.false_eq_true, if_false, if_true, List.nil_append, List.cons_append, List.cons.injEq, true_and] at h
    rw [← h]
    exact hd

/-- **A token by itself is the token that it is in a text.** -/
theorem Scans.alone (h : Scans c cs t lexeme rest) : ∃ w, lexeme = c :: w ∧ Scans c w t lexeme [] := by
  obtain ⟨c', w, hlexeme⟩ := List.exists_cons_of_ne_nil (lexeme_ne_nil h.scan)
  cases h with
  | number hstart hscan =>
    subst hlexeme
    obtain ⟨rfl, -⟩ := List.cons.inj (scanNumber_append hscan)
    obtain ⟨he, -⟩ := scanNumber_of_split hscan (Numeral.split_chars _)
    refine ⟨w, rfl, .number ?_ (scanNumber_alone hscan)⟩
    refine hstart.imp_right ?_
    rintro ⟨rfl, hdigit⟩
    exact ⟨rfl, startsWithDigit_alone hdigit (Prod.mk.inj he).1.symm⟩
  | word hstart =>
    have hall : ∀ x ∈ cs.takeWhile isNameChar, isNameChar x = true := fun x hx => List.mem_takeWhile_imp hx
    have hword := @Scans.word c (cs.takeWhile isNameChar) hstart
    rw [List.takeWhile_eq_self_iff.2 hall, List.dropWhile_eq_nil_iff.2 hall] at hword
    exact ⟨_, rfl, hword⟩
  | string hstart hclose => exact ⟨_, rfl, .string hstart (closeString_swap hclose [])⟩
  | short hpoint hsymbol => exact ⟨[], rfl, .short (fun _ => rfl) (ofSymbol_short hsymbol)⟩
  | @long d _ _ hsymbol => exact ⟨[d], rfl, .long hsymbol⟩

end

/-! ## Texts -/

theorem lexes_append_of_finished {other : List Char} {us : List Token} (hother : Divided other) (hus : Lexes other us)
    (c : Cursor) {stop : Nat} (h : c.lex.ending = .finished stop) :
    Lexes (c.rest ++ other) (Parser.tokensOf c.lex.lexemes ++ us) := by
  fun_induction Cursor.lex c with
  | case1 c l c' hnext hlt r ih =>
    obtain ⟨blanks, ch, cs, lexeme, hrest, hblanks, hch, hscan, -⟩ := next_eq_lexeme hnext
    rw [hrest, List.append_assoc]
    exact lexes_blanks hblanks (lexes_token hch ((scans_of_scan hscan).divided hother).scan (ih h))
  | case2 c c' hnext => exact lexes_blanks (next_eq_finish hnext).1 hus
  | case3 => cases h

/-- **A text that is set apart from the one behind it keeps its tokens.** -/
theorem Lexes.append {cs other : List Char} {ts us : List Token} (h : Lexes cs ts) (hother : Divided other)
    (hus : Lexes other us) : Lexes (cs ++ other) (ts ++ us) := by
  obtain ⟨rfl, stop, hstop⟩ := h 0 0
  exact lexes_append_of_finished hother hus ⟨0, cs, 0⟩ hstop

/-- A text without an error in it has its tokens wherever it stands. -/
theorem lexes_of_finished {text : String} {stop : Nat} (h : (lex text).ending = .finished stop) :
    Lexes text.toList (Parser.tokensOf (lex text).lexemes) := by
  have happend := lexes_append_of_finished divided_nil lexes_nil (.ofString text) h
  rwa [List.append_nil, List.append_nil] at happend

end Lexer
end FlatNtuple
