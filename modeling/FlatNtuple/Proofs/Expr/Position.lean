import FlatNtuple.Proofs.Expr.Lookahead
import FlatNtuple.Proofs.Expr.Quoting
/-!
# Errors are where they say

An error names a position of the text, and what it says is true of the text there (`ParseError.Truthful`).  The readers
only complain of what stands where they have stopped (`whole_error`), which is a lexeme of the text or its end.  Errors of
the lexer are those of a scan behind lexemes that make up the text in front of it (`Cursor.exists_of_failed`).
-/
namespace FlatNtuple

open Lexer FlatNtuple.Parser

/-- What an error says of the text is true of it. -/
def ParseError.Truthful (text : String) : ParseError → Prop
  | .invalidCharacter c p => ∃ front back, text.toList = front ++ c :: back ∧ p = byteLength front
  | .invalidNumber literal p => ∃ front back, text.toList = front ++ (literal.toList ++ back) ∧ p = byteLength front
  -- The quote stands behind whole tokens, so it opens a literal.
  | .unclosedString p => ∃ front quote back ts, text.toList = front ++ quote :: back ∧ p = byteLength front ∧
      (quote = '\'' ∨ quote = '"') ∧ Lexes front ts ∧
      ∀ inside behind, back = inside ++ quote :: behind → Odd (backslashes inside)
  | .unexpectedToken t p => ∃ l ∈ (lex text).lexemes, l.token = t ∧ l.start = p
  | .expected _ p | .tooDeep _ p => (∃ l ∈ (lex text).lexemes, l.start = p) ∨ p = text.utf8ByteSize
  | .unexpectedEnd p => p = text.utf8ByteSize
  | .empty => ∀ c ∈ text.toList, isBlank c = true

/-! ## Quotes without an end -/

/-- Backslashes at the end are those behind any other character. -/
theorem backslashes_append_cons_of_ne {c : Char} (hc : c ≠ '\\') (front cs : List Char) :
    backslashes (front ++ c :: cs) = backslashes cs := by
  induction cs using List.reverseRecOn with
  | nil => exact (backslashes_concat front c).trans (if_neg hc)
  | append_singleton cs d ih =>
    rw [← List.cons_append, ← List.append_assoc, backslashes_concat, backslashes_concat, ih]

theorem backslashes_cons_of_ne {c : Char} (hc : c ≠ '\\') (cs : List Char) : backslashes (c :: cs) = backslashes cs :=
  backslashes_append_cons_of_ne hc [] cs

theorem even_backslashes_escaped (c : Char) (cs : List Char) :
    Even (backslashes ('\\' :: c :: cs)) ↔ Even (backslashes cs) := by
  induction cs using List.reverseRecOn with
  | nil =>
    have hpair : backslashes ['\\', c] = if c = '\\' then 2 else 0 := backslashes_concat ['\\'] c
    rw [hpair]
    split <;> decide
  | append_singleton cs d ih =>
    rw [← List.cons_append, ← List.cons_append, backslashes_concat, backslashes_concat]
    split
    · rw [Nat.even_add_one, Nat.even_add_one, ih]
    · rfl

/-- Where a string is not closed, each quote in it is behind a backslash that escapes it. -/
theorem odd_backslashes_of_closeString {quote : Char} (hquote : quote ≠ '\\') {cs inside behind : List Char}
    (h : closeString quote cs = none) (hcs : cs = inside ++ quote :: behind) : Odd (backslashes inside) := by
  rw [← Nat.not_even_iff_odd]
  intro heven
  fun_induction closeString quote cs generalizing inside with
  | case1 => cases inside <;> cases hcs
  | case2 =>
    cases inside with
    | nil => exact hquote (List.cons.inj hcs).1.symm
    | cons d inside => cases inside <;> cases hcs
  | case3 c cs ih =>
    have hrest : closeString quote cs = none := by simpa using h
    cases inside with
    | nil => exact hquote (List.cons.inj hcs).1.symm
    | cons d inside =>
      obtain ⟨hd, hcs⟩ := List.cons.inj hcs
      rw [← hd] at heven
      cases inside with
      | nil => exact absurd heven (by decide)
      | cons d' inside => exact ih hrest (List.cons.inj hcs).2 ((even_backslashes_escaped d' inside).1 heven)
  | case4 cs hlast hmore => cases h
  | case5 c cs hlast hmore hne ih =>
    have hrest : closeString quote cs = none := by simpa using h
    cases inside with
    | nil => exact hne (List.cons.inj hcs).1
    | cons d inside =>
      obtain ⟨hd, hcs⟩ := List.cons.inj hcs
      rw [← hd, backslashes_cons_of_ne (ne_backslash hlast hmore)] at heven
      exact ih hrest hcs heven

/-! ## Errors of the lexer -/

/-- The error of a scan that starts at a position. -/
def Lexer.Scan.error? (position : Nat) : Scan → Option ParseError
  | .token .. => none
  | .invalidCharacter c => some (.invalidCharacter c position)
  | .invalidNumber literal _ => some (.invalidNumber (String.ofList literal) position)
  | .unclosedString _ => some (.unclosedString position)

theorem Lexer.eq_of_invalidCharacter {c x : Char} {cs : List Char} (h : scan c cs = .invalidCharacter x) : x = c := by
  unfold scan at h
  split at h
  · unfold scanNumber at h
    simp only at h
    repeat' split at h
    all_goals cases h
  · repeat' split at h
    all_goals cases h
    rfl

/-- A step to an error goes past blanks. -/
theorem Cursor.next_eq_error {c c' : Cursor} {e : ParseError} (h : c.next = (.error e, c')) :
    ∃ blanks ch cs, c.rest = blanks ++ ch :: cs ∧ (∀ b ∈ blanks, isBlank b = true) ∧
      (scan ch cs).error? (c.position + byteLength blanks) = some e := by
  unfold Cursor.next at h
  extract_lets start at h
  split at h
  · cases h
  · rename_i ch cs hd
    refine ⟨c.rest.takeWhile isBlank, ch, cs, by rw [← hd, List.takeWhile_append_dropWhile],
      fun b hb => List.mem_takeWhile_imp hb, ?_⟩
    split at h <;> cases h <;> rename_i hscan <;> rw [hscan] <;> rfl

/-- **A run that fails does so at a scan.**  If there is a string, what stands in front of it is made up of the tokens. -/
theorem Cursor.exists_of_failed (c : Cursor) {e : ParseError} (h : c.lex.ending = .failed e) :
    ∃ front ch cs, c.rest = front ++ ch :: cs ∧ (scan ch cs).error? (c.position + byteLength front) = some e ∧
      (Divided (ch :: cs) → Lexes front (tokensOf c.lex.lexemes)) := by
  fun_induction Cursor.lex c with
  | case1 c l c' hnext hlt r ih =>
    obtain ⟨front, ch, cs, hrest', herror, hlexes⟩ := ih h
    obtain ⟨blanks, x, xs, lexeme, hrest, hblanks, hx, hscan, hstart, hstop, hposition, -⟩ := next_eq_lexeme hnext
    have happend := scan_append hscan
    refine ⟨blanks ++ (lexeme ++ front), ch, cs, ?_, ?_, fun hdivided => ?_⟩
    · rw [hrest, ← happend, hrest']
      simp only [List.append_assoc]
    · rw [byteLength_append, byteLength_append, ← herror, hposition, hstop, hstart]
      congr 1
      omega
    · obtain ⟨w, rfl, -⟩ := (scans_of_scan hscan).alone
      have hxs : xs = w ++ front ++ ch :: cs := by
        rw [List.append_assoc, ← hrest']
        exact (List.cons.inj happend).2.symm
      rw [hrest', hxs] at hscan
      exact lexes_blanks hblanks
        (lexes_token hx ((scans_of_scan hscan).of_divided hdivided).scan (hlexes hdivided))
  | case2 => cases h
  | case3 c e' c' hnext =>
    cases h
    obtain ⟨blanks, ch, cs, hrest, hblanks, herror⟩ := next_eq_error hnext
    refine ⟨blanks, ch, cs, hrest, herror, fun _ => ?_⟩
    rw [← List.append_nil blanks]
    exact lexes_blanks hblanks lexes_nil

theorem truthful_of_failed {text : String} {e : ParseError} (h : (lex text).ending = .failed e) : e.Truthful text := by
  obtain ⟨front, ch, cs, hrest, herror, hlexes⟩ := (Cursor.ofString text).exists_of_failed h
  have htext : text.toList = front ++ ch :: cs := hrest
  have hposition : (Cursor.ofString text).position + byteLength front = byteLength front := Nat.zero_add _
  rw [hposition] at herror
  cases hscan : scan ch cs with
  | token t lexeme rest => rw [hscan] at herror; cases herror
  | invalidCharacter x =>
    rw [hscan] at herror
    cases herror
    rw [eq_of_invalidCharacter hscan]
    exact ⟨front, cs, htext, rfl⟩
  | invalidNumber literal rest =>
    rw [hscan] at herror
    cases herror
    refine ⟨front, rest, ?_, rfl⟩
    rw [String.toList_ofList, Scanner.scan_invalidNumber hscan, htext]
  | unclosedString passed =>
    rw [hscan] at herror
    cases herror
    obtain ⟨hquote, hclose, -⟩ := Scanner.eq_of_unclosedString hscan
    have hne : ch ≠ '\\' := by rcases hquote with rfl | rfl <;> decide
    exact ⟨front, ch, cs, _, htext, rfl, hquote, hlexes (divided_cons (.inr hquote) cs),
      fun inside behind hcs => odd_backslashes_of_closeString hne hclose hcs⟩

/-! ## Positions -/

/-- A position of the text that is inside no character. -/
def Reached (text : String) (p : Nat) : Prop := p ≤ text.utf8ByteSize ∧ (⟨p⟩ : String.Pos.Raw).IsValid text

theorem reached_byteLength {text : String} {front back : List Char} (h : text.toList = front ++ back) :
    Reached text (byteLength front) := by
  refine ⟨?_, isValid_byteLength h⟩
  rw [utf8ByteSize_eq, h, byteLength_append]
  exact Nat.le_add_right _ _

theorem exists_of_reached {text : String} {p : Nat} (h : Reached text p) :
    ∃ front back, text.toList = front ++ back ∧ p = byteLength front := by
  obtain ⟨front, back, rfl, hp⟩ := String.Pos.Raw.isValid_iff_exists_append.1 h.2
  refine ⟨front.toList, back.toList, String.toList_append, ?_⟩
  rw [byteLength_eq, String.ofList_toList]
  exact congrArg String.Pos.Raw.byteIdx hp

theorem reached_end (text : String) : Reached text text.utf8ByteSize := by
  rw [utf8ByteSize_eq]
  exact reached_byteLength (List.append_nil _).symm

theorem Tiles.within {text : String} {ending : Ending} : ∀ {position : Nat} {ls : List Lexeme},
    Tiles text ending position ls → ∀ l ∈ ls, l.Within text
  | _, [], _ => nofun
  | _, _ :: _, ⟨_, hl, htail⟩ => List.forall_mem_cons.2 ⟨hl, htail.within⟩

theorem reached_start {text : String} {l : Lexeme} (hl : l ∈ (lex text).lexemes) : Reached text l.start := by
  have hwithin := (Cursor.behind_ofString text).tiles.within l hl
  exact ⟨Nat.le_trans (Nat.le_of_lt hwithin.lt) hwithin.le, hwithin.start⟩

/-- What is true of the text is said of a position in it. -/
theorem ParseError.Truthful.reached {text : String} {e : ParseError} (h : e.Truthful text) {p : Nat}
    (hp : e.position? = some p) : Reached text p := by
  have hplace {p : Nat} (h : (∃ l ∈ (lex text).lexemes, l.start = p) ∨ p = text.utf8ByteSize) : Reached text p := by
    obtain ⟨l, hl, rfl⟩ | rfl := h
    · exact reached_start hl
    · exact reached_end text
  cases e <;> simp only [position?, Option.some.injEq, reduceCtorEq] at hp <;> subst hp
  case invalidCharacter =>
    obtain ⟨front, back, htext, rfl⟩ := h
    exact reached_byteLength htext
  case invalidNumber =>
    obtain ⟨front, back, htext, rfl⟩ := h
    exact reached_byteLength htext
  case unclosedString =>
    obtain ⟨front, quote, back, ts, htext, rfl, -⟩ := h
    exact reached_byteLength htext
  case unexpectedToken =>
    obtain ⟨l, hl, -, rfl⟩ := h
    exact reached_start hl
  case unexpectedEnd =>
    obtain rfl : _ = text.utf8ByteSize := h
    exact reached_end text
  case expected => exact hplace h
  case tooDeep => exact hplace h

/-! ## Errors of the readers -/

section
variable {text : String} {limit : Nat} {e : ParseError}

theorem lexed_nothing_iff : ((lex text).lexemes = [] ∧ ∃ stop, (lex text).ending = .finished stop) ↔
    ∀ c ∈ text.toList, isBlank c = true := by
  rw [lex, lex_eq]
  constructor
  · rintro ⟨hnil, stop, hstop⟩
    cases hnext : (Cursor.ofString text).next with | mk found c' =>
    cases found with
    | lexeme l => rw [hnext] at hnil; cases hnil
    | finish => exact (next_eq_finish hnext).1
    | error e => rw [hnext] at hstop; cases hstop
  · intro h
    have hdrop : (Cursor.ofString text).rest.dropWhile isBlank = [] := List.dropWhile_eq_nil_iff.2 h
    obtain ⟨c', hnext⟩ : ∃ c', (Cursor.ofString text).next = (.finish, c') := ⟨_, by simp only [Cursor.next, hdrop]; rfl⟩
    rw [hnext]
    exact ⟨rfl, _, rfl⟩

/-- Where a reader arrives there is a lexeme of the text, or its end. -/
theorem position_of_arrive {pre rest : List Lexeme} (hls : (lex text).lexemes = pre ++ rest)
    (harrive : Setting.arrive ⟨(lex text).ending, limit⟩ rest = .ok ()) :
    (∃ l ∈ (lex text).lexemes, l.start = Setting.position ⟨(lex text).ending, limit⟩ rest) ∨
      Setting.position ⟨(lex text).ending, limit⟩ rest = text.utf8ByteSize := by
  cases rest with
  | cons l rest => exact .inl ⟨l, by rw [hls]; simp, rfl⟩
  | nil =>
    obtain ⟨stop, hstop⟩ := ending_of_arrive harrive
    simp only at hstop
    simp only [Setting.position, hstop]
    exact .inr (lex_stop hstop)

theorem truthful_of_blames {ts : List Token} {pre rest : List Lexeme} (hls : (lex text).lexemes = pre ++ rest)
    (h : Setting.Blames ⟨(lex text).ending, limit⟩ ts rest e) : e.Truthful text := by
  cases rest with
  | cons l rest =>
    have hl : l ∈ (lex text).lexemes := by rw [hls]; simp
    obtain rfl | ⟨what, rfl⟩ := h
    · exact ⟨l, hl, rfl, rfl⟩
    · exact .inl ⟨l, hl, rfl⟩
  | nil =>
    cases hending : (lex text).ending with
    | failed e' =>
      simp only [Setting.Blames, hending] at h
      exact h ▸ truthful_of_failed hending
    | finished stop =>
      simp only [Setting.Blames, hending] at h
      have hstop := lex_stop hending
      split at h <;> subst h
      · exact .inr hstop
      · exact hstop

theorem Expr.truthful_of_parse (h : Expr.parse text limit = .error e) : e.Truthful text := by
  by_cases hnil : (lex text).lexemes = []
  · rw [Expr.parse, whole_nil hnil] at h
    cases hending : (lex text).ending with
    | finished stop =>
      rw [hending] at h
      cases h
      exact lexed_nothing_iff.1 ⟨hnil, stop, hending⟩
    | failed e' =>
      rw [hending] at h
      cases h
      exact truthful_of_failed hending
  · rcases whole_error (lex text).ending hnil (Nat.le_refl limit) h with ⟨hdeep, -⟩ | ⟨pre, rest, hls, -, hblames, -⟩
    · obtain ⟨pre, rest, hls, harrive, rfl⟩ := hdeep
      exact position_of_arrive hls harrive
    · exact truthful_of_blames hls hblames

/-- **Errors are where they say.**  What an error says of the text is true of it, and its position is one in the text,
inside no character.  A text is empty if there is nothing in it but blanks. -/
theorem Expr.parse_error_truthful (text : String) (limit : Nat) :
    (∀ e, Expr.parse text limit = .error e → e.Truthful text ∧
      ∀ p, e.position? = some p → p ≤ text.utf8ByteSize ∧ (⟨p⟩ : String.Pos.Raw).IsValid text) ∧
    (Expr.parse text limit = .error .empty ↔ ∀ c ∈ text.toList, c = ' ' ∨ c = '\t' ∨ c = '\r' ∨ c = '\n') := by
  refine ⟨fun e h => ⟨truthful_of_parse h, fun p hp => (truthful_of_parse h).reached hp⟩, ?_⟩
  have hblank : (∀ c ∈ text.toList, isBlank c = true) ↔
      ∀ c ∈ text.toList, c = ' ' ∨ c = '\t' ∨ c = '\r' ∨ c = '\n' := by
    simp only [isBlank, Bool.or_eq_true, decide_eq_true_eq, or_assoc]
  rw [← hblank]
  constructor
  · exact fun h => truthful_of_parse h
  · intro h
    obtain ⟨hnil, stop, hstop⟩ := lexed_nothing_iff.2 h
    rw [Expr.parse, whole_nil hnil, hstop]

/-- A literal that only an escaped quote follows, behind one with a character of two bytes; an operator at the end; and
blanks. -/
theorem Expr.parse_error_truthful_unclosed :
    Expr.parse "'é' = 'a\\'" 9 = .error (.unclosedString 7) ∧
    (ParseError.unclosedString 7).Truthful "'é' = 'a\\'" ∧ (⟨7⟩ : String.Pos.Raw).IsValid "'é' = 'a\\'" ∧
    Expr.parse "a + " 9 = .error (.unexpectedEnd 4) ∧ (ParseError.unexpectedEnd 4).Truthful "a + " ∧
    Expr.parse " \t\r\n" 9 = .error .empty := by
  have hunclosed : Expr.parse "'é' = 'a\\'" 9 = .error (.unclosedString 7) := by cbv
  have hend : Expr.parse "a + " 9 = .error (.unexpectedEnd 4) := by cbv
  obtain ⟨htruthful, hreached⟩ := (Expr.parse_error_truthful _ _).1 _ hunclosed
  exact ⟨hunclosed, htruthful, (hreached 7 rfl).2, hend, ((Expr.parse_error_truthful _ _).1 _ hend).1,
    (Expr.parse_error_truthful " \t\r\n" 9).2.2 (by simp)⟩

end
end FlatNtuple
