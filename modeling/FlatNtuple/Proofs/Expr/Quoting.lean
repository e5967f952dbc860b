import FlatNtuple.Proofs.Expr.Filling
import FlatNtuple.Proofs.Expr.Segments
/-!
# Every string has its literal

Between quotes a string is written with a backslash in front of each quote and each backslash (`Quote.literal`).  The
scanner finds the closing quote behind all of it (`closeString_escape`), and what the raw contents stand for is the
string (`unescape_escape`).  The other way around, the raw contents of any literal are characters and pairs of a
backslash and a character (`paired_of_closeString`), so that no backslash is left over at their end.
-/
namespace FlatNtuple

open Lexer FlatNtuple.Parser

/-- What string literals are delimited by. -/
inductive Quote
  | single
  | double
  deriving DecidableEq

namespace Quote

def char : Quote → Char
  | single => '\''
  | double => '"'

/-- The characters of a string as they are written between quotes. -/
def escape (q : Quote) (cs : List Char) : List Char := cs.flatMap fun c => if c = q.char ∨ c = '\\' then ['\\', c] else [c]

/-- The literal of a string. -/
def literal (q : Quote) (v : String) : String := String.ofList (q.char :: (q.escape v.toList ++ [q.char]))

variable (q : Quote) {cs rest : List Char}

theorem char_ne_backslash : q.char ≠ '\\' := by cases q <;> decide

theorem isQuote : q.char = '\'' ∨ q.char = '"' := by cases q <;> decide

theorem escape_cons_of_special {c : Char} (h : c = q.char ∨ c = '\\') (cs : List Char) :
    q.escape (c :: cs) = '\\' :: c :: q.escape cs := by
  simp [escape, h]

theorem escape_cons_of_plain {c : Char} (h : ¬ (c = q.char ∨ c = '\\')) (cs : List Char) :
    q.escape (c :: cs) = c :: q.escape cs := by
  simp [escape, h]

/-- A string is closed behind its escaped characters. -/
theorem closeString_escape (cs rest : List Char) :
    closeString q.char (q.escape cs ++ q.char :: rest) = some (q.escape cs, rest) := by
  induction cs with
  | nil => exact closeString_quote q.char_ne_backslash rest
  | cons c cs ih =>
    by_cases h : c = q.char ∨ c = '\\'
    · rw [escape_cons_of_special q h, List.cons_append, List.cons_append, closeString, ih]
      rfl
    · rw [escape_cons_of_plain q h, List.cons_append, closeString_char (fun hc => h (.inr hc)) (fun hc => h (.inl hc)), ih]
      rfl

end Quote

theorem unescape_cons {c : Char} (hc : c ≠ '\\') (cs : List Char) : unescape (c :: cs) = c :: unescape cs := by
  rw [unescape]
  · exact fun h _ => hc h
  · exact fun _ _ h _ => hc h

/-- Escaped characters stand for themselves. -/
theorem Quote.unescape_escape (q : Quote) (cs : List Char) : unescape (q.escape cs) = cs := by
  induction cs with
  | nil => rfl
  | cons c cs ih =>
    by_cases h : c = q.char ∨ c = '\\'
    · rw [escape_cons_of_special q h, unescape, ih]
    · rw [escape_cons_of_plain q h, unescape_cons (fun hc => h (.inr hc)), ih]

/-! ## Raw contents -/

/-- What raw contents are made up of: a character as it is, or a backslash with the character it is put in front of. -/
inductive Piece
  | plain (c : Char) (h : c ≠ '\\')
  | escaped (c : Char)

namespace Piece

def chars : Piece → List Char
  | plain c _ => [c]
  | escaped c => ['\\', c]

/-- The character that is meant. -/
def char : Piece → Char
  | plain c _ => c
  | escaped c => c

theorem unescape_chars (pieces : List Piece) : unescape (pieces.flatMap chars) = pieces.map char := by
  induction pieces with
  | nil => rfl
  | cons p pieces ih =>
    cases p with
    | plain c h => rw [List.flatMap_cons, chars, List.singleton_append, unescape_cons h, ih, List.map_cons, char]
    | escaped c => rw [List.flatMap_cons, chars, List.cons_append, List.singleton_append, unescape, ih, List.map_cons, char]

end Piece

/-- How many backslashes some characters end with. -/
def backslashes (cs : List Char) : Nat := (cs.reverse.takeWhile (· = '\\')).length

theorem backslashes_concat (cs : List Char) (c : Char) :
    backslashes (cs ++ [c]) = if c = '\\' then backslashes cs + 1 else 0 := by
  rw [backslashes, List.reverse_append, List.reverse_singleton, List.singleton_append, List.takeWhile_cons]
  by_cases hc : c = '\\'
  · simp [hc, backslashes]
  · simp [hc]

/-- Pieces end with an even number of backslashes: each is put in front of another. -/
theorem Piece.even_backslashes (pieces : List Piece) : Even (backslashes (pieces.flatMap Piece.chars)) := by
  induction pieces using List.reverseRecOn with
  | nil => exact ⟨0, rfl⟩
  | append_singleton pieces p ih =>
    rw [List.flatMap_append, List.flatMap_singleton]
    cases p with
    | plain c h =>
      rw [chars, backslashes_concat, if_neg h]
      exact ⟨0, rfl⟩
    | escaped c =>
      have hsplit : pieces.flatMap chars ++ ['\\', c] = pieces.flatMap chars ++ ['\\'] ++ [c] := by simp
      rw [chars, hsplit, backslashes_concat, backslashes_concat, if_pos rfl]
      split
      · exact ih.add even_two
      · exact ⟨0, rfl⟩

/-- What a string is closed behind is made up of pieces. -/
theorem exists_pieces {quote : Char} {cs raw rest : List Char} (h : closeString quote cs = some (raw, rest)) :
    ∃ pieces : List Piece, raw = pieces.flatMap Piece.chars := by
  fun_induction closeString quote cs generalizing raw rest with
  | case1 => cases h
  | case2 => cases h
  | case3 c cs ih =>
    obtain ⟨⟨raw', rest'⟩, hr, he⟩ := Option.map_eq_some_iff.1 h
    cases he
    obtain ⟨pieces, rfl⟩ := ih hr
    exact ⟨.escaped c :: pieces, rfl⟩
  | case4 cs hlast hmore =>
    cases h
    exact ⟨[], rfl⟩
  | case5 c cs hlast hmore hne ih =>
    obtain ⟨⟨raw', rest'⟩, hr, he⟩ := Option.map_eq_some_iff.1 h
    cases he
    obtain ⟨pieces, rfl⟩ := ih hr
    exact ⟨.plain c (ne_backslash hlast hmore) :: pieces, rfl⟩

/-- Numbers and strings. -/
def Token.isLiteral : Token → Bool
  | .integer _ | .decimal _ | .string _ => true
  | _ => false

theorem isLiteral_ofWord (word : String) : (Token.ofWord word).isLiteral = false := by
  unfold Token.ofWord
  repeat' split
  all_goals rfl

theorem isLiteral_ofSymbol {c : Char} {next : Option Char} {t : Token} {long : Bool}
    (h : Token.ofSymbol c next = some (t, long)) : t.isLiteral = false := by
  unfold Token.ofSymbol at h
  split at h <;> grind [Token.isLiteral]

theorem scanNumber_ne_string {cs lexeme rest : List Char} {raw : String} :
    scanNumber cs ≠ .token (.string raw) lexeme rest := by
  unfold scanNumber
  simp only
  repeat' split
  all_goals nofun

/-- Raw contents are what a string is closed behind. -/
theorem closeString_of_scans {c : Char} {cs lexeme rest : List Char} {raw : String}
    (h : Scans c cs (.string raw) lexeme rest) : closeString c cs = some (raw.toList, rest) := by
  generalize ht : Token.string raw = t at h
  cases h with
  | number _ hscan => exact absurd (ht ▸ hscan) scanNumber_ne_string
  | word => cases (congrArg Token.isLiteral ht).trans (isLiteral_ofWord _)
  | string _ hclose =>
    cases ht
    rwa [String.toList_ofList]
  | short _ hsymbol => cases (congrArg Token.isLiteral ht).trans (isLiteral_ofSymbol hsymbol)
  | long hsymbol => cases (congrArg Token.isLiteral ht).trans (isLiteral_ofSymbol hsymbol)

theorem Cursor.exists_scan (c : Cursor) {l : Lexeme} (hl : l ∈ c.lex.lexemes) :
    ∃ ch cs lexeme rest, scan ch cs = .token l.token lexeme rest := by
  fun_induction Cursor.lex c with
  | case1 c l' c' hnext hlt r ih =>
    rcases List.mem_cons.1 hl with rfl | hl
    · obtain ⟨-, ch, cs, lexeme, -, -, -, hscan, -⟩ := next_eq_lexeme hnext
      exact ⟨ch, cs, lexeme, c'.rest, hscan⟩
    · exact ih hl
  | case2 => cases hl
  | case3 => cases hl

/-- The raw contents of a string token are made up of pieces. -/
theorem exists_pieces_of_mem {text raw : String} {l : Lexeme} (hl : l ∈ (lex text).lexemes) (hraw : l.token = .string raw) :
    ∃ pieces : List Piece, raw.toList = pieces.flatMap Piece.chars := by
  obtain ⟨ch, cs, lexeme, rest, hscan⟩ := Cursor.exists_scan _ hl
  rw [hraw] at hscan
  exact exists_pieces (closeString_of_scans (scans_of_scan hscan))

/-! ## Literals in texts -/

namespace Quote

variable (q : Quote) (v : String)

/-- What stands between the quotes. -/
def raw : String := String.ofList (q.escape v.toList)

theorem toList_literal : (q.literal v).toList = q.char :: (q.escape v.toList ++ [q.char]) := String.toList_ofList

theorem scan_literal (rest : List Char) : scan q.char (q.escape v.toList ++ q.char :: rest) =
    .token (.string (q.raw v)) (q.literal v).toList rest := by
  rw [scan_string q.isQuote (q.closeString_escape v.toList rest), toList_literal]
  rfl

theorem stringOf_raw : Grammar.stringOf (q.raw v) = .string v := by
  rw [Grammar.stringOf, raw, String.toList_ofList, q.unescape_escape, String.ofList_toList]

theorem lexes_literal {rest : List Char} {us : List Token} (h : Lexes rest us) :
    Lexes ((q.literal v).toList ++ rest) (.string (q.raw v) :: us) := by
  have hblank : isBlank q.char = false := by cases q <;> rfl
  have hlexes := lexes_token hblank (q.scan_literal v rest) h
  simpa [toList_literal] using hlexes

theorem divided_literal (rest : List Char) : Divided ((q.literal v).toList ++ rest) := by
  rw [toList_literal]
  exact divided_cons (.inr q.isQuote) _

end Quote

/-- A name can stand for a value between two parts of a text, and stands nowhere else in it. -/
structure Place (front hole back : String) : Prop where
  front_finished : ∃ stop, (lex front).ending = .finished stop
  back_finished : ∃ stop, (lex back).ending = .finished stop
  isName : IsName hole
  fresh_front : Token.identifier hole ∉ tokensOf (lex front).lexemes
  fresh_back : Token.identifier hole ∉ tokensOf (lex back).lexemes
  not_accessor : (tokensOf (lex front).lexemes).getLast? ≠ some .dot
  not_function : (tokensOf (lex back).lexemes).head? ≠ some .leftParen

theorem Place.lexes_hole {front hole back : String} (h : Place front hole back) :
    Lexes (front ++ " " ++ hole ++ " " ++ back).toList
      (tokensOf (lex front).lexemes ++ .identifier hole :: tokensOf (lex back).lexemes) := by
  obtain ⟨⟨_, hfront⟩, ⟨_, hback⟩, hname, -, -, -, -⟩ := h
  have hhole : Lexes (hole.toList ++ ' ' :: back.toList) (.identifier hole :: tokensOf (lex back).lexemes) :=
    hname.spells.before rfl (by decide) (lexes_blank (lexes_of_finished hback))
  have hlexes := (lexes_of_finished hfront).append (divided_cons (.inl rfl) _) (lexes_blank hhole)
  simpa using hlexes

theorem Place.lexes_literal {front hole back : String} (h : Place front hole back) (q : Quote) (v : String) :
    Lexes (front ++ q.literal v ++ back).toList
      (tokensOf (lex front).lexemes ++ .string (q.raw v) :: tokensOf (lex back).lexemes) := by
  obtain ⟨⟨_, hfront⟩, ⟨_, hback⟩, -⟩ := h
  have hlexes := (lexes_of_finished hfront).append (q.divided_literal v _)
    (q.lexes_literal v (lexes_of_finished hback))
  simpa using hlexes

section
variable (q : Quote) (v : String)

/-- A literal by itself. -/
theorem parse_alone {limit : Nat} (hlimit : 0 < limit) :
    Expr.parse (q.literal v) limit = .ok (.literal (.string v)) := by
  have hlexes := q.lexes_literal v lexes_nil
  rw [List.append_nil] at hlexes
  obtain ⟨htokens, stop, hstop⟩ := hlexes 0 0
  obtain ⟨d, hd, htree, hnesting⟩ := exists_loosened (b := .cond) (.string (q.raw v)) (by decide)
  have hliteral : d.tree = .literal (.string v) := htree.trans (congrArg Expr.literal (q.stringOf_raw v))
  have hwhole := whole_complete hstop (hd.trans htokens.symm) (hnesting.trans_lt hlimit) (by rw [hliteral]; exact hlimit)
  rwa [hliteral] at hwhole

/-- A literal in the place of a name. -/
theorem Place.parse_filled {front hole back : String} (h : Place front hole back) {limit : Nat} {e : Expr}
    (he : Expr.parse (front ++ " " ++ hole ++ " " ++ back) limit = .ok e) :
    Expr.parse (front ++ q.literal v ++ back) limit = .ok (e.fill hole (.string v)) := by
  obtain ⟨htokens, -⟩ := h.lexes_hole 0 0
  obtain ⟨htokens', stop, hstop⟩ := h.lexes_literal q v 0 0
  rw [← q.stringOf_raw v]
  exact whole_fill h.fresh_front h.fresh_back h.not_accessor h.not_function hstop htokens htokens' he

/-- The scanner at a literal. -/
theorem next_literal (front back : String) (start : Nat) (torn : Bool) :
    Scanner.next ⟨front ++ q.literal v ++ back, front.utf8ByteSize, start, torn⟩ = (.ok (some (.string (q.raw v))),
      ⟨front ++ q.literal v ++ back, (front ++ q.literal v).utf8ByteSize, front.utf8ByteSize, torn⟩) := by
  have hchars : (front ++ q.literal v ++ back).toList =
      front.toList ++ q.char :: (q.escape v.toList ++ q.char :: back.toList) := by
    simp [q.toList_literal v]
  have hblank : isBlank q.char = false := by cases q <;> rfl
  have hnext := @Scanner.next_past (front ++ q.literal v ++ back) start torn front.toList _ hchars
  simp only [List.takeWhile_cons, List.dropWhile_cons, hblank, Bool.false_eq_true, if_false, List.append_nil,
    q.scan_literal v, Scanner.found, Scanner.past] at hnext
  rw [utf8ByteSize_eq, utf8ByteSize_eq, String.toList_append, hnext]
  rfl

end

/-- **Every string has its literal**, between either kind of quotes.  By itself the literal is parsed to the string.  In
the place of a name it leaves the tree that the name leaves, but for the string in the place of the name.  The scanner
goes on right behind the closing quote.  And whatever literal there is in a text, its raw contents are characters and
pairs of a backslash and a character, of which only the backslashes are dropped. -/
theorem Expr.parse_literal :
    (∀ (q : Quote) (v : String),
      (∀ limit, 0 < limit → Expr.parse (q.literal v) limit = .ok (.literal (.string v))) ∧
      (∀ front hole back limit e, Place front hole back →
        Expr.parse (front ++ " " ++ hole ++ " " ++ back) limit = .ok e →
        Expr.parse (front ++ q.literal v ++ back) limit = .ok (e.fill hole (.string v))) ∧
      ∀ front back start torn, Scanner.next ⟨front ++ q.literal v ++ back, front.utf8ByteSize, start, torn⟩ =
        (.ok (some (.string (q.raw v))),
          ⟨front ++ q.literal v ++ back, (front ++ q.literal v).utf8ByteSize, front.utf8ByteSize, torn⟩)) ∧
    ∀ text l raw, l ∈ (lex text).lexemes → l.token = .string raw →
      Even (backslashes raw.toList) ∧
      ∃ pieces : List Piece, raw.toList = pieces.flatMap Piece.chars ∧ unescape raw.toList = pieces.map Piece.char := by
  refine ⟨fun q v => ⟨fun limit hlimit => ?_, fun front hole back limit e hplace he => ?_, fun front back start torn => ?_⟩,
    fun text l raw hl hraw => ?_⟩
  · exact parse_alone q v hlimit
  · exact hplace.parse_filled q v he
  · exact next_literal q v front back start torn
  · obtain ⟨pieces, hpieces⟩ := exists_pieces_of_mem hl hraw
    rw [hpieces, Piece.unescape_chars]
    exact ⟨Piece.even_backslashes pieces, pieces, rfl, rfl⟩

/-- A quote inside the string, and one that is closed only behind an escaped backslash. -/
theorem Expr.parse_literal_quote :
    Expr.parse "'it\\'s'" 1 = .ok (.literal (.string "it's")) ∧
    Expr.parse "f('it\\'s') > 1" 9 =
      .ok (.binary .greater (.call "f" [.literal (.string "it's")]) (.literal (.integer 1))) ∧
    Scanner.next ⟨"f('it\\'s') > 1", 2, 0, false⟩ =
      (.ok (some (.string "it\\'s")), ⟨"f('it\\'s') > 1", 9, 2, false⟩) ∧
    (Even (backslashes "\\\\".toList) ∧
      ∃ pieces : List Piece, "\\\\".toList = pieces.flatMap Piece.chars ∧ unescape "\\\\".toList = pieces.map Piece.char) := by
  obtain ⟨hliterals, hraw⟩ := Expr.parse_literal
  obtain ⟨halone, hinside, hnext⟩ := hliterals .single "it's"
  have hplace : Place "f(" "x" ") > 1" :=
    ⟨⟨2, by decide +kernel⟩, ⟨5, by decide +kernel⟩, by decide +kernel, by decide +kernel, by decide +kernel,
      by decide +kernel, by decide +kernel⟩
  have hname : Expr.parse "f( x ) > 1" 9 = .ok (.binary .greater (.call "f" [.name "x"]) (.literal (.integer 1))) := by
    cbv
  have hlex : lex "'\\\\'" = ⟨[⟨.string "\\\\", 0, 4⟩], .finished 4⟩ := by decide +kernel
  refine ⟨halone 1 Nat.one_pos, ?_, hnext "f(" ") > 1" 0 false, ?_⟩
  · have htext : "f(" ++ Quote.single.literal "it's" ++ ") > 1" = "f('it\\'s') > 1" := by decide +kernel
    have hparse := hinside "f(" "x" ") > 1" 9 _ hplace hname
    rw [htext] at hparse
    simpa [Expr.fill, Expr.fillArgs] using hparse
  · exact hraw "'\\\\'" ⟨.string "\\\\", 0, 4⟩ "\\\\" (by simp [hlex]) rfl

end FlatNtuple
