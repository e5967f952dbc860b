import FlatNtuple.Proofs.Expr.Scanning
/-!
# Lexemes make up the text

The lexemes of a text stand in it one behind the other, each in a place of its own, with nothing but blanks between them
(`Tiles`).  The scanner finds these places by bytes, and whatever it cuts out begins and ends between characters, so
that it never has to make do with something else (`Scanner.run_tiles`).
-/
namespace FlatNtuple

open Lexer

/-- The bytes between two positions. -/
def bytesBetween (text : String) (start stop : Nat) : List UInt8 :=
  (text.toUTF8.data.toList.drop start).take (stop - start)

/-- One position is not before the other, and between them there are only blanks. -/
structure BlankBetween (text : String) (start stop : Nat) : Prop where
  le : start ≤ stop
  blank : ∀ b ∈ bytesBetween text start stop, isBlank (Char.ofUInt8 b) = true

/-- A lexeme takes bytes of the text, and begins and ends between characters. -/
structure Lexeme.Within (text : String) (l : Lexeme) : Prop where
  lt : l.start < l.stop
  le : l.stop ≤ text.utf8ByteSize
  start : (⟨l.start⟩ : String.Pos.Raw).IsValid text
  stop : (⟨l.stop⟩ : String.Pos.Raw).IsValid text

/-- From a position on, the text is made up of the lexemes and of blanks, up to its end if there is no error. -/
def Tiles (text : String) (ending : Ending) : Nat → List Lexeme → Prop
  | position, [] => ∀ stop, ending = .finished stop → BlankBetween text position stop ∧ stop = text.utf8ByteSize
  | position, l :: ls => BlankBetween text position l.start ∧ l.Within text ∧ Tiles text ending l.stop ls

theorem bytesBetween_append {text : String} {pre mid post : List Char} (h : text.toList = pre ++ mid ++ post) :
    bytesBetween text (byteLength pre) (byteLength (pre ++ mid)) = utf8 mid := by
  rw [bytesBetween, toList_toUTF8, h, take_drop_utf8]

theorem blankBetween_append {text : String} {pre blanks post : List Char} (h : text.toList = pre ++ blanks ++ post)
    (hblanks : ∀ b ∈ blanks, isBlank b = true) :
    BlankBetween text (byteLength pre) (byteLength (pre ++ blanks)) := by
  refine ⟨by rw [byteLength_append]; omega, ?_⟩
  rw [bytesBetween_append h, ← List.takeWhile_eq_self_iff, Scanner.asciiClass_isBlank.takeWhile_utf8,
    List.takeWhile_eq_self_iff.2 hblanks]

/-! ## Cursors in a text -/

/-- A cursor stands in the text behind some characters. -/
structure Cursor.Behind (c : Cursor) (text : String) (pre : List Char) : Prop where
  text : text.toList = pre ++ c.rest
  position : c.position = byteLength pre

theorem Cursor.behind_ofString (text : String) : (Cursor.ofString text).Behind text [] := ⟨rfl, rfl⟩

/-- A lexeme stands in the text behind blanks, and by itself it is its token. -/
theorem Cursor.Behind.next {c c' : Cursor} {text : String} {pre : List Char} {l : Lexeme} (h : c.Behind text pre)
    (hnext : c.next = (.lexeme l, c')) : ∃ blanks lexeme, (∀ b ∈ blanks, isBlank b = true) ∧ lexeme ≠ [] ∧
      Lexes lexeme [l.token] ∧ l.start = byteLength (pre ++ blanks) ∧ l.stop = byteLength (pre ++ blanks ++ lexeme) ∧
      c'.Behind text (pre ++ blanks ++ lexeme) := by
  obtain ⟨blanks, ch, cs, lexeme, hrest, hblanks, hch, hscan, hstart, hstop, hposition, -⟩ := next_eq_lexeme hnext
  have hstart' : l.start = byteLength (pre ++ blanks) := by rw [hstart, h.position, byteLength_append]
  have hstop' : l.stop = byteLength (pre ++ blanks ++ lexeme) := by rw [hstop, hstart', byteLength_append _ lexeme]
  refine ⟨blanks, lexeme, hblanks, lexeme_ne_nil hscan, ?_, hstart', hstop', ?_, hposition.trans hstop'⟩
  · obtain ⟨w, rfl, halone⟩ := (scans_of_scan hscan).alone
    exact lexes_token hch halone.scan lexes_nil
  · rw [h.text, hrest, ← scan_append hscan]
    simp only [List.append_assoc]

theorem Cursor.Behind.tiles {c : Cursor} {text : String} {pre : List Char} (h : c.Behind text pre) :
    Tiles text c.lex.ending c.position c.lex.lexemes := by
  fun_induction Cursor.lex c generalizing pre with
  | case1 c l c' hnext hlt r =>
    rename_i ih
    obtain ⟨blanks, lexeme, hblanks, hne, -, hstart, hstop, hbehind⟩ := h.next hnext
    have hposition : c'.position = l.stop := hbehind.position.trans hstop.symm
    have hlexeme : text.toList = pre ++ blanks ++ lexeme ++ c'.rest := hbehind.text
    have hsize : text.utf8ByteSize = byteLength (pre ++ blanks ++ lexeme) + byteLength c'.rest := by
      rw [← byteLength_append, utf8ByteSize_eq, hlexeme]
    refine ⟨?_, ⟨?_, ?_, ?_, ?_⟩, hposition ▸ ih hbehind⟩
    · rw [h.position, hstart]
      exact blankBetween_append (hlexeme.trans (List.append_assoc ..)) hblanks
    · rw [hstart, hstop, byteLength_append _ lexeme]
      exact Nat.lt_add_of_pos_right (byteLength_pos hne)
    · rw [hstop, hsize]
      exact Nat.le_add_right ..
    · rw [hstart]
      exact isValid_byteLength (hlexeme.trans (List.append_assoc ..))
    · rw [hstop]
      exact isValid_byteLength hlexeme
  | case2 c c' hnext =>
    rintro _ ⟨⟩
    obtain ⟨hblanks, hposition⟩ := next_eq_finish hnext
    have hstop : c'.position = byteLength (pre ++ c.rest) := by rw [hposition, h.position, byteLength_append]
    rw [hstop, h.position]
    refine ⟨blankBetween_append (h.text.trans (List.append_nil _).symm) hblanks, ?_⟩
    rw [utf8ByteSize_eq, h.text]
  | case3 =>
    intro stop hstop
    cases hstop

/-- **Scanning by bytes loses nothing.**  The tokens of a text stand one behind the other, each takes at least a byte and
begins and ends between characters, and what is not part of a token is blank; a run without an error comes to the end of
the text.  Nothing that is cut out begins or ends inside a character. -/
theorem Scanner.run_tiles (text : String) :
    (Scanner.ofString text).run.1 = lex text ∧ (Scanner.ofString text).run.2.torn = false ∧
    Tiles text (lex text).ending 0 (lex text).lexemes ∧
    ∀ stop, (lex text).ending = .finished stop → (Scanner.ofString text).run.2.position = stop := by
  obtain ⟨hlexed, htorn, hstop⟩ := run_beside (beside_ofString text)
  exact ⟨hlexed, htorn, (Cursor.behind_ofString text).tiles, hstop⟩

end FlatNtuple
