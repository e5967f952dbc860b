import FlatNtuple.Proofs.Expr.Placement
import FlatNtuple.Proofs.Expr.Segments
/-!
# Layout does not matter

The sources of a text's lexemes, set apart by whatever blanks, have the tokens of the text (`lexes_spread`): no token
depends on what stands behind it in the text.  And as the readers go by tokens only, they read the same expression, or
have the same complaint.
-/
namespace FlatNtuple

open Lexer FlatNtuple.Parser

/-- Blanks for some pieces of text: in front of all of them and behind each, and at least one between any two. -/
structure Spacing (pieces : Nat) where
  front : List Char
  behind : List (List Char)
  length_behind : behind.length = pieces
  blank_front : ∀ b ∈ front, isBlank b = true
  blank_behind : ∀ blanks ∈ behind, ∀ b ∈ blanks, isBlank b = true
  between : ∀ blanks ∈ behind.dropLast, blanks ≠ []

/-- Pieces, each with what comes behind it. -/
def spread (pieces : List String) (behind : List (List Char)) : List Char :=
  (List.zipWith (fun piece blanks => piece.toList ++ blanks) pieces behind).flatten

def Spacing.apply {n : Nat} (s : Spacing n) (pieces : List String) : String :=
  String.ofList (s.front ++ spread pieces s.behind)

/-- What stands in a text at the place of a lexeme. -/
def Lexeme.source (text : String) (l : Lexeme) : String := (slice? text l.start l.stop).getD ""

/-- The sources of the lexemes of a text. -/
def sources (text : String) : List String := (lex text).lexemes.map (Lexeme.source text)

/-- By itself, what stands at the place of a lexeme is its token. -/
theorem Cursor.Behind.lexes_source {c : Cursor} {text : String} {pre : List Char} (h : c.Behind text pre) :
    ∀ l ∈ c.lex.lexemes, Lexes (l.source text).toList [l.token] := by
  fun_induction Cursor.lex c generalizing pre with
  | case1 c l c' hnext hlt r =>
    rename_i ih
    obtain ⟨blanks, lexeme, -, -, hlexes, hstart, hstop, hbehind⟩ := h.next hnext
    refine List.forall_mem_cons.2 ⟨?_, ih hbehind⟩
    rwa [Lexeme.source, hstart, hstop, slice?_append hbehind.text, Option.getD_some, String.toList_ofList]
  | case2 => exact List.forall_mem_nil _
  | case3 => exact List.forall_mem_nil _

theorem divided_blanks {blanks : List Char} (hblank : ∀ b ∈ blanks, isBlank b = true) {cs : List Char}
    (h : blanks = [] → cs = []) : Divided (blanks ++ cs) := by
  cases blanks with
  | nil =>
    rw [h rfl]
    exact divided_nil
  | cons b blanks => exact divided_cons (.inl (hblank b List.mem_cons_self)) _

/-- Pieces that spell a token each spell these tokens, if there are blanks between them. -/
theorem lexes_spread {pieces : List String} {ts : List Token}
    (h : List.Forall₂ (fun piece t => Lexes piece.toList [t]) pieces ts) {behind : List (List Char)}
    (hlength : behind.length = pieces.length) (hblank : ∀ blanks ∈ behind, ∀ b ∈ blanks, isBlank b = true)
    (hbetween : ∀ blanks ∈ behind.dropLast, blanks ≠ []) : Lexes (spread pieces behind) ts := by
  induction h generalizing behind with
  | nil => exact lexes_nil
  | @cons piece t pieces ts hpiece hpieces ih =>
    obtain ⟨blanks, behind, rfl⟩ := List.exists_cons_of_length_eq_add_one hlength
    rw [List.forall_mem_cons] at hblank
    have hrest : Lexes (spread pieces behind) ts := by
      refine ih (Nat.succ.inj hlength) hblank.2 fun g hg => hbetween g ?_
      rw [List.dropLast_cons_of_ne_nil (by rintro rfl; cases hg)]
      exact List.mem_cons_of_mem _ hg
    have hdivided : Divided (blanks ++ spread pieces behind) := by
      refine divided_blanks hblank.1 fun hnil => ?_
      cases behind with
      | nil =>
        obtain rfl : pieces = [] := List.length_eq_zero_iff.1 (Nat.succ.inj hlength).symm
        rfl
      | cons g behind => exact absurd hnil (hbetween blanks (by simp))
    have hspread : spread (piece :: pieces) (blanks :: behind) = piece.toList ++ (blanks ++ spread pieces behind) := by
      simp [spread]
    rw [hspread]
    exact hpiece.append hdivided (lexes_blanks hblank.1 hrest)

/-- **Layout does not matter.**  Whatever blanks the sources of the lexemes are set apart with, their tokens are those of
the text, and they are parsed to the same tree, or with the same complaint in some place, under every limit. -/
theorem Expr.parse_spacing (text : String) {stop : Nat} (hfinished : (lex text).ending = .finished stop)
    (spacing : Spacing (lex text).lexemes.length) :
    tokensOf (lex (spacing.apply (sources text))).lexemes = tokensOf (lex text).lexemes ∧
    (∃ stop', (lex (spacing.apply (sources text))).ending = .finished stop') ∧
    ∀ limit, (Expr.parse (spacing.apply (sources text)) limit).mapError ParseError.unplaced =
      (Expr.parse text limit).mapError ParseError.unplaced := by
  have hpieces : List.Forall₂ (fun piece t => Lexes piece.toList [t]) (sources text) (tokensOf (lex text).lexemes) := by
    rw [sources, tokensOf, List.forall₂_map_left_iff, List.forall₂_map_right_iff, List.forall₂_same]
    exact (Cursor.behind_ofString text).lexes_source
  have hspread := lexes_spread hpieces (by rw [spacing.length_behind, sources, List.length_map]) spacing.blank_behind
    spacing.between
  obtain ⟨htokens, hstop⟩ := lexes_blanks spacing.blank_front hspread 0 0
  have hlex : lex (spacing.apply (sources text)) = Cursor.lex ⟨0, spacing.front ++ spread (sources text) spacing.behind, 0⟩ := by
    rw [lex, Cursor.ofString, Spacing.apply, String.toList_ofList]
  rw [← hlex] at htokens hstop
  exact ⟨htokens, hstop, fun limit => whole_same htokens hstop ⟨stop, hfinished⟩ limit⟩

/-- A text whose tokens all need the character behind them to be told apart from others, and one in which they have it
no more. -/
theorem Expr.parse_spacing_lookahead :
    tokensOf (lex "\ta <=\r\n.5e1 && ! b").lexemes = tokensOf (lex "a<=.5e1&&!b").lexemes ∧
    (∃ stop, (lex "\ta <=\r\n.5e1 && ! b").ending = .finished stop) ∧
    ∀ limit, (Expr.parse "\ta <=\r\n.5e1 && ! b" limit).mapError ParseError.unplaced =
      (Expr.parse "a<=.5e1&&!b" limit).mapError ParseError.unplaced := by
  have hlength : (lex "a<=.5e1&&!b").lexemes.length = 6 := by decide +kernel
  have hsources : sources "a<=.5e1&&!b" = ["a", "<=", ".5e1", "&&", "!", "b"] := by decide +kernel
  have hfinished : (lex "a<=.5e1&&!b").ending = .finished 11 := by decide +kernel
  have hspacing := Expr.parse_spacing "a<=.5e1&&!b" hfinished
    ⟨['\t'], [[' '], ['\r', '\n'], [' '], [' '], [' '], []], hlength.symm, by simp [isBlank], by simp [isBlank],
      by simp⟩
  rwa [hsources] at hspacing

end FlatNtuple
