import FlatNtuple.Proofs.Expr.Completeness
import FlatNtuple.Proofs.Expr.Lexing
import FlatNtuple.Proofs.Expr.Lookahead
/-!
# Errors come at the earliest place

The first token that no expression has in its place is the one complained about, whatever follows it.  The readers are
only shown to complain no later than that (`whole_error`); that they complain no earlier is because they look no further
than the token complained about, and would read a completion of the tokens up to it (`whole_complete`).
-/
namespace FlatNtuple
namespace Parser

open Grammar

/-! ## The first token that does not fit -/

/-- There is a length that some completion of every beginning of the tokens stays under. -/
theorem exists_completions (a : Symbol) (ts : List Token) :
    ∃ bound, ∀ us, us <+: ts → Begun a us → ∃ d : Derivation a, us <+: d.tokens ∧ d.tokens.length < bound := by
  induction ts using List.reverseRecOn with
  | nil =>
    obtain ⟨d⟩ := nonempty_derivation a
    exact ⟨d.tokens.length + 1, fun us hus _ => ⟨d, by simp [List.prefix_nil.1 hus], Nat.lt_succ_self _⟩⟩
  | append_singleton ts t ih =>
    obtain ⟨bound, hbound⟩ := ih
    by_cases hall : Begun a (ts ++ [t])
    · obtain ⟨d, hd⟩ := hall
      refine ⟨max bound (d.tokens.length + 1), fun us hus hbegun => ?_⟩
      rcases List.prefix_concat_iff.1 hus with rfl | hus
      · exact ⟨d, hd, by omega⟩
      · obtain ⟨d', hd', hlt⟩ := hbound us hus hbegun
        exact ⟨d', hd', by omega⟩
    · refine ⟨bound, fun us hus hbegun => ?_⟩
      rcases List.prefix_concat_iff.1 hus with rfl | hus
      · exact absurd hbegun hall
      · exact hbound us hus hbegun

section
variable {lexed : Lexed} {limit : Nat} {e : ParseError}

/-- **A lexeme complained about fits nowhere.**  Otherwise its tokens could be completed, and the readers, which look no
further than it, would complain about the completion as well. -/
theorem whole_error_first (hnil : lexed.lexemes ≠ []) (hlength : lexed.lexemes.length < limit)
    (h : whole lexed limit = .error e) :
    ∃ pre rest, lexed.lexemes = pre ++ rest ∧ Begun .cond (tokensOf pre) ∧
      Setting.Blames ⟨lexed.ending, limit⟩ (tokensOf pre) rest e ∧
      ∀ l post, rest = l :: post → ¬ Begun .cond (tokensOf (pre ++ [l])) := by
  obtain ⟨bound, hbound⟩ := exists_completions .cond (tokensOf lexed.lexemes)
  obtain ⟨pre, rest, hls, hbegun, hblames, hagain⟩ :=
    (whole_error (.finished 0) hnil (Nat.le_max_left limit bound) h).resolve_left fun hdeep =>
      Nat.not_le_of_lt hlength hdeep.2
  refine ⟨pre, rest, hls, hbegun, hblames, ?_⟩
  rintro l post rfl hcontinued
  have hfront : tokensOf (pre ++ [l]) <+: tokensOf lexed.lexemes :=
    ⟨tokensOf post, by rw [hls, tokensOf, tokensOf, tokensOf, ← List.map_append, List.append_assoc]; rfl⟩
  obtain ⟨d, ⟨more, hmore⟩, hlt⟩ := hbound _ hfront hcontinued
  let rest' : List Lexeme := l :: more.map fun t => ⟨t, 0, 0⟩
  have herror : whole ⟨pre ++ rest', .finished 0⟩ (max limit bound) = .error e :=
    hagain rest' ⟨rfl, fun h => absurd h (List.cons_ne_nil l post)⟩ (by simp [rest'])
  have htokens : d.tokens = tokensOf (pre ++ rest') := by
    rw [← hmore]
    simp [rest', tokensOf, Function.comp_def]
  have hok : whole ⟨pre ++ rest', .finished 0⟩ (max limit bound) = .ok d.tree :=
    whole_complete rfl htokens (by have := d.nesting_lt; omega) (by have := d.depth_le; omega)
  rw [herror] at hok
  cases hok

theorem tokensOf_take (ls : List Lexeme) (k : Nat) : (tokensOf ls).take k = tokensOf (ls.take k) := List.map_take.symm

theorem whole_misfit {i : Nat} {l : Lexeme} (hlength : lexed.lexemes.length < limit) (hl : lexed.lexemes[i]? = some l)
    (hmisfit : ¬ Begun .cond ((tokensOf lexed.lexemes).take (i + 1)))
    (hfirst : ∀ j < i, Begun .cond ((tokensOf lexed.lexemes).take (j + 1))) :
    whole lexed limit = .error (.unexpectedToken l.token l.start) ∨
      ∃ what, whole lexed limit = .error (.expected what l.start) := by
  cases hwhole : whole lexed limit with
  | ok e =>
    obtain ⟨d, htokens, -⟩ := whole_sound hwhole
    exact absurd ((begun_tokens d).mono (htokens ▸ List.take_prefix _ _)) hmisfit
  | error e =>
    have hnil : lexed.lexemes ≠ [] := fun h => by rw [h] at hl; cases hl
    obtain ⟨pre, rest, hls, hbegun, hblames, hblamed⟩ := whole_error_first hnil hlength hwhole
    have hle : pre.length ≤ i := by
      by_contra hlt
      refine hmisfit (hbegun.mono ?_)
      rw [tokensOf_take, hls, List.take_append_of_le_length (by omega)]
      exact (List.take_prefix _ _).map _
    cases rest with
    | nil =>
      have hlt : i < lexed.lexemes.length := (List.getElem?_eq_some_iff.1 hl).1
      rw [hls, List.append_nil] at hlt
      omega
    | cons l' post =>
      have hge : i ≤ pre.length := by
        by_contra hlt
        refine hblamed l' post rfl ?_
        have := hfirst pre.length (by omega)
        rwa [tokensOf_take, hls, List.take_length_add_append] at this
      obtain rfl : i = pre.length := Nat.le_antisymm hge hle
      obtain rfl : l' = l := by simpa [hls] using hl
      simpa [Setting.Blames] using hblames

theorem whole_unfinished (hlength : lexed.lexemes.length < limit)
    (hfit : ∀ i < lexed.lexemes.length, Begun .cond ((tokensOf lexed.lexemes).take (i + 1)))
    (hnone : ∀ stop, lexed.ending = .finished stop → ∀ d : Derivation .cond, d.tokens ≠ tokensOf lexed.lexemes) :
    whole lexed limit = .error (match lexed.ending with
      | .failed e => e
      | .finished stop =>
        if lexed.lexemes = [] then .empty
        else if (tokensOf lexed.lexemes).getLast? = some .dot then .expected .accessorName stop
        else .unexpectedEnd stop) := by
  by_cases hnil : lexed.lexemes = []
  · rw [whole_nil hnil]
    cases lexed.ending with
    | failed => rfl
    | finished => simp [hnil]
  cases hwhole : whole lexed limit with
  | ok e =>
    obtain ⟨stop, hending⟩ := finished_of_whole hwhole
    obtain ⟨d, htokens, -⟩ := whole_sound hwhole
    exact absurd htokens (hnone stop hending d)
  | error e =>
    obtain ⟨pre, rest, hls, -, hblames, hblamed⟩ := whole_error_first hnil hlength hwhole
    cases rest with
    | cons l post =>
      have hlt : pre.length < lexed.lexemes.length := by rw [hls]; simp
      have := hfit pre.length hlt
      rw [tokensOf_take, hls, List.take_length_add_append] at this
      exact absurd this (hblamed l post rfl)
    | nil =>
      rw [List.append_nil] at hls
      cases hending : lexed.ending with
      | failed e' =>
        simp only [Setting.Blames, hending] at hblames
        rw [hblames]
      | finished stop =>
        simp only [Setting.Blames, hending] at hblames
        rw [hblames, hls]
        simp [hls ▸ hnil]

end
end Parser

open Grammar FlatNtuple.Parser

/-- **Parsing fails at the earliest place.**  The first token that no expression has behind those before it is the one
complained about, whatever follows it.  If there is none, a lexical error is reported as it is, and otherwise what is
missing is missed at the end of the text. -/
theorem Expr.parse_first_error (text : String) {limit : Nat} (hlimit : (lex text).lexemes.length < limit) :
    (∀ i l, (lex text).lexemes[i]? = some l → ¬ Begun .cond ((tokensOf (lex text).lexemes).take (i + 1)) →
      (∀ j < i, Begun .cond ((tokensOf (lex text).lexemes).take (j + 1))) →
      Expr.parse text limit = .error (.unexpectedToken l.token l.start) ∨
        ∃ what, Expr.parse text limit = .error (.expected what l.start)) ∧
    ((∀ i < (lex text).lexemes.length, Begun .cond ((tokensOf (lex text).lexemes).take (i + 1))) →
      (∀ e, (lex text).ending = .failed e → Expr.parse text limit = .error e) ∧
      (∀ stop, (lex text).ending = .finished stop → (∀ d : Derivation .cond, d.tokens ≠ tokensOf (lex text).lexemes) →
        Expr.parse text limit = .error (
          if (lex text).lexemes = [] then .empty
          else if (tokensOf (lex text).lexemes).getLast? = some .dot then .expected .accessorName text.utf8ByteSize
          else .unexpectedEnd text.utf8ByteSize))) := by
  refine ⟨fun i l hl hmisfit hfirst => whole_misfit hlimit hl hmisfit hfirst, fun hfit => ⟨fun e he => ?_, ?_⟩⟩
  · have hwhole := whole_unfinished hlimit hfit (by rw [he]; nofun)
    rwa [he] at hwhole
  · intro stop hstop hnone
    have hwhole := whole_unfinished hlimit hfit fun _ _ => hnone
    rw [hstop] at hwhole
    rwa [← Lexer.lex_stop hstop]

/-- A parenthesis that is complained about in spite of the quote behind it, and an accessor that is not named: where
something else is read, and at the end of the text. -/
theorem Expr.parse_first_error_accessor :
    (Expr.parse ")'" 9 = .error (.unexpectedToken .rightParen 0) ∨
      ∃ what, Expr.parse ")'" 9 = .error (.expected what 0)) ∧
    Expr.parse "a.$" 9 = .error (.invalidCharacter '$' 2) ∧ Expr.parse "a." 9 = .error (.expected .accessorName 2) := by
  have hclose : lex ")'" = ⟨[⟨.rightParen, 0, 1⟩], .failed (.unclosedString 1)⟩ := by decide +kernel
  have hfail : lex "a.$" = ⟨[⟨.identifier "a", 0, 1⟩, ⟨.dot, 1, 2⟩], .failed (.invalidCharacter '$' 2)⟩ := by
    decide +kernel
  have hfinish : lex "a." = ⟨[⟨.identifier "a", 0, 1⟩, ⟨.dot, 1, 2⟩], .finished 2⟩ := by decide +kernel
  have hnot : ¬ Begun .cond [.rightParen] := by
    rintro ⟨d, hd⟩
    obtain ⟨t, ts, htokens, hne⟩ := head_ne_rightParen d
    rw [htokens, List.cons_prefix_cons] at hd
    exact hne hd.1.symm
  have hbegun : Begun .cond [.identifier "a", .dot] :=
    ((begun_tokens (.access (.primary (.name "a")) (.member "x"))).loosen (by decide)).mono ⟨[.identifier "x"], rfl⟩
  have hnone (d : Derivation .cond) : d.tokens ≠ [.identifier "a", .dot] := fun h => by
    simpa [h] using d.undotted.getLast?_ne
  obtain ⟨hfirst, -⟩ := Expr.parse_first_error ")'" (show _ < 9 by rw [hclose]; decide)
  obtain ⟨-, hfailed⟩ := Expr.parse_first_error "a.$" (show _ < 9 by rw [hfail]; decide)
  obtain ⟨-, hfinished⟩ := Expr.parse_first_error "a." (show _ < 9 by rw [hfinish]; decide)
  refine ⟨hfirst 0 ⟨.rightParen, 0, 1⟩ (by rw [hclose]; rfl) (by rw [hclose]; exact hnot) nofun, ?_, ?_⟩
  · refine (hfailed fun i hi => hbegun.mono ?_).1 _ (by rw [hfail])
    rw [hfail]
    exact List.take_prefix _ _
  · have hparse := (hfinished fun i hi => hbegun.mono (by rw [hfinish]; exact List.take_prefix _ _)).2 2
      (by rw [hfinish]) (by rw [hfinish]; exact hnone)
    rwa [hfinish] at hparse

end FlatNtuple
