import FlatNtuple.Proofs.Expr.Lookahead
import FlatNtuple.Proofs.Expr.Unambiguity
/-!
# The limit on depth

What the limit bounds: the depth of the tree, and how many subexpressions are ever being read within one another.  Of
what is read it changes nothing but the complaint that it is exceeded, and a text of fewer tokens never exceeds it.
-/
namespace FlatNtuple
namespace Parser

open Grammar

/-- What was read, and what was read behind it. -/
def Shorter.followed {ls : List Lexeme} (p : Shorter ls) (q : NotLonger p.1.rest) : Shorter ls :=
  ⟨q.1, Nat.lt_of_le_of_lt q.2 p.2⟩

/-- The reader of subexpressions with a watch on it.  The watch is told, before a subexpression is read, how many are
being read by then: this one and those around it.  It may put an end to the reading. -/
def watched (s : Setting) (watch : Nat → Result Unit) : (nesting active : Nat) → Reader
  | 0, _, _, ls => .error (.tooDeep s.limit (s.position ls))
  | nesting + 1, active, level, ls => do
    watch (active + 1)
    let p ← operand s (watched s watch nesting (active + 1)) ls
    let q ← infixes s (watched s watch nesting (active + 1)) level p.1.tree p.1.depth p.1.rest
    return p.followed q

/-- As `whole`, with a watch. -/
def watchedWhole (lexed : Lexed) (limit : Nat) (watch : Nat → Result Unit) : Result Expr :=
  let s : Setting := ⟨lexed.ending, limit⟩
  match lexed.lexemes with
  | [] => do
    s.arrive []
    .error .empty
  | ls => do
    let ⟨p, _⟩ ← watched s watch limit 0 .conditional ls
    match p.rest with
    | [] => return p.tree
    | rest => .error (s.unexpected rest)

section
variable {s : Setting} {watch : Nat → Result Unit} {lexed : Lexed} {limit : Nat}

/-- What may still nest and what is being read come to the same sum at every subexpression. -/
theorem watched_eq {nesting active : Nat} (h : ∀ k ≤ active + nesting, watch k = .ok ()) :
    watched s watch nesting active = expression s nesting := by
  induction nesting generalizing active with
  | zero => rfl
  | succ nesting ih =>
    funext level ls
    rewrite [watched, expression, h (active + 1) (by omega), ih fun k hk => h k (by omega)]
    rfl

theorem watchedWhole_eq (h : ∀ k ≤ limit, watch k = .ok ()) : watchedWhole lexed limit watch = whole lexed limit := by
  rewrite [watchedWhole, whole, watched_eq fun k hk => h k (by omega)]
  rfl

/-- What is read under a watch nests no deeper than the watch lets it.  The bound is one on what may still nest, or the
watch objects to one more. -/
theorem watched_sound (hpos : 0 < s.limit) {bound : Nat} : ∀ nesting active,
    (nesting ≤ bound - active ∨ ∃ k, active < k ∧ k ≤ bound + 1 ∧ watch k ≠ .ok ()) →
    Sound s (bound - active) (watched s watch nesting active)
  | 0, _, _ => fun _ _ _ h => absurd h reads_error.1
  | nesting + 1, active, hbound => fun level ls p h => by
    simp only [watched, Shorter.followed, reads_bind_unit, reads_bind, reads_return] at h
    obtain ⟨hwatch, x, hx, hox, y, hy, hiy, rfl⟩ := h
    have hlt : active + 1 ≤ bound ∧
        (nesting ≤ bound - (active + 1) ∨ ∃ k, active + 1 < k ∧ k ≤ bound + 1 ∧ watch k ≠ .ok ()) := by
      rcases hbound with hle | ⟨k, hk, hle, hobjects⟩
      · exact ⟨by omega, .inl (by omega)⟩
      · have hne : k ≠ active + 1 := fun h => hobjects (h ▸ hwatch)
        exact ⟨by omega, .inr ⟨k, by omega, hle, hobjects⟩⟩
    have hsub := watched_sound hpos nesting (active + 1) hlt.2
    obtain ⟨a, ha, hend, hrank⟩ := operand_sound hsub hpos ⟨hx, hox⟩
    have hread := infixes_sound hsub ⟨hy, hiy⟩ ha hend (Nat.le_trans (rankOf_symbolOf_le_un level) hrank)
    rwa [show bound - (active + 1) + 1 = bound - active by omega] at hread

theorem watchedWhole_sound {bound : Nat} {e : Expr} (h : watchedWhole lexed limit watch = .ok e)
    (hbound : limit ≤ bound ∨ ∃ k, 0 < k ∧ k ≤ bound + 1 ∧ watch k ≠ .ok ()) :
    ∃ d : Derivation .cond, d.tokens = tokensOf lexed.lexemes ∧ d.nesting < bound := by
  unfold watchedWhole at h
  simp only at h
  split at h
  · obtain ⟨_, -, h⟩ := bind_eq_ok.1 h
    cases h
  · obtain ⟨⟨p, hp⟩, hread, h⟩ := bind_eq_ok.1 h
    split at h
    · rename_i hrest
      have hpos : 0 < limit := by
        by_contra hzero
        rw [Nat.eq_zero_of_not_pos hzero] at hread
        cases hread
      have hsound : Sound ⟨lexed.ending, limit⟩ bound (watched ⟨lexed.ending, limit⟩ watch limit 0) :=
        watched_sound hpos limit 0 hbound
      obtain ⟨d, hd⟩ : Phrase ⟨lexed.ending, limit⟩ bound .cond _ p := (hsound _ _ _ ⟨hp, hread⟩).1
      refine ⟨d, ?_, hd.nesting⟩
      rw [hd.tokens, show p.rest = [] from hrest, tokensOf_nil, List.append_nil]
    · cases h

/-- **A watch is told of every subexpression within another.** -/
theorem heard_of_watchedWhole {e : Expr} (h : watchedWhole lexed limit watch = .ok e) :
    ∃ d : Derivation .cond, d.tokens = tokensOf lexed.lexemes ∧
      ∀ k, 0 < k → k ≤ d.nesting + 1 → watch k = .ok () := by
  obtain ⟨d, htokens, -⟩ := watchedWhole_sound h (.inl (Nat.le_refl limit))
  refine ⟨d, htokens, fun k hk hle => ?_⟩
  by_contra hobjects
  have hbound : limit ≤ k - 1 ∨ ∃ j, 0 < j ∧ j ≤ k - 1 + 1 ∧ watch j ≠ .ok () := .inr ⟨k, hk, by omega, hobjects⟩
  obtain ⟨d', htokens', hlt⟩ := watchedWhole_sound h hbound
  rw [derivation_unique (htokens'.trans htokens.symm)] at hlt
  omega

/-- No error of the lexer is about depth. -/
theorem lex_ending_ne (c : Cursor) (n position : Nat) : c.lex.ending ≠ .failed (.tooDeep n position) := by
  fun_induction Cursor.lex c with
  | case1 c l c' h hlt r ih => exact ih
  | case2 => nofun
  | case3 c e c' h =>
    rintro ⟨⟩
    unfold Cursor.next at h
    simp only at h
    split at h
    · cases h
    · split at h <;> cases h

/-- **The complaint about depth is about the limit**, and takes as many lexemes. -/
theorem tooDeep_of_whole (hending : ∀ n position, lexed.ending ≠ .failed (.tooDeep n position)) {n position : Nat}
    (h : whole lexed limit = .error (.tooDeep n position)) : n = limit ∧ limit ≤ lexed.lexemes.length := by
  by_cases hnil : lexed.lexemes = []
  · rw [whole_nil hnil] at h
    cases hlexed : lexed.ending with
    | finished stop => rw [hlexed] at h; cases h
    | failed e => rw [hlexed] at h; cases h; exact absurd hlexed (hending n position)
  · rcases whole_error lexed.ending hnil (Nat.le_refl limit) h with
      ⟨⟨_, _, -, -, hdeep⟩, hlength⟩ | ⟨pre, rest, -, -, hblames, -⟩
    · cases hdeep
      exact ⟨rfl, hlength⟩
    · cases rest with
      | cons l rest => simp [Setting.Blames] at hblames
      | nil =>
        cases hlexed : lexed.ending with
        | failed e =>
          simp only [Setting.Blames, hlexed] at hblames
          exact absurd (hblames ▸ hlexed) (hending n position)
        | finished stop =>
          simp only [Setting.Blames, hlexed] at hblames
          split at hblames <;> cases hblames

end
end Parser

/-- As `Expr.parse`, with a watch on how many subexpressions are being read. -/
def Expr.parseWatched (text : String) (limit : Nat) (watch : Nat → Except ParseError Unit) : Except ParseError Expr :=
  Parser.watchedWhole (lex text) limit watch

open Grammar FlatNtuple.Parser

/-- A text is too deep for the limit that it is read under. -/
theorem Expr.parse_tooDeep {text : String} {limit n position : Nat}
    (h : Expr.parse text limit = .error (.tooDeep n position)) : n = limit := (tooDeep_of_whole (lex_ending_ne _) h).1

/-- **The limit on depth is sound and monotone.**  No tree is deeper than the limit.  No more subexpressions than it are
ever being read within one another, as a watch finds that is told of all of them.  A higher limit gives the same result
wherever this one is not exceeded, and fewer tokens than the limit do not exceed it. -/
theorem Expr.parse_limit (text : String) {n m : Nat} (h : n ≤ m) :
    (∀ e, Expr.parse text n = .ok e → e.depth ≤ n) ∧
    (∀ watch, (∀ k ≤ n, watch k = .ok ()) → Expr.parseWatched text n watch = Expr.parse text n) ∧
    (∀ watch e, Expr.parseWatched text n watch = .ok e → ∃ d : Derivation .cond,
      d.tokens = tokensOf (lex text).lexemes ∧ ∀ k, 0 < k → k ≤ d.nesting + 1 → watch k = .ok ()) ∧
    ((∀ limit position, Expr.parse text n ≠ .error (.tooDeep limit position)) →
      Expr.parse text m = Expr.parse text n) ∧
    ((lex text).lexemes.length < n → ∀ limit position, Expr.parse text n ≠ .error (.tooDeep limit position)) := by
  refine ⟨fun e he => ?_, fun watch hwatch => watchedWhole_eq hwatch, fun watch e he => heard_of_watchedWhole he,
    whole_of_le h, fun hlength => ?_⟩
  · obtain ⟨-, -, -, -, hdepth⟩ := whole_sound he
    exact hdepth
  · exact fun _ _ hdeep => Nat.not_le_of_lt hlength (tooDeep_of_whole (lex_ending_ne _) hdeep).2

/-- Three subexpressions within one another, and a tree of depth one. -/
theorem Expr.parse_limit_groups :
    let watch : Nat → Except ParseError Unit := fun k => if k ≤ 6 then .ok () else .error .empty
    Expr.parse "((a))" 6 = .ok (.name "a") ∧ (Expr.name "a").depth ≤ 6 ∧
    Expr.parseWatched "((a))" 6 watch = Expr.parse "((a))" 6 ∧
    (∃ d : Derivation .cond, d.tokens = [.leftParen, .leftParen, .identifier "a", .rightParen, .rightParen] ∧
      ∀ k, 0 < k → k ≤ d.nesting + 1 → watch k = .ok ()) ∧
    Expr.parse "((a))" 9 = Expr.parse "((a))" 6 ∧ (lex "((a))").lexemes.length < 6 ∧
    Expr.parse "((a))" 6 ≠ .error (.tooDeep 6 0) := by
  intro watch
  have hparse : Expr.parse "((a))" 6 = .ok (.name "a") := by cbv
  have hlength : (lex "((a))").lexemes.length < 6 := by decide +kernel
  have htokens : tokensOf (lex "((a))").lexemes =
      [.leftParen, .leftParen, .identifier "a", .rightParen, .rightParen] := by decide +kernel
  obtain ⟨hdepth, hwatch, hheard, hmore, htooDeep⟩ := Expr.parse_limit "((a))" (show 6 ≤ 9 by decide)
  have hwatched : Expr.parseWatched "((a))" 6 watch = Expr.parse "((a))" 6 := hwatch _ fun k hk => if_pos hk
  refine ⟨hparse, hdepth _ hparse, hwatched, htokens ▸ hheard watch _ (hwatched.trans hparse), hmore ?_, hlength,
    htooDeep hlength 6 0⟩
  intro limit position h
  rw [hparse] at h
  cases h

end FlatNtuple
