import FlatNtuple.Proofs.Expr.Beginning
import FlatNtuple.Proofs.Expr.Walk
/-!
# Steady walks

A walk is steady if all that it goes by is what it has passed and the lexeme that it stopped at: over lexemes that
begin alike, under a limit that is no lower, it comes to the same result or the same complaint.  A complaint comes no
later than it must: what has been passed by then could still have been completed to a phrase.  Only the complaint about
depth is of another kind, and it takes as many tokens as the limit.  It too is about a place that the walk stopped at.

One lemma for each kind of step says how steadiness goes through it.  The readers follow in
`FlatNtuple.Proofs.Expr.Lookahead`.
-/
namespace FlatNtuple
namespace Parser

open Grammar

/-- What is left of two texts begins with the same lexeme, or is nothing and ends in the same way. -/
structure Alike (s s' : Setting) (ls ls' : List Lexeme) : Prop where
  head : ls.head? = ls'.head?
  ending : ls = [] → s.ending = s'.ending

/-- A complaint that some tokens give rise to by what is left behind them: about the next lexeme, whatever comes after
it, or about the end of the text. -/
def Setting.Blames (s : Setting) (ts : List Token) (ls : List Lexeme) (e : ParseError) : Prop :=
  match ls, s.ending with
  | l :: _, _ => e = .unexpectedToken l.token l.start ∨ ∃ what, e = .expected what l.start
  | [], .failed e' => e = e'
  | [], .finished stop => e = if ts.getLast? = some .dot then .expected .accessorName stop else .unexpectedEnd stop

/-- A complaint about depth where one of some lexemes stands, or at the end of the text behind them. -/
def Setting.TooDeepIn (s : Setting) (ls : List Lexeme) (e : ParseError) : Prop :=
  ∃ pre rest, ls = pre ++ rest ∧ s.arrive rest = .ok () ∧ e = .tooDeep s.limit (s.position rest)

section
variable {s s' : Setting} {ls ls' : List Lexeme} {l : Lexeme}

theorem Setting.TooDeepIn.append {e : ParseError} (h : s.TooDeepIn ls e) (front : List Lexeme) :
    s.TooDeepIn (front ++ ls) e := by
  obtain ⟨pre, rest, rfl, h⟩ := h
  exact ⟨front ++ pre, rest, (List.append_assoc _ _ _).symm, h⟩

theorem Alike.append (h : Alike s s' ls ls') (pre : List Lexeme) : Alike s s' (pre ++ ls) (pre ++ ls') := by
  cases pre with
  | nil => exact h
  | cons => exact ⟨rfl, nofun⟩

theorem alike_nil (h : Alike s s' [] ls') : ls' = [] ∧ s.ending = s'.ending :=
  ⟨List.head?_eq_none_iff.1 h.head.symm, h.ending rfl⟩

theorem alike_cons (h : Alike s s' (l :: ls) ls') : ∃ rest, ls' = l :: rest :=
  List.head?_eq_some_iff.1 h.head.symm

theorem Alike.arrive (h : Alike s s' ls ls') : s'.arrive ls' = s.arrive ls := by
  cases ls with
  | nil =>
    obtain ⟨rfl, hending⟩ := alike_nil h
    simp only [Setting.arrive, hending]
  | cons l ls =>
    obtain ⟨rest, rfl⟩ := alike_cons h
    rfl

theorem Alike.position (h : Alike s s' ls ls') : s'.position ls' = s.position ls := by
  cases ls with
  | nil =>
    obtain ⟨rfl, hending⟩ := alike_nil h
    rw [Setting.position, Setting.position, hending]
  | cons l ls =>
    obtain ⟨rest, rfl⟩ := alike_cons h
    rfl

theorem Alike.unexpected (h : Alike s s' ls ls') : s'.unexpected ls' = s.unexpected ls := by
  cases ls with
  | nil =>
    obtain ⟨rfl, -⟩ := alike_nil h
    exact congrArg _ h.position
  | cons l ls =>
    obtain ⟨rest, rfl⟩ := alike_cons h
    rfl

theorem arrive_eq_error {e : ParseError} (h : s.arrive ls = .error e) : ls = [] ∧ s.ending = .failed e := by
  unfold Setting.arrive at h
  split at h
  · rename_i hending
    cases h
    exact ⟨rfl, hending⟩
  · cases h

theorem ending_of_arrive (h : s.arrive [] = .ok ()) : ∃ stop, s.ending = .finished stop := by
  cases hending : s.ending with
  | finished stop => exact ⟨stop, rfl⟩
  | failed e =>
    simp only [Setting.arrive, hending] at h
    cases h

theorem Setting.blames_unexpected (harrive : s.arrive ls = .ok ()) {ts : List Token} (hts : ts.getLast? ≠ some .dot) :
    s.Blames ts ls (s.unexpected ls) := by
  cases ls with
  | cons l ls => exact .inl rfl
  | nil =>
    obtain ⟨stop, hending⟩ := ending_of_arrive harrive
    simp only [Setting.Blames, hending, if_neg hts, Setting.unexpected, Setting.position]

end

namespace Walk

section
variable {α β : Type} (s s' : Setting) (budget : Nat) (a : Symbol) (u : List Token)

/-- A walk `f` and its counterpart `f'` under another setting, over lexemes in front of which the tokens `u` of a phrase
of the symbol have been passed.  The budget is how deep subexpressions may still nest. -/
structure Steady (f f' : Walk α) (ls : List Lexeme) : Prop where
  ok : s.arrive ls = .ok () → ∀ x rest, f ls = .ok (x, rest) → s.arrive rest = .ok () ∧
    ∃ pre, ls = pre ++ rest ∧ ∀ rest', Alike s s' rest rest' → f' (pre ++ rest') = .ok (x, rest')
  error : s.arrive ls = .ok () → ∀ e, f ls = .error e →
    (s.TooDeepIn ls e ∧ (budget ≤ u.length + ls.length ∨ s.limit ≤ u.length + ls.length)) ∨
    ∃ pre rest, ls = pre ++ rest ∧ Begun a (u ++ tokensOf pre) ∧ s.Blames (u ++ tokensOf pre) rest e ∧
      ∀ rest', Alike s s' rest rest' → f' (pre ++ rest') = .error e

end

section
variable {α β : Type} {s s' : Setting} {budget : Nat} {a b : Symbol} {u : List Token} {ls : List Lexeme} {l : Lexeme}

theorem Steady.loosen {f f' : Walk α} (h : Steady s s' budget b u f f' ls) (hle : rankOf a ≤ rankOf b) :
    Steady s s' budget a u f f' ls := by
  refine ⟨h.ok, fun harrive e he => (h.error harrive e he).imp_right ?_⟩
  rintro ⟨pre, rest, hls, hbegun, hrest⟩
  exact ⟨pre, rest, hls, hbegun.loosen hle, hrest⟩

/-! ## The steps -/

theorem steady_pure (x : α) : Steady s s' budget a u (pure x) (pure x) ls := by
  refine ⟨fun harrive y rest h => ?_, nofun⟩
  cases h
  exact ⟨harrive, [], rfl, fun _ _ => rfl⟩

theorem Steady.bind {f f' : Walk α} {g g' : α → Walk β} (hf : Steady s s' budget a u f f' ls)
    (hg : ∀ x pre rest, f ls = .ok (x, rest) → ls = pre ++ rest →
      Steady s s' budget a (u ++ tokensOf pre) (g x) (g' x) rest) :
    Steady s s' budget a u (f >>= g) (f' >>= g') ls := by
  constructor
  · intro harrive y rest₂ h
    rw [bind_apply] at h
    obtain ⟨⟨x, rest₁⟩, hx, hy⟩ := bind_eq_ok.1 h
    obtain ⟨harrive₁, pre₁, hls, hf'⟩ := hf.ok harrive x rest₁ hx
    obtain ⟨harrive₂, pre₂, rfl, hg'⟩ := (hg x pre₁ rest₁ hx hls).ok harrive₁ y rest₂ hy
    -- To the first walk, what the second one stops at comes behind what the second one passes.
    refine ⟨harrive₂, pre₁ ++ pre₂, by rw [hls, List.append_assoc], fun rest' halike => ?_⟩
    rw [bind_apply, List.append_assoc, hf' _ (halike.append pre₂), ok_bind]
    exact hg' rest' halike
  · intro harrive e h
    rw [bind_apply] at h
    cases hx : f ls with
    | error e' =>
      rw [hx] at h
      cases h
      refine (hf.error harrive e hx).imp_right ?_
      rintro ⟨pre, rest, hls, hbegun, hblames, hf'⟩
      refine ⟨pre, rest, hls, hbegun, hblames, fun rest' halike => ?_⟩
      rw [bind_apply, hf' rest' halike]
      rfl
    | ok r =>
      obtain ⟨x, rest₁⟩ := r
      rw [hx, ok_bind] at h
      obtain ⟨harrive₁, pre₁, hls, hf'⟩ := hf.ok harrive x rest₁ hx
      have hlength : (u ++ tokensOf pre₁).length + rest₁.length = u.length + ls.length := by
        simp only [hls, List.length_append, tokensOf, List.length_map]; omega
      have hg := (hg x pre₁ rest₁ hx hls).error harrive₁ e h
      rw [hlength] at hg
      refine hg.imp (fun hdeep => ⟨hls ▸ hdeep.1.append pre₁, hdeep.2⟩) ?_
      rintro ⟨pre₂, rest₂, rfl, hbegun, hblames, hg'⟩
      have htokens : tokensOf (pre₁ ++ pre₂) = tokensOf pre₁ ++ tokensOf pre₂ := List.map_append
      rw [List.append_assoc, ← htokens] at hbegun hblames
      refine ⟨pre₁ ++ pre₂, rest₂, by rw [hls, List.append_assoc], hbegun, hblames, fun rest' halike => ?_⟩
      rw [bind_apply, List.append_assoc, hf' _ (halike.append pre₂), ok_bind]
      exact hg' rest' halike

theorem steady_peek : Steady s s' budget a u peek peek ls := by
  refine ⟨fun harrive x rest h => ?_, nofun⟩
  cases h
  refine ⟨harrive, [], rfl, fun rest' halike => ?_⟩
  rw [List.nil_append, peek, ← halike.head]

theorem Steady.peek {g g' : Option Token → Walk β}
    (hg : Steady s s' budget a u (g (ls.head?.map Lexeme.token)) (g' (ls.head?.map Lexeme.token)) ls) :
    Steady s s' budget a u (Walk.peek >>= g) (Walk.peek >>= g') ls := by
  refine steady_peek.bind fun x pre rest h hls => ?_
  cases h
  obtain rfl : pre = [] := List.self_eq_append_left.1 hls
  simpa using hg

theorem Steady.skip {g g' : Unit → Walk β} (hbegun : Begun a (u ++ [l.token]))
    (hg : Steady s s' budget a (u ++ [l.token]) (g ()) (g' ()) ls) :
    Steady s s' budget a u (Walk.skip s >>= g) (Walk.skip s' >>= g') (l :: ls) := by
  have hskip : Steady s s' budget a u (Walk.skip s) (Walk.skip s') (l :: ls) := by
    constructor
    · intro _ x rest h
      obtain ⟨_, harrive, h⟩ := bind_eq_ok.1 h
      cases h
      refine ⟨harrive, [l], rfl, fun rest' halike => ?_⟩
      rw [Walk.skip, List.singleton_append, List.tail_cons, halike.arrive, harrive]
      rfl
    · intro _ e h
      cases harrive : s.arrive ls with
      | ok =>
        rw [Walk.skip, List.tail_cons, harrive] at h
        cases h
      | error e' =>
        rw [Walk.skip, List.tail_cons, harrive] at h
        cases h
        obtain ⟨rfl, hending⟩ := arrive_eq_error harrive
        refine .inr ⟨[l], [], rfl, hbegun, ?_, fun rest' halike => ?_⟩
        · simp only [Setting.Blames, hending]
        · rw [Walk.skip, List.singleton_append, List.tail_cons, halike.arrive, harrive]
          rfl
  refine hskip.bind fun x pre rest h hls => ?_
  obtain ⟨_, -, h⟩ := bind_eq_ok.1 h
  cases h
  obtain rfl : pre = [l] := List.append_cancel_right (show pre ++ ls = [l] ++ ls from hls.symm)
  exact hg

theorem Steady.check {g g' : Unit → Walk β} {depth : Nat} (hlimit : s.limit ≤ s'.limit) (hdepth : depth ≤ u.length)
    (hg : Steady s s' budget a u (g ()) (g' ()) ls) :
    Steady s s' budget a u (Walk.check s depth >>= g) (Walk.check s' depth >>= g') ls := by
  -- A depth that is checked has as many tokens behind it, so a check only fails where the limit is below their number.
  by_cases hlt : s.limit < depth
  · refine ⟨fun _ x rest h => ?_, fun harrive e h => ?_⟩
    · rw [check_bind_apply, Setting.checkDepth, if_pos hlt] at h
      cases h
    · rw [check_bind_apply, Setting.checkDepth, if_pos hlt] at h
      cases h
      exact .inl ⟨⟨[], ls, rfl, harrive, rfl⟩, .inr (by omega)⟩
  · have hcheck : ∀ ls', (Walk.check s depth >>= g) ls' = g () ls' := fun ls' => by
      rw [check_bind_apply, Setting.checkDepth, if_neg hlt, ok_bind]
    have hcheck' : ∀ ls', (Walk.check s' depth >>= g') ls' = g' () ls' := fun ls' => by
      rw [check_bind_apply, Setting.checkDepth, if_neg (by omega), ok_bind]
    rwa [funext hcheck, funext hcheck']

theorem steady_unexpected (hbegun : Begun a u) (hu : u.getLast? ≠ some .dot) :
    Steady s s' budget a u (unexpected s : Walk α) (unexpected s') ls := by
  refine ⟨nofun, fun harrive e h => .inr ⟨[], ls, rfl, ?_, ?_, fun rest' halike => ?_⟩⟩
  · rwa [tokensOf_nil, List.append_nil]
  · cases h
    rw [tokensOf_nil, List.append_nil]
    exact Setting.blames_unexpected harrive hu
  · cases h
    exact congrArg Except.error halike.unexpected

theorem steady_missing (hbegun : Begun a u) (what : Expected) :
    Steady s s' budget a u (missing s what : Walk α) (missing s' what) (l :: ls) := by
  refine ⟨nofun, fun _ e h => .inr ⟨[], l :: ls, rfl, ?_, ?_, fun rest' halike => ?_⟩⟩
  · rwa [tokensOf_nil, List.append_nil]
  · cases h
    exact .inr ⟨what, rfl⟩
  · cases h
    exact congrArg (fun p => Except.error (ParseError.expected what p)) halike.position

/-- Behind a dot there is a name to ask for also where the text ends. -/
theorem steady_missing_accessor (hbegun : Begun a (u ++ [Token.dot])) :
    Steady s s' budget a (u ++ [Token.dot]) (missing s .accessorName : Walk α) (missing s' .accessorName) ls := by
  cases ls with
  | cons => exact steady_missing hbegun _
  | nil =>
    refine ⟨nofun, fun harrive e h => .inr ⟨[], [], rfl, ?_, ?_, fun rest' halike => ?_⟩⟩
    · rwa [tokensOf_nil, List.append_nil]
    · cases h
      obtain ⟨stop, hending⟩ := ending_of_arrive harrive
      simp [Setting.Blames, Setting.position, hending]
    · cases h
      exact congrArg (fun p => Except.error (ParseError.expected .accessorName p)) halike.position

theorem Steady.expect {t : Token} {g g' : Unit → Walk β} (hbegun : Begun a (u ++ [t])) (hu : u.getLast? ≠ some .dot)
    (hg : ∀ l rest, ls = l :: rest → l.token = t → Steady s s' budget a (u ++ [t]) (g ()) (g' ()) rest) :
    Steady s s' budget a u (Walk.expect s t >>= g) (Walk.expect s' t >>= g') ls := by
  rw [Walk.expect, Walk.expect, bind_assoc, bind_assoc]
  apply Steady.peek
  cases ls with
  | nil => exact (steady_unexpected hbegun.of_append hu).bind nofun
  | cons l rest =>
    by_cases hl : l.token = t
    · simp only [List.head?_cons, Option.map_some, if_pos hl]
      exact Steady.skip (hl ▸ hbegun) (hl ▸ hg l rest rfl hl)
    · simp only [List.head?_cons, Option.map_some, if_neg hl]
      exact (steady_missing hbegun.of_append _).bind nofun

end
end Walk
end Parser
end FlatNtuple
