import FlatNtuple.Proofs.Expr.Position
/-!
# Where a scanner comes to stand

A scanner can be called again after it has given an error, and whatever its calls give, it comes to stand between
characters of the text, with one exception.  The search for a closing quote takes two bytes at a backslash without a look
whether there are two.  In an open string the backslashes at the end of the text take each other along in pairs, so that
the search ends one byte behind the end exactly if their number is odd (`passedBytes_eq`).  There the scanner stays, and
finds the end of the text (`Scanner.after_reached_iff`).
-/
namespace FlatNtuple

open Lexer

/-- The search for a quote that is not there goes to the end, or one byte further if the last backslash takes nothing
along. -/
theorem Lexer.passedBytes_eq (cs : List Char) :
    passedBytes cs = byteLength cs + if Even (backslashes cs) then 0 else 1 := by
  have hone : Char.utf8Size '\\' = 1 := rfl
  fun_induction passedBytes cs with
  | case1 => rfl
  | case2 => rfl
  | case3 c cs ih =>
    rw [ih, if_congr (even_backslashes_escaped c cs) rfl rfl, byteLength_cons, byteLength_cons, hone]
    omega
  | case4 c cs hlast hmore ih =>
    rw [ih, backslashes_cons_of_ne (ne_backslash hlast hmore), byteLength_cons]
    omega

/-- A position is one byte behind the end of the text, or else between characters of it. -/
def Placed (text : String) (behind : Prop) (p : ℕ) : Prop :=
  behind ∧ p = text.utf8ByteSize + 1 ∨ ¬ behind ∧ Reached text p

theorem Placed.reached_iff {text : String} {behind : Prop} {p : ℕ} (h : Placed text behind p) :
    Reached text p ↔ ¬ behind := by
  obtain ⟨hbehind, rfl⟩ | ⟨hbehind, hreached⟩ := h
  · exact iff_of_false (fun hreached => absurd hreached.1 (by omega)) (not_not_intro hbehind)
  · exact iff_of_true hreached hbehind

theorem Placed.eq {text : String} {behind : Prop} {p : ℕ} (h : Placed text behind p) (hbehind : behind) :
    p = text.utf8ByteSize + 1 := by
  obtain ⟨-, hp⟩ | ⟨hnot, -⟩ := h
  · exact hp
  · exact absurd hbehind hnot

namespace Scanner

variable {text : String} {s : Scanner} {n : ℕ}

/-! ## One call -/

/-- A call looks for a closing quote in vain, in a text whose last backslash takes nothing along. -/
def Overshoots (text : String) (s : Scanner) : Prop :=
  Odd (backslashes text.toList) ∧ ∃ p, s.next.1 = .error (.unclosedString p)

/-- The search for a closing quote leads behind the end if the backslashes there are odd in number, and else to the
end. -/
theorem placed_of_unclosed {pre cs : List Char} {c : Char} {passed : ℕ} (h : text.toList = pre ++ c :: cs)
    (hscan : scan c cs = .unclosedString passed) :
    Placed text (Odd (backslashes text.toList)) (byteLength pre + passed) := by
  obtain ⟨hquote, -, rfl⟩ := eq_of_unclosedString hscan
  have hne : c ≠ '\\' := by rcases hquote with rfl | rfl <;> decide
  have hone : c.utf8Size = 1 := by rcases hquote with rfl | rfl <;> rfl
  have hsize : text.utf8ByteSize = byteLength pre + (1 + byteLength cs) := by
    rw [utf8ByteSize_eq, h, byteLength_append, byteLength_cons, hone]
  rw [h, backslashes_append_cons_of_ne hne, passedBytes_eq]
  by_cases heven : Even (backslashes cs)
  · refine .inr ⟨Nat.not_odd_iff_even.2 heven, ?_⟩
    rw [if_pos heven, Nat.add_zero, ← hsize]
    exact reached_end text
  · refine .inl ⟨Nat.not_even_iff_odd.1 heven, ?_⟩
    rw [if_neg heven, hsize]
    omega

/-- **A call from between characters leads there**, or behind the end if it overshoots. -/
theorem next_placed (htext : s.text = text) (h : Reached text s.position) :
    s.next.2.text = text ∧ Placed text (Overshoots text s) s.next.2.position ∧ Reached text s.next.2.tokenStart := by
  obtain ⟨text, position, start, torn⟩ := s
  obtain rfl : text = _ := htext
  obtain ⟨pre, rest, hrest, hposition⟩ := exists_of_reached h
  obtain rfl : position = byteLength pre := hposition
  have hnext := @next_past text start torn pre rest hrest
  have hfront : text.toList = (pre ++ rest.takeWhile isBlank) ++ rest.dropWhile isBlank := by
    rw [List.append_assoc, List.takeWhile_append_dropWhile, hrest]
  have hstart := reached_byteLength hfront
  have hquiet {r : Except ParseError (Option Token)} {p : ℕ} (hr : ∀ p, r ≠ .error (.unclosedString p))
      (hp : Reached text p) : Placed text (Odd (backslashes text.toList) ∧ ∃ p, r = .error (.unclosedString p)) p :=
    .inr ⟨fun h => h.2.elim hr, hp⟩
  rw [past] at hnext
  simp only [Overshoots, hnext]
  cases hd : rest.dropWhile isBlank with
  | nil => exact ⟨rfl, hquiet (fun _ h => by cases h) hstart, hstart⟩
  | cons c cs =>
    rw [hd] at hfront
    simp only
    cases hscan : scan c cs with
    | token t lexeme rest' =>
      rw [← scan_append hscan, ← List.append_assoc] at hfront
      exact ⟨rfl, hquiet (fun _ h => by cases h) (reached_byteLength hfront), hstart⟩
    | invalidCharacter x => exact ⟨rfl, hquiet (fun _ h => by cases h) hstart, hstart⟩
    | invalidNumber literal rest' =>
      rw [← scan_invalidNumber hscan, ← List.append_assoc] at hfront
      exact ⟨rfl, hquiet (fun _ h => by cases h) (reached_byteLength hfront), hstart⟩
    | unclosedString passed =>
      refine ⟨rfl, ?_, hstart⟩
      rw [and_iff_left ⟨_, rfl⟩]
      exact placed_of_unclosed hfront hscan

/-- A call from behind the end finds the end, and the scanner stays where it is. -/
theorem next_behind (htext : s.text = text) (h : s.position = text.utf8ByteSize + 1) :
    s.next = (.ok none, { s with tokenStart := s.position }) := by
  refine next_beyond (List.eq_nil_of_length_eq_zero ?_)
  rw [length_bytes, htext, h]
  omega

/-! ## Any number of calls -/

/-- A scanner after some calls, whatever they have given. -/
def after (s : Scanner) (n : ℕ) : Scanner := (fun s => s.next.2)^[n] s

theorem after_succ (s : Scanner) (n : ℕ) : s.after (n + 1) = (s.after n).next.2 := Function.iterate_succ_apply' ..

/-- One of the first calls on a text overshoots. -/
def Overruns (text : String) (n : ℕ) : Prop := ∃ k < n, Overshoots text ((ofString text).after k)

theorem overruns_succ : Overruns text (n + 1) ↔ Overruns text n ∨ Overshoots text ((ofString text).after n) :=
  Nat.exists_lt_succ_right

/-- **Where calls lead.**  A token starts where the call before has led. -/
theorem after_placed (text : String) (n : ℕ) : ((ofString text).after n).text = text ∧
    Placed text (Overruns text n) ((ofString text).after n).position ∧
    Placed text (Overruns text (n - 1)) ((ofString text).after n).tokenStart := by
  have hnone : ¬ Overruns text 0 := by rintro ⟨k, hk, -⟩; exact absurd hk (Nat.not_lt_zero k)
  induction n with
  | zero =>
    have hzero : Reached text 0 := reached_byteLength (show text.toList = [] ++ text.toList from rfl)
    exact ⟨rfl, .inr ⟨hnone, hzero⟩, .inr ⟨hnone, hzero⟩⟩
  | succ n ih =>
    obtain ⟨htext, hposition, -⟩ := ih
    rw [after_succ, Nat.add_sub_cancel, overruns_succ]
    obtain ⟨hover, hbehind⟩ | ⟨hnot, hreached⟩ := hposition
    · rw [next_behind htext hbehind]
      exact ⟨htext, .inl ⟨.inl hover, hbehind⟩, .inl ⟨hover, hbehind⟩⟩
    · obtain ⟨htext', hplaced, hstart⟩ := next_placed htext hreached
      rw [or_iff_right hnot]
      exact ⟨htext', hplaced, .inr ⟨hnot, hstart⟩⟩

/-- **A scanner leaves the text in one way only.**  After any number of calls, also such as have given errors, it stands
between characters of the text, unless one of them has looked for a closing quote in vain and the backslashes at the end
of the text are odd in number.  Then it stands one byte behind the end and finds nothing more, and from the next call on
the last token, too, starts there. -/
theorem after_reached_iff (text : String) (n : ℕ) :
    let s := (ofString text).after n
    (Reached text s.position ↔ ¬ Overruns text n) ∧
    (Reached text s.tokenStart ↔ ¬ Overruns text (n - 1)) ∧
    (Overruns text n → s.position = text.utf8ByteSize + 1 ∧ s.next.1 = .ok none) ∧
    (Overruns text (n - 1) → s.tokenStart = text.utf8ByteSize + 1) := by
  intro s
  obtain ⟨htext, hposition, hstart⟩ := after_placed text n
  refine ⟨hposition.reached_iff, hstart.reached_iff, fun hover => ⟨hposition.eq hover, ?_⟩, hstart.eq⟩
  rw [next_behind htext (hposition.eq hover)]

/-- A number that is too large is passed, and behind it a string is opened in which the end of the text is escaped. -/
theorem after_reached_resumed :
    let text := "9223372036854775808 'é\\"
    let s := ofString text
    s.next.1 = .error (.invalidNumber "9223372036854775808" 0) ∧ Reached text (s.after 1).position ∧
      Overruns text 2 ∧ (s.after 2).position = text.utf8ByteSize + 1 ∧ (s.after 2).next.1 = .ok none ∧
      Reached text (s.after 2).tokenStart ∧ (s.after 3).tokenStart = text.utf8ByteSize + 1 := by
  intro text s
  obtain ⟨hgiven, hbeside, -⟩ := next_beside (beside_ofString text)
  have hlarge : s.next.1 = .error (.invalidNumber "9223372036854775808" 0) := by
    rw [hgiven]
    cbv
  have hunclosed : (s.after 1).next.1 = .error (.unclosedString 20) := by
    rw [show s.after 1 = s.next.2 from rfl, (next_beside hbeside).1]
    cbv
  have hodd : Odd (backslashes text.toList) := by decide
  have hfirst : ¬ Overruns text 1 := by
    rintro ⟨k, hk, -, p, hp⟩
    obtain rfl := Nat.lt_one_iff.1 hk
    cases hlarge.symm.trans hp
  have hsecond : Overruns text 2 := ⟨1, by decide, hodd, 20, hunclosed⟩
  obtain ⟨hposition, -⟩ := after_reached_iff text 1
  obtain ⟨-, hstart, hbehind, -⟩ := after_reached_iff text 2
  obtain ⟨-, -, -, hlast⟩ := after_reached_iff text 3
  exact ⟨hlarge, hposition.2 hfirst, hsecond, (hbehind hsecond).1, (hbehind hsecond).2, hstart.2 hfirst, hlast hsecond⟩

/-- **A scanner may leave the text.**  Behind a quote and a backslash it stands at byte 3 of 2. -/
theorem after_not_reached :
    let s := ofString "'\\"
    s.next.1 = .error (.unclosedString 0) ∧ (s.after 1).position = 3 ∧ (s.after 2).tokenStart = 3 ∧
      "'\\".utf8ByteSize = 2 ∧ ¬ Reached "'\\" (s.after 1).position ∧ ¬ Reached "'\\" (s.after 2).tokenStart := by
  intro s
  have herror : s.next.1 = .error (.unclosedString 0) := by cbv
  have hposition : (s.after 1).position = 3 := by cbv
  have hstart : (s.after 2).tokenStart = 3 := by cbv
  have hsize : "'\\".utf8ByteSize = 2 := by decide
  refine ⟨herror, hposition, hstart, hsize, fun h => ?_, fun h => ?_⟩
  · rw [hposition] at h
    exact absurd h.1 (by decide)
  · rw [hstart] at h
    exact absurd h.1 (by decide)

end Scanner
end FlatNtuple
