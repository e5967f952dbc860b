import FlatNtuple.Proofs.Expr.Lookahead
/-!
# Where lexemes stand does not matter

Readers go by the tokens; the positions of lexemes only go into complaints.  So over lexemes of the same tokens two walks
come to the same result, or complain of the same, wherever it is (`same_expression`).  One lemma for each kind of step
says how this goes through it, and the readers follow, as in `FlatNtuple.Proofs.Expr.Lookahead`.
-/
namespace FlatNtuple

/-- The error, wherever it is. -/
def ParseError.unplaced : ParseError → ParseError
  | invalidCharacter c _ => invalidCharacter c 0
  | unexpectedToken t _ => unexpectedToken t 0
  | expected what _ => expected what 0
  | unexpectedEnd _ => unexpectedEnd 0
  | unclosedString _ => unclosedString 0
  | invalidNumber literal _ => invalidNumber literal 0
  | tooDeep limit _ => tooDeep limit 0
  | empty => empty

namespace Parser

/-- Two settings of texts without a lexical error, with one limit. -/
structure Setting.Akin (s s' : Setting) : Prop where
  limit : s.limit = s'.limit
  finished : ∃ stop, s.ending = .finished stop
  finished' : ∃ stop, s'.ending = .finished stop

namespace Walk

/-- Results that differ in positions at most. -/
inductive Shifted {α : Type} : Result (α × List Lexeme) → Result (α × List Lexeme) → Prop
  | ok (x : α) {rest rest' : List Lexeme} (h : tokensOf rest = tokensOf rest') : Shifted (.ok (x, rest)) (.ok (x, rest'))
  | error {e e' : ParseError} (h : e.unplaced = e'.unplaced) : Shifted (.error e) (.error e')

/-- A walk over lexemes comes to what its counterpart comes to over lexemes of the same tokens. -/
def Same {α : Type} (f f' : Walk α) (ls : List Lexeme) : Prop :=
  ∀ ls', tokensOf ls = tokensOf ls' → Shifted (f ls) (f' ls')

section
variable {α β : Type} {s s' : Setting} {ls : List Lexeme} {l : Lexeme}

theorem exists_of_tokensOf_cons {ls' : List Lexeme} (h : tokensOf (l :: ls) = tokensOf ls') :
    ∃ l' rest, ls' = l' :: rest ∧ l.token = l'.token ∧ tokensOf ls = tokensOf rest := by
  cases ls' with
  | nil => cases h
  | cons l' rest =>
    simp only [tokensOf_cons, List.cons.injEq] at h
    exact ⟨l', rest, rfl, h⟩

theorem eq_nil_of_tokensOf {ls' : List Lexeme} (h : tokensOf [] = tokensOf ls') : ls' = [] := by
  cases ls' with
  | nil => rfl
  | cons => cases h

/-! ## The steps -/

theorem same_pure (x : α) : Same (pure x) (pure x) ls := fun _ h => .ok x h

theorem Same.bind {f f' : Walk α} {g g' : α → Walk β} (hf : Same f f' ls)
    (hg : ∀ x rest, f ls = .ok (x, rest) → Same (g x) (g' x) rest) : Same (f >>= g) (f' >>= g') ls := by
  intro ls' h
  rw [bind_apply, bind_apply]
  have hshifted := hf ls' h
  generalize hr : f ls = r at hshifted
  generalize f' ls' = r' at hshifted
  cases hshifted with
  | ok x hrest => exact hg x _ hr _ hrest
  | error he => exact .error he

theorem Same.peek {g g' : Option Token → Walk β}
    (hg : Same (g (ls.head?.map Lexeme.token)) (g' (ls.head?.map Lexeme.token)) ls) :
    Same (Walk.peek >>= g) (Walk.peek >>= g') ls := by
  intro ls' h
  have hhead : ls.head?.map Lexeme.token = ls'.head?.map Lexeme.token := by
    rw [← List.head?_map, ← List.head?_map]
    exact congrArg List.head? h
  have hshifted := hg ls' h
  simp only [bind_apply, Walk.peek, ok_bind]
  rwa [hhead] at hshifted ⊢

theorem same_unexpected : Same (unexpected s : Walk α) (unexpected s') ls := by
  intro ls' h
  refine .error ?_
  cases ls with
  | nil =>
    rw [eq_nil_of_tokensOf h]
    rfl
  | cons l ls =>
    obtain ⟨l', rest, rfl, htoken, -⟩ := exists_of_tokensOf_cons h
    simp only [Setting.unexpected, htoken, ParseError.unplaced]

theorem same_missing (what : Expected) : Same (missing s what : Walk α) (missing s' what) ls := fun _ _ => .error rfl

section
variable (hs : s.Akin s')
include hs

theorem Same.skip {g g' : Unit → Walk β} (hg : Same (g ()) (g' ()) ls) :
    Same (Walk.skip s >>= g) (Walk.skip s' >>= g') (l :: ls) := by
  intro ls' h
  obtain ⟨l', rest, rfl, -, hrest⟩ := exists_of_tokensOf_cons h
  obtain ⟨-, ⟨_, hfinished⟩, _, hfinished'⟩ := hs
  rw [skip_bind_apply, skip_bind_apply, arrive_of_finished hfinished, arrive_of_finished hfinished']
  exact hg rest hrest

theorem Same.check {g g' : Unit → Walk β} {depth : Nat} (hg : Same (g ()) (g' ()) ls) :
    Same (Walk.check s depth >>= g) (Walk.check s' depth >>= g') ls := by
  intro ls' h
  rw [check_bind_apply, check_bind_apply, Setting.checkDepth, Setting.checkDepth, hs.limit]
  split
  · exact .error rfl
  · exact hg ls' h

theorem Same.expect {t : Token} {g g' : Unit → Walk β} (hg : ∀ l rest, ls = l :: rest → Same (g ()) (g' ()) rest) :
    Same (Walk.expect s t >>= g) (Walk.expect s' t >>= g') ls := by
  rw [Walk.expect, Walk.expect, bind_assoc, bind_assoc]
  apply Same.peek
  cases ls with
  | nil => exact same_unexpected.bind fun _ _ h => by cases h
  | cons l rest =>
    simp only [List.head?_cons, Option.map_some]
    by_cases hl : l.token = t
    · simp only [if_pos hl]
      exact Same.skip hs (hg l rest rfl)
    · simp only [if_neg hl]
      exact (same_missing _).bind fun _ _ h => by cases h

end
end

/-! ## The readers -/

/-- Two readers that come to the same on every level. -/
def SameReader (sub sub' : Reader) : Prop := ∀ level ls, Same (read sub level) (read sub' level) ls

section
variable {α : Type} {s s' : Setting} {sub sub' : Reader} {ls : List Lexeme} {tree : Expr} {depth : Nat}

theorem SameReader.bind (hsub : SameReader sub sub') {level : Level} {g g' : Expr × Nat → Walk α}
    (hg : ∀ x rest, rest.length < ls.length → Same (g x) (g' x) rest) :
    Same (read sub level >>= g) (read sub' level >>= g') ls := by
  refine (hsub level ls).bind fun x rest h => hg x rest ?_
  have hreads : Reads (sub level ls) ⟨x.1, x.2, rest⟩ := parsed_eq_ok.1 h
  exact hreads.prop

section
variable (hs : s.Akin s') (hsub : SameReader sub sub')
include hs hsub

theorem same_arguments : Same (arguments s sub) (arguments s' sub') ls := by
  induction hk : ls.length using Nat.strongRecOn generalizing ls with | ind k ih
  rw [arguments_eq, arguments_eq s']
  refine hsub.bind fun x rest hlt => ?_
  apply Same.peek
  match rest with
  | [] => exact same_unexpected
  | ⟨token, start, stop⟩ :: rest =>
    cases token with
    | comma =>
      have hlt' : rest.length < k := by rw [List.length_cons] at hlt; omega
      exact Same.skip hs ((ih _ hlt' rfl).bind fun _ _ _ => same_pure _)
    | rightParen => exact Same.skip hs (same_pure _)
    | _ => exact same_missing _

theorem same_argumentList : Same (argumentList s sub) (argumentList s' sub') ls := by
  have hargs : Same (arguments s sub) (arguments s' sub') ls := same_arguments hs hsub
  rw [argumentList_eq, argumentList_eq s']
  apply Same.peek
  match ls with
  | [] => exact hargs
  | ⟨token, start, stop⟩ :: rest =>
    cases token with
    | rightParen => exact Same.skip hs (same_pure _)
    | _ => exact hargs

theorem SameReader.bind_argumentList {g g' : List Expr × Nat → Walk α}
    (hg : ∀ x rest, rest.length < ls.length → Same (g x) (g' x) rest) :
    Same (argumentList s sub >>= g) (argumentList s' sub' >>= g') ls := by
  refine (same_argumentList hs hsub).bind fun x rest h => hg x rest ?_
  have hreads : ReadsArgs (Parser.argumentList s sub ls) x.1 x.2 rest := listed_eq_ok.1 h
  exact hreads.choose

theorem same_primary : Same (primary s sub) (primary s' sub') ls := by
  have hleaf {l : Lexeme} {rest : List Lexeme} (tree : Expr) : Same (leaf s tree) (leaf s' tree) (l :: rest) :=
    Same.skip hs (same_pure _)
  rw [primary_eq, primary_eq s']
  apply Same.peek
  match ls with
  | [] => exact same_unexpected
  | ⟨token, start, stop⟩ :: rest =>
    cases token with
    | identifier name =>
      refine Same.skip hs (Same.peek ?_)
      match rest with
      | [] => exact same_pure _
      | ⟨token, start, stop⟩ :: rest =>
        cases token with
        | leftParen =>
          exact Same.skip hs (hsub.bind_argumentList hs fun _ _ _ => Same.check hs (same_pure _))
        | _ => exact same_pure _
    | integer | decimal | string | bool => exact hleaf _
    | leftParen => exact Same.skip hs (hsub.bind fun _ _ _ => Same.expect hs fun _ _ _ => same_pure _)
    | _ => exact same_unexpected

/-- Behind the name of an accessor, with fewer lexemes left than it takes for the suffixes to be read alike. -/
theorem same_afterAccessor (name : String) {bound : Nat}
    (hnext : ∀ {tree : Expr} {depth : Nat} {rest : List Lexeme}, rest.length < bound →
      Same (postfixes s sub tree depth) (postfixes s' sub' tree depth) rest) (hlt : ls.length < bound) :
    Same (afterAccessor s sub name tree depth) (afterAccessor s' sub' name tree depth) ls := by
  apply Same.peek
  match ls with
  | [] => exact Same.check hs (hnext hlt)
  | ⟨token, start, stop⟩ :: rest =>
    cases token with
    | leftParen =>
      refine Same.skip hs (hsub.bind_argumentList hs fun x rest' hrest => Same.check hs (hnext ?_))
      simp only [List.length_cons] at hlt
      omega
    | _ => exact Same.check hs (hnext hlt)

theorem same_postfixes : Same (postfixes s sub tree depth) (postfixes s' sub' tree depth) ls := by
  induction hk : ls.length using Nat.strongRecOn generalizing ls tree depth with | ind k ih
  have hnext {tree : Expr} {depth : Nat} {rest : List Lexeme} (hlt : rest.length < k) :
      Same (postfixes s sub tree depth) (postfixes s' sub' tree depth) rest := ih _ hlt rfl
  rw [postfixes_eq, postfixes_eq s']
  apply Same.peek
  match ls with
  | [] => exact same_pure _
  | ⟨token, start, stop⟩ :: rest =>
    cases token with
    | dot =>
      refine Same.skip hs (Same.peek ?_)
      match rest with
      | [] => exact same_missing _
      | ⟨token, start, stop⟩ :: rest =>
        cases token with
        | identifier name =>
          simp only [List.length_cons] at hk
          exact Same.skip hs (same_afterAccessor hs hsub name hnext (by omega))
        | _ => exact same_missing _
    | leftBracket =>
      refine Same.skip hs (hsub.bind fun x rest hlt => Same.expect hs fun l rest' hrest => Same.check hs (hnext ?_))
      simp only [hrest, List.length_cons] at hk hlt
      omega
    | _ => exact same_pure _

theorem same_operand : Same (operand s sub) (operand s' sub') ls := by
  have hpostfixed {ls : List Lexeme} : Same (postfixed s sub) (postfixed s' sub') ls :=
    (same_primary hs hsub).bind fun _ _ _ => same_postfixes hs hsub
  have hsigned (op : UnaryOp) {ls : List Lexeme} : Same (afterSign s sub op) (afterSign s' sub' op) ls :=
    hsub.bind fun _ _ _ => Same.check hs (same_pure _)
  rw [operand_eq, operand_eq s']
  apply Same.peek
  match ls with
  | [] => exact hpostfixed
  | ⟨token, start, stop⟩ :: rest =>
    cases token with
    | operator op =>
      cases op with
      | subtract => exact Same.skip hs (hsigned .negate)
      | add => exact Same.skip hs (hsub .unary rest)
      | _ => exact hpostfixed
    | not => exact Same.skip hs (hsigned .not)
    | _ => exact hpostfixed

theorem same_infixes (level : Level) : Same (infixes s sub level tree depth) (infixes s' sub' level tree depth) ls := by
  induction hk : ls.length using Nat.strongRecOn generalizing ls tree depth with | ind k ih
  have hnext {tree : Expr} {depth : Nat} {rest : List Lexeme} (hlt : rest.length < k) :
      Same (infixes s sub level tree depth) (infixes s' sub' level tree depth) rest := ih _ hlt rfl
  rw [infixes_eq, infixes_eq s']
  apply Same.peek
  match ls with
  | [] => exact same_pure _
  | ⟨token, start, stop⟩ :: rest =>
    cases token with
    | question =>
      simp only [List.head?_cons, Option.map_some]
      split
      · exact same_pure _
      · refine Same.skip hs (hsub.bind fun x rest hlt => Same.expect hs fun l rest' hrest => ?_)
        refine hsub.bind fun y rest'' hlt' => Same.check hs (hnext ?_)
        simp only [hrest, List.length_cons] at hk hlt
        omega
    | operator op =>
      simp only [List.head?_cons, Option.map_some]
      split
      · exact same_pure _
      · refine Same.skip hs (hsub.bind fun x rest hlt => Same.check hs (hnext ?_))
        rw [List.length_cons] at hk
        omega
    | _ => exact same_pure _

end

/-- **Subexpressions are read alike wherever their lexemes stand.** -/
theorem same_expression (hs : s.Akin s') : ∀ n, SameReader (expression s n) (expression s' n)
  | 0 => fun _ _ _ _ => .error (by rw [hs.limit]; rfl)
  | n + 1 => fun level ls => by
    rw [expression_eq, expression_eq s']
    exact (same_operand hs (same_expression hs n)).bind fun _ _ _ => same_infixes hs (same_expression hs n) level

theorem same_whole (hs : s.Akin s') : Same (whole s) (whole s') ls := by
  rw [whole, whole, ← hs.limit]
  refine (same_expression hs s.limit).bind fun x rest _ => ?_
  apply Same.peek
  cases rest with
  | nil => exact same_pure _
  | cons l rest => exact same_unexpected

end
end Walk

open Walk

/-- **What a text is parsed to depends on its tokens only**, and so does what is wrong with it. -/
theorem whole_same {lexed lexed' : Lexed} (htokens : tokensOf lexed.lexemes = tokensOf lexed'.lexemes)
    (hfinished : ∃ stop, lexed.ending = .finished stop) (hfinished' : ∃ stop, lexed'.ending = .finished stop)
    (limit : Nat) :
    (whole lexed limit).mapError ParseError.unplaced = (whole lexed' limit).mapError ParseError.unplaced := by
  have hs : Setting.Akin ⟨lexed.ending, limit⟩ ⟨lexed'.ending, limit⟩ := ⟨rfl, hfinished, hfinished'⟩
  by_cases hnil : lexed.lexemes = []
  · obtain ⟨stop, hstop⟩ := hfinished
    obtain ⟨stop', hstop'⟩ := hfinished'
    have hnil' : lexed'.lexemes = [] := eq_nil_of_tokensOf (hnil ▸ htokens)
    rw [whole_nil hnil, whole_nil hnil', hstop, hstop']
  · have hnil' : lexed'.lexemes ≠ [] := fun h => hnil (eq_nil_of_tokensOf (h ▸ htokens.symm))
    rw [whole_eq hnil, whole_eq hnil']
    have hsame := same_whole hs lexed'.lexemes htokens
    generalize Walk.whole _ lexed.lexemes = r at hsame ⊢
    generalize Walk.whole _ lexed'.lexemes = r' at hsame ⊢
    cases hsame with
    | ok x => rfl
    | error he => exact congrArg Except.error he

end Parser
end FlatNtuple
