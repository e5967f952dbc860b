import FlatNtuple.Proofs.Expr.Steady
/-!
# One lexeme of lookahead

The readers are steady walks (`steady_expression`), whole texts included.  Each reader is taken through its steps with
the tokens of the phrase it has passed so far; that a phrase can still be completed is shown at each step by what the
grammar lets follow.
-/
namespace FlatNtuple
namespace Parser

open Grammar

theorem Setting.Blames.append {s : Setting} {ts u : List Token} {ls : List Lexeme} {e : ParseError}
    (h : s.Blames ts ls e) (hu : u.getLast? ≠ some .dot) : s.Blames (u ++ ts) ls e := by
  cases ls with
  | cons => exact h
  | nil =>
    cases hending : s.ending with
    | failed => simpa only [Setting.Blames, hending] using h
    | finished stop =>
      have hlast : (u ++ ts).getLast? = some .dot ↔ ts.getLast? = some .dot := by
        rcases List.eq_nil_or_concat ts with rfl | ⟨vs, t, rfl⟩
        · simpa using hu
        · simp
      simpa only [Setting.Blames, hending, hlast] using h

theorem Covers.depth_le {s : Setting} {n : Nat} {a : Symbol} {d : Derivation a} {ls : List Lexeme} {p : Parsed}
    (h : Covers s n d ls p) : p.depth ≤ d.tokens.length := h.depth ▸ d.depth_le

theorem tokensOf_eq_of_append {ls pre rest : List Lexeme} {ts : List Token} (hls : ls = pre ++ rest)
    (h : tokensOf ls = ts ++ tokensOf rest) : tokensOf pre = ts := by
  rw [hls, tokensOf, List.map_append] at h
  exact List.append_cancel_right h

namespace Walk

/-- Two readers of which one goes the way of the other on every level. -/
def SteadyReader (s s' : Setting) (n : Nat) (sub sub' : Reader) : Prop :=
  ∀ level ls, Steady s s' n (symbolOf level) [] (read sub level) (read sub' level) ls

theorem parsed_eq_ok {P : Parsed → Prop} {r : Result { p : Parsed // P p }} {tree : Expr} {depth : Nat}
    {rest : List Lexeme} : parsed r = .ok ((tree, depth), rest) ↔ Reads r ⟨tree, depth, rest⟩ := by
  cases r with
  | error e => simp [parsed, Reads]
  | ok p =>
    obtain ⟨⟨tree', depth', rest'⟩, hp⟩ := p
    rw [reads_ok]
    simp [parsed, and_assoc]

theorem listed_eq_ok {P : List Lexeme → Prop} {r : Result ((List Expr × Nat) × { ls : List Lexeme // P ls })}
    {args : List Expr} {depth : Nat} {rest : List Lexeme} :
    listed r = .ok ((args, depth), rest) ↔ ReadsArgs r args depth rest := by
  cases r with
  | error e => simp [listed, ReadsArgs]
  | ok p =>
    obtain ⟨⟨args', depth'⟩, ⟨rest', hrest⟩⟩ := p
    simp only [listed, ReadsArgs, Functor.map, Except.map, Except.ok.injEq, Prod.mk.injEq, Subtype.mk.injEq]
    constructor
    · rintro ⟨h, rfl⟩; exact ⟨hrest, h, rfl⟩
    · rintro ⟨_, h, rfl⟩; exact ⟨h, rfl⟩

section
variable {α : Type} {s s' : Setting} {n : Nat} {sub sub' : Reader} {a b : Symbol} {u : List Token}
  {ls : List Lexeme} {tree : Expr} {depth : Nat}

/-- A subexpression is a walk inside the phrase around it. -/
theorem Steady.inside {f f' : Walk α} (h : Steady s s' n b [] f f' ls) (hu : Undotted u)
    (hall : ∀ d : Derivation b, Begun a (u ++ d.tokens)) : Steady s s' (n + 1) a u f f' ls := by
  refine ⟨h.ok, fun harrive e he => (h.error harrive e he).imp ?_ ?_⟩
  · have := hu.length_pos
    rintro ⟨htooDeep, hsize⟩
    refine ⟨htooDeep, ?_⟩
    simp only [List.length_nil, Nat.zero_add] at hsize
    omega
  · rintro ⟨pre, rest, hls, hbegun, hblames, hrest⟩
    exact ⟨pre, rest, hls, hbegun.append hall, hblames.append hu.getLast?_ne, hrest⟩

theorem SteadyReader.bind (hsub : SteadyReader s s' n sub sub') (hsound : Sound s n sub) {level : Level}
    (hlevel : symbolOf level = b) {g g' : Expr × Nat → Walk α} (hu : Undotted u)
    (hall : ∀ d : Derivation b, Begun a (u ++ d.tokens))
    (hg : ∀ (d : Derivation b) (p : Parsed), Covers s n d ls p → Closed level.rank (tokensOf p.rest) →
      p.rest.length < ls.length →
      Steady s s' (n + 1) a (u ++ d.tokens) (g (p.tree, p.depth)) (g' (p.tree, p.depth)) p.rest) :
    Steady s s' (n + 1) a u (read sub level >>= g) (read sub' level >>= g') ls := by
  subst hlevel
  refine ((hsub level ls).inside hu hall).bind fun x pre rest h hls => ?_
  have hreads : Reads (sub level ls) ⟨x.1, x.2, rest⟩ := parsed_eq_ok.1 h
  obtain ⟨⟨d, hd⟩, hclosed⟩ := hsound level ls _ hreads
  rw [tokensOf_eq_of_append hls hd.tokens]
  exact hg d ⟨x.1, x.2, rest⟩ hd hclosed hreads.prop

/-! ## Arguments -/

theorem steady_arguments (hsub : SteadyReader s s' n sub sub') (hsound : Sound s n sub) (hu : Undotted u)
    (hall : ∀ d ds, Begun a (u ++ (tokensOfArgs (d :: ds) ++ [Token.rightParen]))) :
    Steady s s' (n + 1) a u (arguments s sub) (arguments s' sub') ls := by
  induction hk : ls.length using Nat.strongRecOn generalizing ls u with | ind k ih
  -- An argument may be the last one or not: of both there is a list of arguments that the phrase can go on with.
  have hone (d : Derivation .cond) : Begun a (u ++ d.tokens ++ [Token.rightParen]) := by
    simpa only [tokensOfArgs, List.append_assoc] using hall d []
  rw [arguments_eq, arguments_eq s']
  refine hsub.bind (b := .cond) hsound rfl hu (fun d => (hone d).of_append) fun d p hp _ hlt => ?_
  have hud : Undotted (u ++ d.tokens) := d.undotted.append u
  apply Steady.peek
  match hrest : p.rest with
  | [] => exact steady_unexpected (hone d).of_append hud.getLast?_ne
  | ⟨token, start, stop⟩ :: rest =>
    cases token with
    | comma =>
      have hmore (d' : Derivation .cond) ds :
          Begun a (u ++ d.tokens ++ [Token.comma] ++ (tokensOfArgs (d' :: ds) ++ [Token.rightParen])) := by
        simpa only [tokensOfArgs_cons_cons, List.append_assoc, List.singleton_append, List.cons_append,
          List.nil_append] using hall d (d' :: ds)
      obtain ⟨d'⟩ := nonempty_derivation .cond
      have hlt' : rest.length < k := by rw [hrest, List.length_cons] at hlt; omega
      refine Steady.skip (hmore d' []).of_append ?_
      exact (ih _ hlt' (undotted_concat (by nofun) _) hmore rfl).bind fun _ _ _ _ _ => steady_pure _
    | rightParen => exact Steady.skip (hone d) (steady_pure _)
    | _ => exact steady_missing (hone d).of_append _

theorem steady_argumentList (hsub : SteadyReader s s' n sub sub') (hsound : Sound s n sub) (hu : Undotted u)
    (hall : ∀ ds, Begun a (u ++ (tokensOfArgs ds ++ [Token.rightParen]))) :
    Steady s s' (n + 1) a u (argumentList s sub) (argumentList s' sub') ls := by
  have hargs : Steady s s' (n + 1) a u (arguments s sub) (arguments s' sub') ls :=
    steady_arguments hsub hsound hu fun d ds => hall (d :: ds)
  rw [argumentList_eq, argumentList_eq s']
  apply Steady.peek
  match ls with
  | [] => exact hargs
  | ⟨token, start, stop⟩ :: rest =>
    cases token with
    | rightParen => exact Steady.skip (hall []) (steady_pure _)
    | _ => exact hargs

theorem SteadyReader.bind_argumentList (hsub : SteadyReader s s' n sub sub') (hsound : Sound s n sub)
    {g g' : List Expr × Nat → Walk α} (hu : Undotted u)
    (hall : ∀ ds, Begun a (u ++ (tokensOfArgs ds ++ [Token.rightParen])))
    (hg : ∀ ds args depth rest, depth ≤ (tokensOfArgs ds).length → rest.length < ls.length →
      Steady s s' (n + 1) a (u ++ (tokensOfArgs ds ++ [Token.rightParen])) (g (args, depth)) (g' (args, depth)) rest) :
    Steady s s' (n + 1) a u (argumentList s sub >>= g) (argumentList s' sub' >>= g') ls := by
  refine (steady_argumentList hsub hsound hu hall).bind fun x pre rest h hls => ?_
  obtain ⟨args, depth⟩ := x
  have hreads : ReadsArgs (Parser.argumentList s sub ls) args depth rest := listed_eq_ok.1 h
  obtain ⟨ds, hds⟩ := argumentList_sound hsound hreads
  have htokens : tokensOf ls = (tokensOfArgs ds ++ [Token.rightParen]) ++ tokensOf rest := by
    rw [hds.tokens, List.append_assoc, List.singleton_append]
  rw [tokensOf_eq_of_append hls htokens]
  refine hg ds args depth rest ?_ hreads.choose
  rw [← hds.depth, ← hds.trees]
  exact depthOfArgs_le ds

/-! ## Primaries and what follows them -/

theorem steady_leaf {l : Lexeme} (hbegun : Begun a (u ++ [l.token])) :
    Steady s s' n a u (leaf s tree) (leaf s' tree) (l :: ls) :=
  Steady.skip hbegun (steady_pure _)

section
variable (hlimit : s.limit ≤ s'.limit) (hsub : SteadyReader s s' n sub sub') (hsound : Sound s n sub)
include hlimit hsub hsound

theorem steady_afterName (name : String) :
    Steady s s' (n + 1) .prim [Token.identifier name] (afterName s sub name) (afterName s' sub' name) ls := by
  apply Steady.peek
  match ls with
  | [] => exact steady_pure _
  | ⟨token, start, stop⟩ :: rest =>
    cases token with
    | leftParen =>
      have hall ds : Begun .prim ([Token.identifier name] ++ [Token.leftParen] ++
          (tokensOfArgs ds ++ [Token.rightParen])) := begun_tokens (.call name ds)
      refine Steady.skip (hall []).of_append ?_
      refine hsub.bind_argumentList hsound (undotted_concat (by nofun) _) hall fun ds args depth rest hdepth _ => ?_
      refine Steady.check hlimit ?_ (steady_pure _)
      simp only [List.length_append, List.length_singleton]
      omega
    | _ => exact steady_pure _

omit hlimit in
theorem steady_afterParen : Steady s s' (n + 1) .prim [Token.leftParen] (afterParen s sub) (afterParen s' sub') ls := by
  have hgroup (d : Derivation .cond) : Begun .prim ([Token.leftParen] ++ d.tokens ++ [Token.rightParen]) :=
    begun_tokens (.group d)
  refine hsub.bind (b := .cond) hsound rfl (undotted_concat (by nofun) []) (fun d => (hgroup d).of_append)
    fun d p _ _ _ => ?_
  exact Steady.expect (hgroup d) (d.undotted.append _).getLast?_ne fun _ _ _ _ => steady_pure _

theorem steady_primary : Steady s s' (n + 1) .prim [] (primary s sub) (primary s' sub') ls := by
  have hunexpected {ls : List Lexeme} :
      Steady s s' (n + 1) .prim [] (unexpected s : Walk (Expr × Nat)) (unexpected s') ls :=
    steady_unexpected (begun_nil _) nofun
  rw [primary_eq, primary_eq s']
  apply Steady.peek
  match ls with
  | [] => exact hunexpected
  | ⟨token, start, stop⟩ :: rest =>
    cases token with
    | identifier name => exact Steady.skip (begun_tokens (.name name)) (steady_afterName hlimit hsub hsound name)
    | integer k => exact steady_leaf (begun_tokens (.integer k))
    | decimal k => exact steady_leaf (begun_tokens (.decimal k))
    | string raw => exact steady_leaf (begun_tokens (.string raw))
    | bool b => exact steady_leaf (begun_tokens (.bool b))
    | leftParen =>
      obtain ⟨d⟩ := nonempty_derivation .cond
      have hparen : Begun .prim [Token.leftParen] := (begun_tokens (.group d)).mono ⟨_, rfl⟩
      exact Steady.skip hparen (steady_afterParen hsub hsound)
    | _ => exact hunexpected

/-- Behind one more suffix, with fewer lexemes left than the bound, the loop over suffixes is steady. -/
def SteadySuffixes (s s' : Setting) (n : Nat) (sub sub' : Reader) (u : List Token) (bound : Nat) : Prop :=
  ∀ (x : Suffix) (tree : Expr) (depth : Nat) (rest : List Lexeme), depth ≤ (u ++ x.tokens).length →
    rest.length < bound → Steady s s' (n + 1) .post (u ++ x.tokens) (postfixes s sub tree depth)
      (postfixes s' sub' tree depth) rest

variable {bound : Nat} (hsuffix : ∀ x : Suffix, Begun .post (u ++ x.tokens))
  (hnext : SteadySuffixes s s' n sub sub' u bound) (hdepth : depth ≤ u.length) (hlength : ls.length < bound)
include hsuffix hnext hdepth hlength

theorem steady_afterAccessor (name : String) :
    Steady s s' (n + 1) .post (u ++ [Token.dot] ++ [Token.identifier name]) (afterAccessor s sub name tree depth)
      (afterAccessor s' sub' name tree depth) ls := by
  have hmember : Steady s s' (n + 1) .post (u ++ [Token.dot] ++ [Token.identifier name])
      (check s (depth + 1) >>= fun _ => postfixes s sub (.member tree name) (depth + 1))
      (check s' (depth + 1) >>= fun _ => postfixes s' sub' (.member tree name) (depth + 1)) ls := by
    have hu : u ++ [Token.dot] ++ [Token.identifier name] = u ++ (Suffix.member name).tokens := by simp [Suffix.tokens]
    have hle : depth + 1 ≤ (u ++ (Suffix.member name).tokens).length := by
      simp only [Suffix.tokens, List.length_append, List.length_cons]; omega
    rw [hu]
    exact Steady.check hlimit hle (hnext _ _ _ _ hle hlength)
  apply Steady.peek
  match ls with
  | [] => exact hmember
  | ⟨token, start, stop⟩ :: rest =>
    cases token with
    | leftParen =>
      have hu ds : u ++ [Token.dot] ++ [Token.identifier name] ++ [Token.leftParen] ++
          (tokensOfArgs ds ++ [Token.rightParen]) = u ++ (Suffix.memberCall name ds).tokens := by simp [Suffix.tokens]
      have hall ds : Begun .post (u ++ [Token.dot] ++ [Token.identifier name] ++ [Token.leftParen] ++
          (tokensOfArgs ds ++ [Token.rightParen])) := hu ds ▸ hsuffix (.memberCall name ds)
      refine Steady.skip (hall []).of_append ?_
      refine hsub.bind_argumentList hsound (undotted_concat (by nofun) _) hall
        fun ds args deepest rest' hdeepest hlt => ?_
      have hle : max depth deepest + 1 ≤ (u ++ (Suffix.memberCall name ds).tokens).length := by
        simp only [Suffix.tokens, List.length_append, List.length_cons]; omega
      rw [hu]
      exact Steady.check hlimit hle (hnext _ _ _ _ hle (by simp only [List.length_cons] at hlength; omega))
    | _ => exact hmember

theorem steady_afterDot : Steady s s' (n + 1) .post (u ++ [Token.dot]) (afterDot s sub tree depth)
    (afterDot s' sub' tree depth) ls := by
  have hdot : Begun .post (u ++ [Token.dot]) := (hsuffix (.member "x")).mono (by simp [Suffix.tokens])
  apply Steady.peek
  match ls with
  | [] => exact steady_missing_accessor hdot
  | ⟨token, start, stop⟩ :: rest =>
    cases token with
    | identifier name =>
      have hname : Begun .post (u ++ [Token.dot] ++ [Token.identifier name]) :=
        (hsuffix (.member name)).mono (by simp [Suffix.tokens])
      have hrest : rest.length < bound := by simp only [List.length_cons] at hlength; omega
      exact Steady.skip hname (steady_afterAccessor hlimit hsub hsound hsuffix hnext hdepth hrest name)
    | _ => exact steady_missing_accessor hdot

theorem steady_afterBracket : Steady s s' (n + 1) .post (u ++ [Token.leftBracket]) (afterBracket s sub tree depth)
    (afterBracket s' sub' tree depth) ls := by
  have hu (d : Derivation .cond) :
      u ++ [Token.leftBracket] ++ d.tokens ++ [Token.rightBracket] = u ++ (Suffix.index d).tokens := by
    simp [Suffix.tokens]
  have hindex (d : Derivation .cond) : Begun .post (u ++ [Token.leftBracket] ++ d.tokens ++ [Token.rightBracket]) :=
    hu d ▸ hsuffix (.index d)
  refine hsub.bind (b := .cond) hsound rfl (undotted_concat (by nofun) _) (fun d => (hindex d).of_append)
    fun d p hp _ hlt => ?_
  refine Steady.expect (hindex d) (d.undotted.append _).getLast?_ne fun l rest hrest _ => ?_
  have hle : max depth p.depth + 1 ≤ (u ++ (Suffix.index d).tokens).length := by
    have := hp.depth_le
    simp only [Suffix.tokens, List.length_append, List.length_cons]; omega
  rw [hu]
  exact Steady.check hlimit hle (hnext _ _ _ _ hle (by rw [hrest, List.length_cons] at hlt; omega))

end

/-- Members and indices behind a phrase that can have them. -/
theorem steady_postfixes (hlimit : s.limit ≤ s'.limit) (hsub : SteadyReader s s' n sub sub') (hsound : Sound s n sub)
    (base : Derivation .post) (hdepth : depth ≤ base.tokens.length) :
    Steady s s' (n + 1) .post base.tokens (postfixes s sub tree depth) (postfixes s' sub' tree depth) ls := by
  induction hk : ls.length using Nat.strongRecOn generalizing ls base tree depth with | ind k ih
  have hsuffix (x : Suffix) : Begun .post (base.tokens ++ x.tokens) := begun_tokens (base.access x)
  have hnext : SteadySuffixes s s' n sub sub' base.tokens k := fun x _ _ _ hle hlt =>
    ih _ hlt (base.access x) hle rfl
  rw [postfixes_eq, postfixes_eq s']
  apply Steady.peek
  match ls with
  | [] => exact steady_pure _
  | ⟨token, start, stop⟩ :: rest =>
    have hlength : rest.length < k := by rw [← hk, List.length_cons]; omega
    cases token with
    | dot =>
      exact Steady.skip ((hsuffix (.member "x")).mono (by simp [Suffix.tokens]))
        (steady_afterDot hlimit hsub hsound hsuffix hnext hdepth hlength)
    | leftBracket =>
      obtain ⟨d⟩ := nonempty_derivation .cond
      exact Steady.skip ((hsuffix (.index d)).mono (by simp [Suffix.tokens]))
        (steady_afterBracket hlimit hsub hsound hsuffix hnext hdepth hlength)
    | _ => exact steady_pure _

/-! ## Operands and operators -/

/-- What an operator behind a phrase goes on with belongs to a phrase of the reader's level. -/
theorem begun_operator {level : Level} {op : BinaryOp} (left : Derivation b) (hclosed : op.level.rank < boundOf b)
    (hlevel : level.rank ≤ op.level.rank) (r : Derivation (symbolOf op.rightLevel)) :
    Begun (symbolOf level) (left.tokens ++ [Token.operator op] ++ r.tokens) := by
  obtain ⟨c, d, htokens, -, -, -, hc⟩ := exists_of_operator left hclosed r
  have hrank : rankOf (symbolOf level) ≤ rankOf c := Nat.le_trans (Nat.le_trans (rankOf_symbolOf_le level) hlevel) hc
  exact ((begun_tokens d).loosen hrank).mono (by simp [htokens])

theorem begun_question {level : Level} (left : Derivation b) (hclosed : Level.conditional.rank < boundOf b)
    (hlevel : level.rank ≤ Level.conditional.rank) (x y : Derivation .cond) :
    Begun (symbolOf level) (left.tokens ++ [Token.question] ++ x.tokens ++ [Token.colon] ++ y.tokens) := by
  obtain ⟨d, htokens, -⟩ := exists_of_question left hclosed x y
  exact ((begun_tokens d).loosen (Nat.le_trans (rankOf_symbolOf_le level) hlevel)).mono (by simp [htokens])

section
variable (hlimit : s.limit ≤ s'.limit) (hsub : SteadyReader s s' n sub sub') (hsound : Sound s n sub)
include hlimit hsub hsound

theorem steady_afterSign (op : UnaryOp) :
    Steady s s' (n + 1) .un [signToken op] (afterSign s sub op) (afterSign s' sub' op) ls := by
  have hall (d : Derivation .un) : Begun .un ([signToken op] ++ d.tokens) := begun_tokens (.signed op d)
  have hne : signToken op ≠ .dot := by cases op <;> simp [signToken]
  refine hsub.bind (b := .un) hsound rfl (undotted_concat hne []) hall fun d p hp _ _ => ?_
  refine Steady.check hlimit ?_ (steady_pure _)
  have := hp.depth_le
  simp only [List.length_append, List.length_singleton]
  omega

theorem steady_postfixed (hpos : 0 < s.limit) :
    Steady s s' (n + 1) .post [] (postfixed s sub) (postfixed s' sub') ls := by
  refine ((steady_primary hlimit hsub hsound).loosen (by decide)).bind fun x pre rest h hls => ?_
  obtain ⟨d, hd⟩ := primary_sound hsound hpos (parsed_eq_ok.1 h)
  rw [tokensOf_eq_of_append hls hd.tokens]
  exact steady_postfixes hlimit hsub hsound (.primary d) hd.depth_le

theorem steady_operand (hpos : 0 < s.limit) :
    Steady s s' (n + 1) .un [] (operand s sub) (operand s' sub') ls := by
  have hpostfixed {ls : List Lexeme} : Steady s s' (n + 1) .un [] (postfixed s sub) (postfixed s' sub') ls :=
    (steady_postfixed hlimit hsub hsound hpos).loosen (by decide)
  obtain ⟨d⟩ := nonempty_derivation .un
  have hsign (op : UnaryOp) : Begun .un [signToken op] := (begun_tokens (.signed op d)).mono ⟨_, rfl⟩
  rw [operand_eq, operand_eq s']
  apply Steady.peek
  match ls with
  | [] => exact hpostfixed
  | ⟨token, start, stop⟩ :: rest =>
    cases token with
    | operator op =>
      cases op with
      | subtract => exact Steady.skip (hsign .negate) (steady_afterSign hlimit hsub hsound .negate)
      | add =>
        have hall (d : Derivation .un) : Begun .un ([Token.operator .add] ++ d.tokens) := begun_tokens (.plus d)
        exact Steady.skip (hall d).of_append ((hsub .unary rest).inside (undotted_concat (by nofun) []) hall)
      | _ => exact hpostfixed
    | not => exact Steady.skip (hsign .not) (steady_afterSign hlimit hsub hsound .not)
    | _ => exact hpostfixed

/-- Behind a phrase that an operator ends, as in `infixes_sound`, with fewer lexemes left than the bound, the loop over
operators is steady. -/
def SteadyInfixes (s s' : Setting) (n : Nat) (sub sub' : Reader) (level : Level) (bound : Nat) : Prop :=
  ∀ (c : Symbol) (d : Derivation c) (tree : Expr) (depth : Nat) (rest : List Lexeme),
    Closed (boundOf c) (tokensOf rest) → rankOf (symbolOf level) ≤ rankOf c → depth ≤ d.tokens.length →
    rest.length < bound → Steady s s' (n + 1) (symbolOf level) d.tokens (infixes s sub level tree depth)
      (infixes s' sub' level tree depth) rest

variable {level : Level} {bound : Nat} (left : Derivation b) (hnext : SteadyInfixes s s' n sub sub' level bound)
  (hdepth : depth ≤ left.tokens.length) (hlength : ls.length < bound)
include hnext hdepth hlength

theorem steady_afterQuestion (hclosed : Level.conditional.rank < boundOf b)
    (hlevel : level.rank ≤ Level.conditional.rank) :
    Steady s s' (n + 1) (symbolOf level) (left.tokens ++ [Token.question]) (afterQuestion s sub level tree depth)
      (afterQuestion s' sub' level tree depth) ls := by
  have hall (x y : Derivation .cond) := begun_question left hclosed hlevel x y
  obtain ⟨z⟩ := nonempty_derivation .cond
  refine hsub.bind (b := .cond) hsound rfl (undotted_concat (by nofun) _) (fun x => (hall x z).of_append.of_append)
    fun x p hp _ hlt => ?_
  refine Steady.expect (hall x z).of_append (x.undotted.append _).getLast?_ne fun l rest hrest _ => ?_
  refine hsub.bind (b := .cond) hsound rfl (undotted_concat (by nofun) _) (hall x) fun y q hq hend hlt' => ?_
  obtain ⟨d, hd, -⟩ := exists_of_question left hclosed x y
  have htokens : left.tokens ++ [Token.question] ++ x.tokens ++ [Token.colon] ++ y.tokens = d.tokens := by simp [hd]
  have hle : max (max depth p.depth) q.depth + 1 ≤ d.tokens.length := by
    have := hp.depth_le; have := hq.depth_le
    simp only [hd, List.length_append, List.length_cons]; omega
  have hrank : rankOf (symbolOf level) ≤ rankOf .cond := Nat.le_trans (rankOf_symbolOf_le level) hlevel
  rw [htokens]
  refine Steady.check hlimit hle (hnext _ d _ _ _ hend hrank hle ?_)
  rw [hrest, List.length_cons] at hlt
  omega

theorem steady_afterOperator {op : BinaryOp} (hclosed : op.level.rank < boundOf b)
    (hlevel : level.rank ≤ op.level.rank) :
    Steady s s' (n + 1) (symbolOf level) (left.tokens ++ [Token.operator op]) (afterOperator s sub level op tree depth)
      (afterOperator s' sub' level op tree depth) ls := by
  refine hsub.bind hsound rfl (undotted_concat (by nofun) _) (begun_operator left hclosed hlevel)
    fun r p hp hend hlt => ?_
  obtain ⟨c, d, hd, -, -, hbound, hc⟩ := exists_of_operator left hclosed r
  have htokens : left.tokens ++ [Token.operator op] ++ r.tokens = d.tokens := by simp [hd]
  have hle : max depth p.depth + 1 ≤ d.tokens.length := by
    have := hp.depth_le
    simp only [hd, List.length_append, List.length_cons]; omega
  have hrank : rankOf (symbolOf level) ≤ rankOf c := Nat.le_trans (Nat.le_trans (rankOf_symbolOf_le level) hlevel) hc
  rw [htokens]
  exact Steady.check hlimit hle (hnext _ d _ _ _ (hbound ▸ hend) hrank hle (by omega))

end

/-- Operators behind a phrase, which is one of some symbol as in `infixes_sound`. -/
theorem steady_infixes (hlimit : s.limit ≤ s'.limit) (hsub : SteadyReader s s' n sub sub') (hsound : Sound s n sub)
    (level : Level) (left : Derivation b) (hclosed : Closed (boundOf b) (tokensOf ls))
    (hrank : rankOf (symbolOf level) ≤ rankOf b) (hdepth : depth ≤ left.tokens.length) :
    Steady s s' (n + 1) (symbolOf level) left.tokens (infixes s sub level tree depth)
      (infixes s' sub' level tree depth) ls := by
  induction hk : ls.length using Nat.strongRecOn generalizing ls b left tree depth with | ind k ih
  have hnext : SteadyInfixes s s' n sub sub' level k := fun _ d _ _ _ hend hc hle hlt => ih _ hlt d hend hc hle rfl
  rw [infixes_eq, infixes_eq s']
  apply Steady.peek
  match ls with
  | [] => exact steady_pure _
  | ⟨token, start, stop⟩ :: rest =>
    have hlength : rest.length < k := by rw [← hk, List.length_cons]; omega
    cases token with
    | question =>
      simp only [List.head?_cons, Option.map_some]
      by_cases hlt : Level.conditional.rank < level.rank
      · simp only [if_pos hlt]
        exact steady_pure _
      · simp only [if_neg hlt]
        have hlevel := Nat.not_lt.1 hlt
        obtain ⟨z⟩ := nonempty_derivation .cond
        exact Steady.skip (begun_question left hclosed hlevel z z).of_append.of_append.of_append
          (steady_afterQuestion hlimit hsub hsound left hnext hdepth hlength hclosed hlevel)
    | operator op =>
      simp only [List.head?_cons, Option.map_some]
      by_cases hlt : op.level.rank < level.rank
      · simp only [if_pos hlt]
        exact steady_pure _
      · simp only [if_neg hlt]
        have hlevel := Nat.not_lt.1 hlt
        obtain ⟨z⟩ := nonempty_derivation (symbolOf op.rightLevel)
        exact Steady.skip (begun_operator left hclosed hlevel z).of_append
          (steady_afterOperator hlimit hsub hsound left hnext hdepth hlength hclosed hlevel)
    | _ => exact steady_pure _

/-! ## Whole expressions -/

/-- **The reader of subexpressions looks one lexeme ahead.**  More nesting and a higher limit change nothing for it. -/
theorem steady_expression (hlimit : s.limit ≤ s'.limit) :
    ∀ n n', n ≤ n' → n ≤ s.limit → SteadyReader s s' n (expression s n) (expression s' n')
  | 0, _, _, _ => fun level ls => by
    refine ⟨nofun, fun harrive e h => ?_⟩
    cases h
    exact .inl ⟨⟨[], ls, rfl, harrive, rfl⟩, .inl (Nat.zero_le _)⟩
  | n + 1, n' + 1, hn, hle => fun level ls => by
    have hpos : 0 < s.limit := Nat.lt_of_lt_of_le (Nat.succ_pos n) hle
    have hsub := steady_expression hlimit n n' (Nat.le_of_succ_le_succ hn) (Nat.le_of_succ_le hle)
    have hsound := expression_sound hpos n
    rw [expression_eq, expression_eq s']
    refine ((steady_operand hlimit hsub hsound hpos).loosen (rankOf_symbolOf_le_un level)).bind
      fun x pre rest h hls => ?_
    obtain ⟨a, ⟨d, hd⟩, hclosed, hrank⟩ := operand_sound hsound hpos (parsed_eq_ok.1 h)
    rw [tokensOf_eq_of_append hls hd.tokens]
    exact steady_infixes hlimit hsub hsound level d hclosed (Nat.le_trans (rankOf_symbolOf_le_un level) hrank)
      hd.depth_le

/-- An expression, and then nothing. -/
def whole (s : Setting) : Walk Expr := do
  let (tree, _) ← read (Parser.expression s s.limit) .conditional
  match ← peek with
  | none => return tree
  | some _ => unexpected s

theorem whole_eq {lexed : Lexed} {limit : Nat} (h : lexed.lexemes ≠ []) :
    Parser.whole lexed limit = Prod.fst <$> whole ⟨lexed.ending, limit⟩ lexed.lexemes := by
  unfold Parser.whole whole
  split
  · contradiction
  · rw [read_bind_apply]
    dsimp only
    cases Parser.expression ⟨lexed.ending, limit⟩ limit .conditional lexed.lexemes with
    | error e => rfl
    | ok p =>
      obtain ⟨⟨tree, depth, rest⟩, hlt⟩ := p
      cases rest <;> rfl

theorem steady_whole (hlimit : s.limit ≤ s'.limit) : Steady s s' s.limit .cond [] (whole s) (whole s') ls := by
  refine (steady_expression hlimit s.limit s'.limit hlimit (Nat.le_refl _) .conditional ls).bind
    fun x pre rest h hls => ?_
  have hread : Reads (Parser.expression s s.limit .conditional ls) ⟨x.1, x.2, rest⟩ := parsed_eq_ok.1 h
  have hpos : 0 < s.limit := by
    by_contra hzero
    rw [Nat.eq_zero_of_not_pos hzero] at hread
    exact reads_error.1 hread
  obtain ⟨d, hd⟩ : Phrase s s.limit .cond ls ⟨x.1, x.2, rest⟩ := (expression_sound hpos _ _ _ _ hread).1
  rw [tokensOf_eq_of_append hls hd.tokens, List.nil_append]
  apply Steady.peek
  match rest with
  | [] => exact steady_pure _
  | _ :: _ => exact steady_unexpected (begun_tokens d) d.undotted.getLast?_ne

theorem rest_of_whole {e : Expr} {rest : List Lexeme} (h : whole s ls = .ok (e, rest)) : rest = [] := by
  rw [whole, read_bind_apply] at h
  obtain ⟨p, -, h⟩ := bind_eq_ok.1 h
  cases hrest : p.1.rest with
  | nil => rw [hrest] at h; cases h; rfl
  | cons => rw [hrest] at h; cases h

end
end Walk

section
variable {lexed : Lexed} {limit limit' : Nat}

theorem whole_nil (h : lexed.lexemes = []) :
    whole lexed limit = .error (match lexed.ending with | .finished _ => .empty | .failed e => e) := by
  unfold whole
  split
  · cases lexed.ending <;> rfl
  · contradiction

theorem steady_lexed (lexed : Lexed) (ending' : Ending) (hlimit : limit ≤ limit') :
    Walk.Steady ⟨lexed.ending, limit⟩ ⟨ending', limit'⟩ limit .cond [] (Walk.whole ⟨lexed.ending, limit⟩)
      (Walk.whole ⟨ending', limit'⟩) lexed.lexemes := Walk.steady_whole hlimit

theorem arrive_of_ne_nil {s : Setting} {ls : List Lexeme} (h : ls ≠ []) : s.arrive ls = .ok () := by
  obtain ⟨l, rest, rfl⟩ := List.exists_cons_of_ne_nil h
  rfl

/-- A text with an error in it is not read as a whole. -/
theorem finished_of_whole {e : Expr} (h : whole lexed limit = .ok e) : ∃ stop, lexed.ending = .finished stop := by
  by_cases hnil : lexed.lexemes = []
  · rw [whole_nil hnil] at h
    cases h
  · rw [Walk.whole_eq hnil] at h
    cases hwhole : Walk.whole ⟨lexed.ending, limit⟩ lexed.lexemes with
    | error e => rw [hwhole] at h; cases h
    | ok x =>
      obtain ⟨harrive, -⟩ := (steady_lexed lexed lexed.ending (Nat.le_refl limit)).ok (arrive_of_ne_nil hnil) _ _ hwhole
      rw [Walk.rest_of_whole hwhole] at harrive
      exact ending_of_arrive harrive

/-- **A reading that is not too deep does not depend on the limit.** -/
theorem whole_of_le (hlimit : limit ≤ limit') (h : ∀ n position, whole lexed limit ≠ .error (.tooDeep n position)) :
    whole lexed limit' = whole lexed limit := by
  by_cases hnil : lexed.lexemes = []
  · rw [whole_nil hnil, whole_nil hnil]
  have hsteady := steady_lexed lexed lexed.ending hlimit
  have harrive : Setting.arrive ⟨lexed.ending, limit⟩ lexed.lexemes = .ok () := arrive_of_ne_nil hnil
  rw [Walk.whole_eq hnil] at h
  rw [Walk.whole_eq hnil, Walk.whole_eq hnil]
  cases hwhole : Walk.whole ⟨lexed.ending, limit⟩ lexed.lexemes with
  | ok x =>
    obtain ⟨-, pre, hls, hwhole'⟩ := hsteady.ok harrive _ _ hwhole
    rw [hls, hwhole' _ ⟨rfl, fun _ => rfl⟩]
  | error e =>
    rcases hsteady.error harrive _ hwhole with ⟨⟨_, _, -, -, rfl⟩, -⟩ | ⟨pre, rest, hls, -, -, hwhole'⟩
    · exact absurd (by rw [hwhole]; rfl) (h limit _)
    · rw [hls, hwhole' _ ⟨rfl, fun _ => rfl⟩]

/-- **What is wrong shows at the earliest place**, unless there are as many lexemes as may nest and they nest too deep.
The lexemes in front of what is wrong begin an expression, and whatever goes on in the same way has the same error. -/
theorem whole_error (ending' : Ending) {e : ParseError} (hnil : lexed.lexemes ≠ []) (hlimit : limit ≤ limit')
    (h : whole lexed limit = .error e) :
    (Setting.TooDeepIn ⟨lexed.ending, limit⟩ lexed.lexemes e ∧ limit ≤ lexed.lexemes.length) ∨
    ∃ pre rest, lexed.lexemes = pre ++ rest ∧ Begun .cond (tokensOf pre) ∧
      Setting.Blames ⟨lexed.ending, limit⟩ (tokensOf pre) rest e ∧
      ∀ rest', Alike ⟨lexed.ending, limit⟩ ⟨ending', limit'⟩ rest rest' → pre ++ rest' ≠ [] →
        whole ⟨pre ++ rest', ending'⟩ limit' = .error e := by
  have hsteady := steady_lexed lexed ending' hlimit
  have harrive : Setting.arrive ⟨lexed.ending, limit⟩ lexed.lexemes = .ok () := arrive_of_ne_nil hnil
  rw [Walk.whole_eq hnil] at h
  cases hwhole : Walk.whole ⟨lexed.ending, limit⟩ lexed.lexemes with
  | ok x => rw [hwhole] at h; cases h
  | error e' =>
    rw [hwhole] at h
    cases h
    refine (hsteady.error harrive _ hwhole).imp ?_ ?_
    · rintro ⟨hdeep, hsize⟩
      simp only [List.length_nil, Nat.zero_add, or_self] at hsize
      exact ⟨hdeep, hsize⟩
    · rintro ⟨pre, rest, hls, hbegun, hblames, hwhole'⟩
      refine ⟨pre, rest, hls, hbegun, hblames, fun rest' halike hne => ?_⟩
      rw [Walk.whole_eq hne, hwhole' rest' halike]
      rfl

end
end Parser
end FlatNtuple
