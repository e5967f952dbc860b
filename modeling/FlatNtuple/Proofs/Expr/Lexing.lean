import FlatNtuple.Proofs.Expr.Bytes
import FlatNtuple.Proofs.Expr.Reading
import FlatNtuple.Proofs.Decimal.Layout
/-!
# Texts that spell tokens

`Lexes cs ts`: the characters are made up of the tokens, to their end and without an error, whatever the position they
stand at.  A token ends where the next character does not go on with it, so what a word or a numeral spells depends on
what follows.  `Spells cs ts` is the part of `Lexes` that composes: `cs` adds `ts` in front of everything that goes on
with no word and no numeral (`Boundary`).
-/
namespace FlatNtuple
namespace Lexer

def Lexes (cs : List Char) (ts : List Token) : Prop :=
  ∀ position start, Parser.tokensOf (Cursor.lex ⟨position, cs, start⟩).lexemes = ts ∧
    ∃ stop, (Cursor.lex ⟨position, cs, start⟩).ending = .finished stop

/-- What comes next goes on with no word and no numeral. -/
def Boundary (cs : List Char) : Prop :=
  ∀ c t, cs = c :: t → isNameChar c = false ∧ (c = '.' → Numeral.NoDigit t)

def Spells (cs : List Char) (ts : List Token) : Prop :=
  ∀ rest us, Boundary rest → Lexes rest us → Lexes (cs ++ rest) (ts ++ us)

/-! ## Boundaries -/

theorem boundary_nil : Boundary [] := nofun

theorem boundary_cons {c : Char} {cs : List Char} (hc : isNameChar c = false) (hdot : c ≠ '.') : Boundary (c :: cs) := by
  rintro _ _ ⟨⟩
  exact ⟨hc, fun h => absurd h hdot⟩

theorem boundary_dot {cs : List Char} (h : Numeral.NoDigit cs) : Boundary ('.' :: cs) := by
  rintro _ _ ⟨⟩
  exact ⟨by decide, fun _ => h⟩

theorem isNameChar_of_isDigit {c : Char} (h : c.isDigit = true) : isNameChar c = true := by
  simp [isNameChar, Char.isAlphanum, h]

theorem Boundary.apart {cs : List Char} (h : Boundary cs) : Numeral.Apart cs := by
  intro c t hc
  obtain ⟨hname, hdot⟩ := h c t hc
  refine ⟨?_, ?_, hdot⟩
  · by_contra hdigit
    rw [isNameChar_of_isDigit (Bool.not_eq_false _ ▸ hdigit)] at hname
    cases hname
  · by_contra hmark
    rcases Numeral.isMark_iff.1 (Bool.not_eq_false _ ▸ hmark) with rfl | rfl
    · exact absurd hname (by decide)
    · exact absurd hname (by decide)

/-! ## One token -/

theorem lex_eq (c : Cursor) : c.lex = match c.next with
    | (.lexeme l, c') => ⟨l :: c'.lex.lexemes, c'.lex.ending⟩
    | (.finish, c') => ⟨[], .finished c'.position⟩
    | (.error e, _) => ⟨[], .failed e⟩ := by
  rw [Cursor.lex]
  split <;> simp only [*]

/-- A step to a lexeme goes past blanks, and then past what scans as its token. -/
theorem next_eq_lexeme {c c' : Cursor} {l : Lexeme} (h : c.next = (.lexeme l, c')) :
    ∃ blanks ch cs lexeme, c.rest = blanks ++ ch :: cs ∧ (∀ b ∈ blanks, isBlank b = true) ∧ isBlank ch = false ∧
      scan ch cs = .token l.token lexeme c'.rest ∧ l.start = c.position + byteLength blanks ∧
      l.stop = l.start + byteLength lexeme ∧ c'.position = l.stop ∧ c'.tokenStart = l.start := by
  unfold Cursor.next at h
  extract_lets start at h
  split at h
  · cases h
  · rename_i ch cs hd
    split at h
    · rename_i t lexeme rest hscan
      simp only [Prod.mk.injEq, Cursor.Found.lexeme.injEq] at h
      obtain ⟨rfl, rfl⟩ := h
      have hhead := List.head?_dropWhile_not isBlank c.rest
      simp only [hd, List.head?_cons] at hhead
      exact ⟨c.rest.takeWhile isBlank, ch, cs, lexeme, by rw [← hd, List.takeWhile_append_dropWhile],
        fun b hb => List.mem_takeWhile_imp hb, by simpa using hhead, hscan, rfl, rfl, rfl, rfl⟩
    all_goals cases h

/-- A step to the end goes past blanks only. -/
theorem next_eq_finish {c c' : Cursor} (h : c.next = (.finish, c')) :
    (∀ b ∈ c.rest, isBlank b = true) ∧ c'.position = c.position + byteLength c.rest := by
  unfold Cursor.next at h
  extract_lets start at h
  split at h
  · rename_i hd
    simp only [Prod.mk.injEq, true_and] at h
    obtain rfl := h
    have hall : c.rest.takeWhile isBlank = c.rest := by
      rw [← List.append_nil (List.takeWhile _ _), ← hd, List.takeWhile_append_dropWhile]
    exact ⟨fun b hb => List.mem_takeWhile_imp (hall.symm ▸ hb), by rw [← hall]⟩
  · split at h <;> cases h

/-- A step of a cursor goes over as many bytes as it takes off the text. -/
theorem position_next {c c' : Cursor} {l : Lexeme} (h : c.next = (.lexeme l, c')) :
    c'.position + byteLength c'.rest = c.position + byteLength c.rest := by
  obtain ⟨blanks, ch, cs, lexeme, hrest, -, -, hscan, hstart, hstop, hposition, -⟩ := next_eq_lexeme h
  rw [hrest, ← scan_append hscan, byteLength_append, byteLength_append, hposition, hstop, hstart]
  omega

theorem stop_of_finished (c : Cursor) {stop : Nat} (h : c.lex.ending = .finished stop) :
    stop = c.position + byteLength c.rest := by
  fun_induction Cursor.lex c with
  | case1 c l c' hnext hlt r ih => rw [ih h, position_next hnext]
  | case2 c c' hnext =>
    cases h
    exact (next_eq_finish hnext).2
  | case3 => cases h

/-- A text without an error in it ends where it ends. -/
theorem lex_stop {text : String} {stop : Nat} (h : (lex text).ending = .finished stop) : stop = text.utf8ByteSize := by
  have hstop : stop = 0 + byteLength text.toList := stop_of_finished _ h
  rw [hstop, Nat.zero_add, utf8ByteSize_eq]

theorem lexes_nil : Lexes [] [] := fun position start => by
  rw [lex_eq]
  exact ⟨rfl, _, rfl⟩

theorem lexes_blanks {bs cs : List Char} {ts : List Token} (hbs : ∀ b ∈ bs, isBlank b = true) (h : Lexes cs ts) :
    Lexes (bs ++ cs) ts := by
  intro position start
  have hnext : Cursor.next ⟨position, bs ++ cs, start⟩ = Cursor.next ⟨position + byteLength bs, cs, start⟩ := by
    simp only [Cursor.next, List.takeWhile_append_of_pos hbs, List.dropWhile_append_of_pos hbs, byteLength_append,
      Nat.add_assoc]
  have := h (position + byteLength bs) start
  rwa [lex_eq, ← hnext, ← lex_eq] at this

theorem lexes_blank {cs : List Char} {ts : List Token} (h : Lexes cs ts) : Lexes (' ' :: cs) ts :=
  lexes_blanks (List.forall_mem_singleton.2 rfl) h

theorem lexes_token {c : Char} {cs lexeme rest : List Char} {t : Token} {ts : List Token} (hblank : isBlank c = false)
    (hscan : scan c cs = .token t lexeme rest) (h : Lexes rest ts) : Lexes (c :: cs) (t :: ts) := by
  intro position start
  rw [lex_eq]
  simp only [Cursor.next, List.takeWhile_cons, List.dropWhile_cons, hblank, Bool.false_eq_true, if_false, hscan]
  obtain ⟨htokens, hend⟩ := h (position + byteLength [] + byteLength lexeme) (position + byteLength [])
  exact ⟨congrArg (t :: ·) htokens, hend⟩

/-- What is spelled in front of a mark that goes on with no word and no numeral. -/
theorem Spells.before {cs rest : List Char} {ts us : List Token} (h : Spells cs ts) {c : Char}
    (hc : isNameChar c = false) (hdot : c ≠ '.') (hrest : Lexes (c :: rest) us) :
    Lexes (cs ++ c :: rest) (ts ++ us) :=
  h _ _ (boundary_cons hc hdot) hrest

/-! ## Words -/

def isWord : List Char → Bool
  | [] => false
  | c :: cs => isNameStart c && cs.all isNameChar

/-- A name of an accessor or a function: a word that is no keyword. -/
structure IsName (name : String) : Prop where
  word : isWord name.toList = true
  not_keyword : Token.ofWord name = .identifier name

instance (name : String) : Decidable (IsName name) :=
  decidable_of_iff (isWord name.toList = true ∧ Token.ofWord name = .identifier name)
    ⟨fun h => ⟨h.1, h.2⟩, fun h => ⟨h.word, h.not_keyword⟩⟩

theorem exists_of_isWord {cs : List Char} (h : isWord cs = true) :
    ∃ c t, cs = c :: t ∧ isNameStart c = true ∧ ∀ x ∈ t, isNameChar x = true := by
  cases cs with
  | nil => cases h
  | cons c t =>
    simp only [isWord, Bool.and_eq_true, List.all_eq_true] at h
    exact ⟨c, t, rfl, h.1, h.2⟩

theorem isNameChar_of_isNameStart {c : Char} (h : isNameStart c = true) : isNameChar c = true := by
  simp only [isNameStart, isNameChar, Char.isAlphanum, Bool.or_eq_true] at h ⊢
  exact h.imp_left Or.inl

theorem isBlank_of_isNameChar {c : Char} (h : isNameChar c = true) : isBlank c = false := by
  by_contra hblank
  simp only [isBlank, Bool.or_eq_false_iff, decide_eq_false_iff_not, not_and_or, not_not] at hblank
  rcases hblank with ((rfl | rfl) | rfl) | rfl <;> exact absurd h (by decide)

theorem isDigit_of_isNameStart {c : Char} (h : isNameStart c = true) : c.isDigit = false := by
  by_contra hdigit
  simp only [isNameStart, Bool.or_eq_true, decide_eq_true_eq] at h
  rcases h with h | rfl
  · simp only [Char.isAlpha, Char.isUpper, Char.isLower, Char.isDigit, Bool.or_eq_true, Bool.and_eq_true,
      decide_eq_true_eq, Bool.not_eq_false] at h hdigit
    obtain ⟨hlow, hhigh⟩ := hdigit
    rcases h with ⟨h, -⟩ | ⟨h, -⟩
    · exact absurd (Nat.le_trans h hhigh) (by decide)
    · exact absurd (Nat.le_trans h hhigh) (by decide)
  · exact absurd hdigit (by decide)

theorem scan_name {c : Char} (h : isNameStart c = true) (cs : List Char) :
    scan c cs = .token (.ofWord (String.ofList (c :: cs.takeWhile isNameChar))) (c :: cs.takeWhile isNameChar)
      (cs.dropWhile isNameChar) := by
  have hdot : c ≠ '.' := by rintro rfl; exact absurd h (by decide)
  simp [scan, isDigit_of_isNameStart h, hdot, h]

theorem scan_word {c : Char} {cs rest : List Char} (hc : isNameStart c = true) (hcs : ∀ x ∈ cs, isNameChar x = true)
    (hrest : Boundary rest) :
    scan c (cs ++ rest) = .token (Token.ofWord (String.ofList (c :: cs))) (c :: cs) rest := by
  obtain ⟨htake, hdrop⟩ := Numeral.span_append cs fun r t hr => (hrest r t hr).1
  rw [scan_name hc, htake, hdrop, List.takeWhile_eq_self_iff.2 hcs, List.dropWhile_eq_nil_iff.2 hcs, List.nil_append]

/-- A word spells a name, a truth value or an operator. -/
theorem spells_word {cs : List Char} (h : isWord cs = true) : Spells cs [Token.ofWord (String.ofList cs)] := by
  obtain ⟨c, t, rfl, hc, ht⟩ := exists_of_isWord h
  exact fun _ _ hrest h => lexes_token (isBlank_of_isNameChar (isNameChar_of_isNameStart hc)) (scan_word hc ht hrest) h

theorem IsName.spells {name : String} (h : IsName name) : Spells name.toList [.identifier name] := by
  have hspells := spells_word h.word
  rwa [String.ofList_toList, h.not_keyword] at hspells

theorem IsName.noDigit {name : String} (h : IsName name) (rest : List Char) :
    Numeral.NoDigit (name.toList ++ rest) := by
  obtain ⟨c, cs, hname, hc, -⟩ := exists_of_isWord h.word
  rw [hname]
  rintro _ _ ⟨⟩
  exact isDigit_of_isNameStart hc

theorem IsName.head {name : String} (h : IsName name) : ∃ c cs, name.toList = c :: cs ∧ c ≠ '=' := by
  obtain ⟨c, cs, hname, hc, -⟩ := exists_of_isWord h.word
  exact ⟨c, cs, hname, by rintro rfl; exact absurd hc (by decide)⟩

/-! ## Numerals and strings -/

/-- What starts with a digit does not start with `=`. -/
theorem exists_head_of_isDigit {ds : List Char} (hne : ds ≠ []) (hds : ∀ c ∈ ds, c.isDigit = true) (rest : List Char) :
    ∃ c cs, ds ++ rest = c :: cs ∧ c ≠ '=' := by
  obtain ⟨c, t, rfl⟩ := List.exists_cons_of_ne_nil hne
  have hc : c.isDigit = true := hds c List.mem_cons_self
  exact ⟨c, t ++ rest, rfl, by rintro rfl; exact absurd hc (by decide)⟩

/-- A numeral that starts with a digit spells its token, if it is in range. -/
theorem spells_numeral {n : Numeral} (hn : n.Proper) (hne : n.whole ≠ []) {t : Token}
    (ht : ∀ rest, Numeral.Apart rest → scanNumber (n.chars ++ rest) = .token t n.chars rest) : Spells n.chars [t] := by
  intro rest us hrest h
  obtain ⟨c, cs, hwhole⟩ := List.exists_cons_of_ne_nil hne
  have hc : c.isDigit = true := hn.whole c (by simp [hwhole])
  have hchars : n.chars ++ rest = c :: (cs ++ n.fraction ++ n.exponent ++ rest) := by simp [Numeral.chars, hwhole]
  have hscan := ht rest hrest.apart
  rw [hchars] at hscan ⊢
  exact lexes_token (isBlank_of_isNameChar (isNameChar_of_isDigit hc)) (by rw [scan, if_pos (by simp [hc]), hscan]) h

theorem spells_integer {n : Nat} (hn : n ≤ Token.greatestInteger) : Spells (Decimal.digitsOf n) [.integer n] := by
  let numeral : Numeral := ⟨Decimal.digitsOf n, [], []⟩
  have hproper : numeral.Proper := ⟨Decimal.digitsOf_isDigit, .inl rfl, .inl rfl⟩
  have hchars : numeral.chars = Decimal.digitsOf n := by simp [numeral, Numeral.chars]
  rw [← hchars]
  refine spells_numeral hproper (Decimal.digitsOf_ne_nil n) fun rest hrest => ?_
  have hvalue : Numeral.ofDigits numeral.whole = n := Decimal.ofDigits_digitsOf n
  have hwhole : numeral.isWhole = true := rfl
  simp only [scanNumber, Numeral.split_proper hproper hrest, hwhole, if_true, hvalue, hn]

theorem spells_decimal {n : Numeral} (hn : n.Proper) (hne : n.whole ≠ []) (hwhole : n.isWhole = false) :
    Spells n.chars [.decimal n] :=
  spells_numeral hn hne fun rest hrest => by simp [scanNumber, Numeral.split_proper hn hrest, hwhole]

theorem closeString_quote {quote : Char} (h : quote ≠ '\\') (cs : List Char) :
    closeString quote (quote :: cs) = some ([], cs) := by
  unfold closeString
  split <;> simp_all

theorem closeString_char {quote c : Char} (hslash : c ≠ '\\') (hne : c ≠ quote) (cs : List Char) :
    closeString quote (c :: cs) = (closeString quote cs).map fun (raw, rest) => (c :: raw, rest) := by
  rw [closeString]
  · exact if_neg hne
  · exact fun h _ => hslash h
  · exact fun _ _ h _ => hslash h

theorem scan_string {c : Char} (h : c = '\'' ∨ c = '"') {cs raw rest : List Char}
    (hclose : closeString c cs = some (raw, rest)) :
    scan c cs = .token (.string (String.ofList raw)) (c :: (raw ++ [c])) rest := by
  have hdigit : (c.isDigit || (c = '.' && startsWithDigit cs)) = false := by rcases h with rfl | rfl <;> rfl
  have hname : isNameStart c = false := by rcases h with rfl | rfl <;> rfl
  have hquote : (c = '\'' || c = '"') = true := by simpa using h
  simp only [scan, hdigit, hname, hquote, Bool.false_eq_true, if_false, if_true, hclose, List.cons_append]

/-- A string that is written between double quotes as it is. -/
def Plain (s : List Char) : Prop := '"' ∉ s ∧ '\\' ∉ s

theorem plain_cons {c : Char} {s : List Char} : Plain (c :: s) ↔ c ≠ '"' ∧ c ≠ '\\' ∧ Plain s := by
  simp only [Plain, List.mem_cons, not_or, eq_comm (b := c), ne_eq]
  tauto

theorem closeString_plain {s : List Char} (h : Plain s) (rest : List Char) :
    closeString '"' (s ++ '"' :: rest) = some (s, rest) := by
  induction s with
  | nil => exact closeString_quote (by decide) rest
  | cons c s ih =>
    obtain ⟨hquote, hslash, htail⟩ := plain_cons.1 h
    rw [List.cons_append, closeString_char hslash hquote, ih htail]
    rfl

theorem unescape_plain {s : List Char} (h : Plain s) : Parser.unescape s = s := by
  induction s with
  | nil => rfl
  | cons c s ih =>
    obtain ⟨-, hslash, htail⟩ := plain_cons.1 h
    simp [Parser.unescape, hslash, ih htail]

theorem spells_string {s : String} (h : Plain s.toList) : Spells ('"' :: (s.toList ++ ['"'])) [.string s] := by
  intro rest us _ hrest
  have hscan := scan_string (.inr rfl) (closeString_plain h rest)
  rw [String.ofList_toList] at hscan
  rw [List.cons_append, List.append_assoc]
  exact lexes_token rfl hscan hrest

/-! ## Symbols -/

theorem lexes_rightParen {cs : List Char} {ts : List Token} (h : Lexes cs ts) : Lexes (')' :: cs) (.rightParen :: ts) :=
  lexes_token rfl rfl h

theorem lexes_dot {cs : List Char} {ts : List Token} (hcs : Numeral.NoDigit cs) (h : Lexes cs ts) :
    Lexes ('.' :: cs) (.dot :: ts) := by
  have hdigit : startsWithDigit cs = false := by
    cases cs with
    | nil => rfl
    | cons c t => exact hcs c t rfl
  have hscan : scan '.' cs = .token .dot ['.'] cs := by simp [scan, hdigit, isNameStart, Token.ofSymbol]
  exact lexes_token rfl hscan h

/-- The blank keeps the symbol apart from what follows. -/
theorem lexes_operator (op : BinaryOp) {cs : List Char} {ts : List Token} (h : Lexes cs ts) :
    Lexes (op.symbol.toList ++ ' ' :: cs) (.operator op :: ts) := by
  cases op with
  | add | subtract | multiply | divide | power | equal | notEqual | less | lessEqual | greater | greaterEqual | and | or =>
    exact lexes_token rfl rfl (lexes_blank h)

/-- A `!` would take a `=` along. -/
theorem lexes_sign (op : UnaryOp) {c : Char} {cs : List Char} {ts : List Token} (hc : c ≠ '=') (h : Lexes (c :: cs) ts) :
    Lexes (op.symbol.toList ++ c :: cs) (Grammar.signToken op :: ts) := by
  cases op with
  | negate => exact lexes_token rfl rfl h
  | not =>
    have hscan : scan '!' (c :: cs) = .token .not ['!'] (c :: cs) := by simp [scan, isNameStart, Token.ofSymbol, hc]
    exact lexes_token rfl hscan h

end Lexer
end FlatNtuple
