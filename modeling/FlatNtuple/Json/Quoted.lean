/-!
# Quoted strings

A string of a document stands between quotes, with a backslash before a quote or a backslash, a letter for the usual
control characters and four hexadecimal digits for the others.  Those digits may give any 16-bit unit; two units that
are a surrogate pair are one character, and half a pair is none.
-/
namespace FlatNtuple
namespace Json

/-! ## Writing -/

def hexDigits (n : Nat) : List Char :=
  let ds := Nat.toDigits 16 n
  List.replicate (4 - ds.length) '0' ++ ds

def escape (c : Char) : List Char :=
  if c = '"' then ['\\', '"']
  else if c = '\\' then ['\\', '\\']
  else if c = '\x08' then ['\\', 'b']
  else if c = '\x0c' then ['\\', 'f']
  else if c = '\n' then ['\\', 'n']
  else if c = '\r' then ['\\', 'r']
  else if c = '\t' then ['\\', 't']
  else if c.toNat < 0x20 then '\\' :: 'u' :: hexDigits c.toNat
  else [c]

def quote (s : String) : String := String.ofList ('"' :: s.toList.flatMap escape ++ ['"'])

/-! ## Reading -/

def hexValue (c : Char) : Option Nat :=
  if c.isDigit then some (c.toNat - '0'.toNat)
  else if 'a' ≤ c ∧ c ≤ 'f' then some (c.toNat - 'a'.toNat + 10)
  else if 'A' ≤ c ∧ c ≤ 'F' then some (c.toNat - 'A'.toNat + 10)
  else none

def hexUnit (a b c d : Char) : Option Nat := do
  let a ← hexValue a
  let b ← hexValue b
  let c ← hexValue c
  let d ← hexValue d
  return ((a * 16 + b) * 16 + c) * 16 + d

/-- The character that a letter after a backslash stands for. -/
def escaped : Char → Option Char
  | '"' => some '"'
  | '\\' => some '\\'
  | '/' => some '/'
  | 'b' => some '\x08'
  | 'f' => some '\x0c'
  | 'n' => some '\n'
  | 'r' => some '\r'
  | 't' => some '\t'
  | _ => none

/-- A part of a string: a character, or a 16-bit unit by its digits. -/
inductive Piece
  | char (c : Char)
  | unit (n : Nat)
  deriving DecidableEq, Repr

/-- The pieces of a string whose opening quote has been read, and what follows its closing quote. -/
def pieces : List Char → Option (List Piece × List Char)
  | [] => none
  | '"' :: cs => some ([], cs)
  | '\\' :: 'u' :: a :: b :: c :: d :: cs => do
    let n ← hexUnit a b c d
    (pieces cs).map fun (ps, rest) => (.unit n :: ps, rest)
  | '\\' :: c :: cs => do
    let c ← escaped c
    (pieces cs).map fun (ps, rest) => (.char c :: ps, rest)
  | c :: cs => if c.toNat < 0x20 then none else (pieces cs).map fun (ps, rest) => (.char c :: ps, rest)

theorem length_pieces {cs rest : List Char} {ps : List Piece} (h : pieces cs = some (ps, rest)) :
    rest.length < cs.length := by
  fun_induction pieces cs generalizing ps with
  | case1 => simp at h
  | case2 cs => simp_all
  | case3 a b c d cs ih =>
    obtain ⟨n, _, h⟩ := Option.bind_eq_some_iff.1 h
    obtain ⟨⟨ps', r⟩, h', he⟩ := Option.map_eq_some_iff.1 h
    obtain ⟨-, rfl⟩ := Prod.mk.inj he
    have := ih h'
    simp only [List.length_cons]
    omega
  | case4 c cs _ ih =>
    obtain ⟨c, _, h⟩ := Option.bind_eq_some_iff.1 h
    obtain ⟨⟨ps', r⟩, h', he⟩ := Option.map_eq_some_iff.1 h
    obtain ⟨-, rfl⟩ := Prod.mk.inj he
    have := ih h'
    simp only [List.length_cons]
    omega
  | case5 => simp at h
  | case6 c cs _ _ _ _ ih =>
    obtain ⟨⟨ps', r⟩, h', he⟩ := Option.map_eq_some_iff.1 h
    obtain ⟨-, rfl⟩ := Prod.mk.inj he
    have := ih h'
    simp only [List.length_cons]
    omega

def isHighSurrogate (n : Nat) : Bool := 0xD800 ≤ n && n < 0xDC00

def isLowSurrogate (n : Nat) : Bool := 0xDC00 ≤ n && n < 0xE000

/-- The character of a surrogate pair. -/
def ofSurrogates (high low : Nat) : Char := Char.ofNat (0x10000 + (high - 0xD800) * 0x400 + (low - 0xDC00))

/-- The characters that pieces spell, unless there is half a surrogate pair among them. -/
def spell : List Piece → Option (List Char)
  | [] => some []
  | .unit high :: .unit low :: ps =>
    if isHighSurrogate high && isLowSurrogate low then (spell ps).map (ofSurrogates high low :: ·)
    else if isHighSurrogate high || isLowSurrogate high then none
    else (spell (.unit low :: ps)).map (Char.ofNat high :: ·)
  | .unit n :: ps =>
    if isHighSurrogate n || isLowSurrogate n then none else (spell ps).map (Char.ofNat n :: ·)
  | .char c :: ps => (spell ps).map (c :: ·)

end Json
end FlatNtuple
