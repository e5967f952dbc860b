import FlatNtuple.Binary.Convert
import FlatNtuple.Decimal.Shortest
/-!
# Reading decimal numerals

A numeral is digits, an optional fraction and an optional exponent.  `Numeral.split` takes the three parts off the
front of a text and nothing more: an exponent mark without a digit behind it stays.  `Numeral.toFloat` is the number
nearest to the decimal that the parts spell.
-/
namespace FlatNtuple

/-- The parts of a numeral, as characters: the digits before the point, the point with the digits after it, and the
exponent with its mark and sign. -/
structure Numeral where
  whole : List Char
  fraction : List Char
  exponent : List Char
  deriving DecidableEq, Repr

namespace Numeral

def digitValue (c : Char) : Nat := c.toNat - '0'.toNat

/-- The number that decimal digits spell. -/
def ofDigits (cs : List Char) : Nat := cs.foldl (fun n c => 10 * n + digitValue c) 0

/-- A point and the digits after it, if there is one. -/
def takeFraction : List Char → List Char × List Char
  | '.' :: d :: cs =>
    if d.isDigit then ('.' :: d :: cs.takeWhile Char.isDigit, cs.dropWhile Char.isDigit) else ([], '.' :: d :: cs)
  | cs => ([], cs)

def isMark (c : Char) : Bool := c = 'e' || c = 'E'

def isSign (c : Char) : Bool := c = '+' || c = '-'

/-- An exponent mark, a sign or none, and digits, if there is one. -/
def takeExponent : List Char → List Char × List Char
  | e :: s :: d :: cs =>
    if isMark e && isSign s && d.isDigit then
      (e :: s :: d :: cs.takeWhile Char.isDigit, cs.dropWhile Char.isDigit)
    else if isMark e && s.isDigit then
      (e :: s :: (d :: cs).takeWhile Char.isDigit, (d :: cs).dropWhile Char.isDigit)
    else ([], e :: s :: d :: cs)
  | [e, d] => if isMark e && d.isDigit then ([e, d], []) else ([], [e, d])
  | cs => ([], cs)

/-- The longest numeral at the front, and what follows it. -/
def split (cs : List Char) : Numeral × List Char :=
  let rest := cs.dropWhile Char.isDigit
  let (fraction, rest) := takeFraction rest
  let (exponent, rest) := takeExponent rest
  (⟨cs.takeWhile Char.isDigit, fraction, exponent⟩, rest)

def chars (n : Numeral) : List Char := n.whole ++ n.fraction ++ n.exponent

def text (n : Numeral) : String := String.ofList n.chars

/-- Neither a fraction nor an exponent. -/
def isWhole (n : Numeral) : Bool := n.fraction.isEmpty && n.exponent.isEmpty

/-- The exponent that the mark, sign and digits spell. -/
def exponentValue : List Char → Int
  | _ :: s :: cs => if s = '-' then -(ofDigits cs : Int) else if s = '+' then ofDigits cs else ofDigits (s :: cs)
  | _ => 0

def toDecimal (n : Numeral) : Decimal :=
  ⟨ofDigits (n.whole ++ n.fraction.drop 1), exponentValue n.exponent - (n.fraction.length - 1 : Nat)⟩

end Numeral

attribute [local instance] corePow

/-- The 64-bit number nearest to a decimal.  Beyond the range of the format only the order of magnitude counts. -/
def Decimal.toFloat (d : Decimal) : Float :=
  if d.digits = 0 then 0
  else if d.leading > 310 then Binary.infinity
  else if d.leading < -330 then 0
  else
    let bits := if 0 ≤ d.exponent then Binary.binary64.nearest (d.digits * 10 ^ d.exponent.toNat) 1
      else Binary.binary64.nearest d.digits (10 ^ (-d.exponent).toNat)
    Float.ofBits (UInt64.ofNat bits)

namespace Numeral

def toFloat (n : Numeral) : Float := n.toDecimal.toFloat

/-- A number on its own: a sign or none, then the name of a special value or a numeral, in which the digits before or
after the point may be left out. -/
def readFloat (text : String) : Option Float :=
  match text.toList with
  | '-' :: cs => (unsigned cs).map fun x => -x
  | '+' :: cs => unsigned cs
  | cs => unsigned cs
where
  unsigned (cs : List Char) : Option Float :=
    let name := String.ofList (cs.map Char.toLower)
    if name = "inf" || name = "infinity" then some Binary.infinity
    else if name = "nan" then some Binary.nan
    else match split cs with
      | (n, []) => if n.whole.isEmpty && n.fraction.isEmpty then none else some n.toFloat
      | (⟨w, [], []⟩, '.' :: rest) =>
        let (e, rest) := takeExponent rest
        if w.isEmpty || !rest.isEmpty then none else some (Numeral.toFloat ⟨w, [], e⟩)
      | _ => none

/-- The characters of the parts and the rest are those of the text. -/
theorem takeFraction_append (cs : List Char) : (takeFraction cs).1 ++ (takeFraction cs).2 = cs := by
  unfold takeFraction
  split
  · split <;> simp
  · rfl

theorem takeExponent_append (cs : List Char) : (takeExponent cs).1 ++ (takeExponent cs).2 = cs := by
  unfold takeExponent
  split
  · split
    · simp
    · split
      · simp only [List.cons_append, List.takeWhile_append_dropWhile]
      · rfl
  · split <;> rfl
  · rfl

theorem split_append (cs : List Char) : (split cs).1.chars ++ (split cs).2 = cs := by
  simp only [split, chars, List.append_assoc, takeExponent_append, takeFraction_append,
    List.takeWhile_append_dropWhile]

end Numeral
end FlatNtuple
