import FlatNtuple.Json.Basic
import FlatNtuple.Decimal.Numeral
/-!
# Numbers in documents

A number without a fraction or an exponent is an integer if it fits 64 bits.  Any other number is read quickly rather
than exactly: of its digits only as many count as make an integer of 64 bits, and that integer, as a floating-point
number, is multiplied or divided by the power of ten that is left.  Each step rounds, so the result may be a neighbour
of the nearest number, and a number next to the largest one may be out of range.
-/
namespace FlatNtuple
namespace Json

/-- Appends digits to an integer for as long as it fits 64 bits, and hands on the digits that it has no place for. -/
def appendDigits (n : Nat) : List Char → Nat × List Char
  | [] => (n, [])
  | c :: cs =>
    let next := 10 * n + Numeral.digitValue c
    if next < UInt64.size then appendDigits next cs else (n, c :: cs)

/-- The integer of the digits that count, and the power of ten that it is to be multiplied with.  Digits before the
point that do not count still raise the power; those after the point count for nothing. -/
def significand (n : Numeral) : Nat × Int :=
  let (whole, dropped) := appendDigits 0 n.whole
  let decimals := n.fraction.drop 1
  let (all, ignored) := appendDigits whole decimals
  (all, dropped.length - (decimals.length - ignored.length : Nat) + Numeral.exponentValue n.exponent)

def powerOfTen (k : Nat) : Float := Decimal.toFloat ⟨1, k⟩

/-- The largest power of ten of the format. -/
def greatestPower : Nat := 308

/-- A number divided by `10 ^ k`, by no more than the largest power of ten at a time. -/
def divideByPower (x : Float) (k : Nat) : Float :=
  if k ≤ greatestPower then x / powerOfTen k
  else if x == 0 then x
  else divideByPower (x / powerOfTen greatestPower) (k - greatestPower)
termination_by k
decreasing_by simp only [greatestPower] at *; omega

/-- A number multiplied by `10 ^ e`; infinite if that is too large. -/
def scale (x : Float) (e : Int) : Float :=
  if e < 0 then divideByPower x (-e).toNat
  else if x == 0 then x
  else x * powerOfTen e.toNat

/-- The value of a numeral.  Minus zero is no integer. -/
def ofNumeral (negative : Bool) (n : Numeral) : Json :=
  let i : Int := if negative then -(Numeral.ofDigits n.whole : Int) else Numeral.ofDigits n.whole
  if n.isWhole && decide (leastInteger ≤ i ∧ i ≤ greatestInteger) && !(negative && i == 0) then .integer i
  else
    let (m, e) := significand n
    let x := scale (Binary.ofInt m) e
    if x.isFinite then .real (if negative then -x else x) else .unreadable

def hasLeadingZero : List Char → Bool
  | '0' :: _ :: _ => true
  | _ => false

/-- A number at the very front. -/
def readNumber (cs : List Char) : Option (Json × List Char) :=
  let (negative, body) : Bool × List Char := match cs with
    | '-' :: r => (true, r)
    | _ => (false, cs)
  let (n, rest) := Numeral.split body
  if n.whole.isEmpty || hasLeadingZero n.whole then none else some (ofNumeral negative n, rest)

theorem length_readNumber {cs r : List Char} {j : Json} (h : readNumber cs = some (j, r)) : r.length < cs.length := by
  have key : ∀ body : List Char, (Numeral.split body).1.whole ≠ [] → (Numeral.split body).2.length < body.length := by
    intro body hw
    have := congrArg List.length (Numeral.split_append body)
    simp only [Numeral.chars, List.length_append] at this
    have := List.length_pos_iff.2 hw
    omega
  unfold readNumber at h
  split at h
  rename_i negative body hb
  simp only at h
  split at h
  · simp at h
  · rename_i hw
    simp only [Bool.or_eq_true, List.isEmpty_iff, not_or, Option.some.injEq, Prod.mk.injEq] at hw h
    obtain ⟨-, rfl⟩ := h
    have := key body hw.1
    split at hb <;> (simp only [Prod.mk.injEq] at hb; obtain ⟨-, rfl⟩ := hb)
    · rw [List.length_cons]; omega
    · exact this

end Json
end FlatNtuple
