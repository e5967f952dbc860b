import FlatNtuple.Binary.Convert
/-!
# The length of a plane vector

`hypot x y` is the square root of `x² + y²` without the overflow or underflow of the squares, good to the last place.
The plain root `h` of the rounded sum is off by about half of `(h² - x² - y²) / h`; `rootOfSquares` works that residue
out from the difference of `h` to one of the sides, where nothing large cancels, and takes it off.
-/
namespace FlatNtuple
namespace Binary

attribute [local instance] corePow

/-- The root for sides `x ≥ y ≥ 0` whose squares neither overflow nor underflow. -/
def rootOfSquares (x y : Float) : Float :=
  let h := (x * x + y * y).sqrt
  let residue :=
    if h ≤ 2 * y then
      let d := h - y
      x * (2 * d - x) + (d - 2 * (x - y)) * d
    else
      let d := h - x
      2 * d * (x - 2 * y) + ((4 * d - y) * y + d * d)
  h - residue / (2 * h)

def powerOfTwo (n : Nat) : Float := ofInt (2 ^ n)

/-- Multiplying by it brings the sides of a tiny triangle, dividing by it those of a huge one, into a safe range. -/
def sideScale : Float := powerOfTwo 600

def largeSide : Float := powerOfTwo 511

def smallSide : Float := 1 / powerOfTwo 459

/-- A side shorter than this fraction of the other adds nothing to the length. -/
def negligible : Float := 1 / powerOfTwo 54

def hypot (x y : Float) : Float :=
  if x.isInf || y.isInf then infinity
  else if x.isNaN || y.isNaN then x + y
  else
    let a := if x.abs < y.abs then y.abs else x.abs
    let b := if x.abs < y.abs then x.abs else y.abs
    if b ≤ a * negligible then a + b
    else if largeSide < a then rootOfSquares (a / sideScale) (b / sideScale) * sideScale
    else if b < smallSide then rootOfSquares (a * sideScale) (b * sideScale) / sideScale
    else rootOfSquares a b

end Binary
end FlatNtuple
