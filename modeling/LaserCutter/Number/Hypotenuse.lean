import LaserCutter.Number.Rounding

/-!
# The length of a plane vector

`hypotenuse x y` is `√(x² + y²)` to within one unit in the last place. The square root of the sum of
squares is taken in plain arithmetic and then corrected once by its residue. Sides that are large or
small are scaled by a power of two before that, so nothing overflows or underflows on the way, and a
side too short to matter is just added. An infinite side wins over NaN.
-/

namespace LaserCutter.Number

/-- `2 ^ e`, for an exponent whose power is a normal number. -/
def twoPower (e : Int) : Float := Float.ofBits ((e + 1023).toNat.toUInt64 <<< 52)

/-- What the square root `h` of `long² + short²` is too large by, times `2 h`. -/
def rootResidue (h long short : Float) : Float :=
  if h ≤ 2 * short then
    let d := h - short
    long * (2 * d - long) + (d - 2 * (long - short)) * d
  else
    let d := h - long
    2 * d * (long - 2 * short) + ((4 * d - short) * short + d * d)

/-- The length for sides whose squares are within range, `long` not below `short`. -/
def correctedRoot (long short : Float) : Float :=
  let h := (long * long + short * short).sqrt
  h - rootResidue h long short / (2 * h)

/-- The length for finite sides that are not negative, `long` not below `short`. -/
def hypotenuseOf (long short : Float) : Float :=
  let negligible := twoPower (-54)
  let down := twoPower (-600)
  let up := twoPower 600
  if twoPower 511 < long then
    if short ≤ long * negligible then long + short
    else correctedRoot (long * down) (short * down) * up
  else if short < twoPower (-459) then
    if short / negligible ≤ long then long + short
    else correctedRoot (long * up) (short * up) * down
  else if short ≤ long * negligible then long + short
  else correctedRoot long short

def hypotenuse (x y : Float) : Float :=
  let a := x.abs
  let b := y.abs
  if a.isInf || b.isInf then 1 / 0
  else if a < b then hypotenuseOf b a
  else hypotenuseOf a b

end LaserCutter.Number
