import LaserCutter.Plane.Point

/-!
# Cubic Bezier curves by arc length

The length of a stretch is a five-point Gauss-Legendre sum of the curve's speed. A measured curve
holds the lengths up to 32 equally spaced parameters; a length is turned back into a parameter by
Newton steps inside its interval of that table, halving the interval whenever a step leaves it.
-/

namespace LaserCutter

structure Cubic (α : Type := Float) where
  p0 : Point α
  c0 : Point α
  c1 : Point α
  p1 : Point α
  deriving DecidableEq, Repr

namespace Cubic

variable {α : Type}

/-- One coordinate of the curve at parameter `t`. -/
def coordinate [OfNat α 1] [OfNat α 3] [Add α] [Sub α] [Mul α] (p0 c0 c1 p1 t : α) : α :=
  let mt := 1 - t
  let mt2 := mt * mt
  let mt3 := mt2 * mt
  let t2 := t * t
  let t3 := t2 * t
  mt3 * p0 + 3 * mt2 * t * c0 + 3 * mt * t2 * c1 + t3 * p1

def point [OfNat α 1] [OfNat α 3] [Add α] [Sub α] [Mul α] (b : Cubic α) (t : α) : Point α :=
  ⟨coordinate b.p0.x b.c0.x b.c1.x b.p1.x t, coordinate b.p0.y b.c0.y b.c1.y b.p1.y t⟩

/-- One coordinate of the derivative at parameter `t`. -/
def slope (p0 c0 c1 p1 t : Float) : Float :=
  let mt := 1 - t
  3 * mt * mt * (c0 - p0) + 6 * mt * t * (c1 - c0) + 3 * t * t * (p1 - c1)

/-- The length of the derivative at parameter `t`. -/
def speed (b : Cubic) (t : Float) : Float :=
  Number.hypotenuse (slope b.p0.x b.c0.x b.c1.x b.p1.x t) (slope b.p0.y b.c0.y b.c1.y b.p1.y t)

/-- Abscissae and weights on the interval from -1 to 1. -/
def gaussNodes : List (Float × Float) :=
  [(0.0, 0.5688888888888889),
   (-0.5384693101056831, 0.4786286704993665),
   (0.5384693101056831, 0.4786286704993665),
   (-0.906179845938664, 0.2369268850561891),
   (0.906179845938664, 0.2369268850561891)]

/-- Arc length between two parameters; negative when they are out of order. -/
def arcLength (b : Cubic) (t0 t1 : Float) : Float :=
  let half := (t1 - t0) / 2
  let mid := (t1 + t0) / 2
  gaussNodes.foldl (fun sum (x, w) => sum + w * b.speed (mid + half * x)) 0 * half

end Cubic

/-- How many intervals the table of a measured curve has. -/
def tableSteps : Nat := 32

/-- The parameter at the start of table interval `i`. -/
def tableParameter (i : Nat) : Float := i.toUInt64.toFloat / tableSteps.toUInt64.toFloat

structure MeasuredCubic where
  curve : Cubic
  /-- Arc lengths from the start of the curve to each table parameter. -/
  lengths : List Float
  deriving Repr

namespace MeasuredCubic

/-- The lengths up to the table parameters after the first `i`, the longest first. -/
def lengthsUpTo (curve : Cubic) : Nat → List Float
  | 0 => [0]
  | i + 1 =>
    let shorter := lengthsUpTo curve i
    (shorter.headD 0 + curve.arcLength (tableParameter i) (tableParameter (i + 1))) :: shorter

def ofCubic (curve : Cubic) : MeasuredCubic := ⟨curve, (lengthsUpTo curve tableSteps).reverse⟩

def length (m : MeasuredCubic) : Float := m.lengths.getD tableSteps 0

/-- Narrows the interval from `lo` to `hi` around the parameter at length `s`; `base` is the
length up to parameter `from0`. Stops when the length at `t` is within `1e-9`. -/
def refine (curve : Cubic) (s base from0 : Float) : Nat → Float → Float → Float → Float
  | 0, _, _, t => t
  | rounds + 1, lo, hi, t =>
    let err := base + curve.arcLength from0 t - s
    if err.abs < 1e-9 then t
    else
      let lo' := if 0 < err then lo else t
      let hi' := if 0 < err then t else hi
      let d := curve.speed t
      let next := t - err / d
      if 1e-12 < d && lo' < next && next < hi' then refine curve s base from0 rounds lo' hi' next
      else refine curve s base from0 rounds lo' hi' ((lo' + hi') / 2)

/-- The last table interval whose start is not beyond length `s`. -/
def interval (m : MeasuredCubic) (s : Float) : Nat :=
  min ((m.lengths.takeWhile (· ≤ s)).length - 1) (tableSteps - 1)

/-- The parameter at arc length `s`. -/
def parameterAt (m : MeasuredCubic) (s : Float) : Float :=
  if s ≤ 0 then 0
  else if m.length ≤ s then 1
  else
    let k := m.interval s
    let base := m.lengths.getD k 0
    let span := m.lengths.getD (k + 1) 0 - base
    let lo := tableParameter k
    let hi := tableParameter (k + 1)
    let t := if 0 < span then lo + (s - base) / span * (hi - lo) else lo
    refine m.curve s base lo 16 lo hi t

def pointAt (m : MeasuredCubic) (s : Float) : Point := m.curve.point (m.parameterAt s)

end MeasuredCubic

end LaserCutter
