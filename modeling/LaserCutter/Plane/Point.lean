import LaserCutter.Number.Hypotenuse

/-!
# Points of the design plane

Coordinates are millimetres. They are binary64 numbers unless another type of numbers is named: what
only adds, subtracts and multiplies is defined for every such type, and so has a meaning in exact
arithmetic too.
-/

namespace LaserCutter

structure Point (α : Type := Float) where
  x : α
  y : α
  deriving DecidableEq, Repr

namespace Point

variable {α : Type}

def origin [OfNat α 0] : Point α := ⟨0, 0⟩

/-- Equality of both coordinates as numbers: zeros of either sign are equal, NaN equals nothing. -/
def same (p q : Point) : Bool := p.x == q.x && p.y == q.y

def distance (p q : Point) : Float := Number.hypotenuse (q.x - p.x) (q.y - p.y)

/-- The point at fraction `t` of the way from `p` to `q`. -/
def lerp [Add α] [Sub α] [Mul α] (p q : Point α) (t : α) : Point α :=
  ⟨p.x + (q.x - p.x) * t, p.y + (q.y - p.y) * t⟩

/-- Both coordinates are within `tolerance` of those of `q`. -/
def near (p q : Point) (tolerance : Float) : Bool :=
  (q.x - p.x).abs ≤ tolerance && (q.y - p.y).abs ≤ tolerance

end Point

end LaserCutter
