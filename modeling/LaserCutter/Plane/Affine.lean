import LaserCutter.Plane.Point

/-!
# Affine maps of the plane

The map with coefficients `a b c d e f` sends `(x, y)` to `(a x + c y + e, b x + d y + f)`.
-/

namespace LaserCutter

structure Affine (α : Type := Float) where
  a : α
  b : α
  c : α
  d : α
  e : α
  f : α
  deriving DecidableEq, Repr

namespace Affine

variable {α : Type}

def identity [OfNat α 0] [OfNat α 1] : Affine α := ⟨1, 0, 0, 1, 0, 0⟩

/-- Equality of the six coefficients as numbers. -/
def same (m n : Affine) : Bool :=
  m.a == n.a && m.b == n.b && m.c == n.c && m.d == n.d && m.e == n.e && m.f == n.f

def isIdentity (m : Affine) : Bool := m.same identity

/-- `m` after `n`. -/
def compose [Add α] [Mul α] (m n : Affine α) : Affine α where
  a := m.a * n.a + m.c * n.b
  b := m.b * n.a + m.d * n.b
  c := m.a * n.c + m.c * n.d
  d := m.b * n.c + m.d * n.d
  e := m.a * n.e + m.c * n.f + m.e
  f := m.b * n.e + m.d * n.f + m.f

def apply [Add α] [Mul α] (m : Affine α) (p : Point α) : Point α :=
  ⟨m.a * p.x + m.c * p.y + m.e, m.b * p.x + m.d * p.y + m.f⟩

end Affine

end LaserCutter
