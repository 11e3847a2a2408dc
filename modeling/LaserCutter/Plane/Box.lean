import LaserCutter.Plane.Affine

/-!
# Axis-aligned boxes

The box of a list of points is found by widening from the first point on; a NaN coordinate never
replaces a number.
-/

namespace LaserCutter

structure Box where
  minX : Float
  minY : Float
  maxX : Float
  maxY : Float
  deriving DecidableEq, Repr

namespace Box

def ofPoint (p : Point) : Box := ⟨p.x, p.y, p.x, p.y⟩

/-- Widens a box so that it holds `p`. -/
def widen (b : Box) (p : Point) : Box where
  minX := Number.lesser b.minX p.x
  minY := Number.lesser b.minY p.y
  maxX := Number.greater b.maxX p.x
  maxY := Number.greater b.maxY p.y

/-- The smallest box around the points; there is none around no points. -/
def ofPoints? : List Point → Option Box
  | [] => none
  | p :: rest => some (rest.foldl widen (ofPoint p))

/-- The box around a `w × h` rectangle that is centred on the origin and then placed by `m`. -/
def ofRectangle (m : Affine) (w h : Float) : Box :=
  let hw := w / 2
  let hh := h / 2
  [m.apply ⟨hw, -hh⟩, m.apply ⟨hw, hh⟩, m.apply ⟨-hw, hh⟩].foldl widen
    (ofPoint (m.apply ⟨-hw, -hh⟩))

def width (b : Box) : Float := b.maxX - b.minX

def height (b : Box) : Float := b.maxY - b.minY

end Box

end LaserCutter
