import LaserCutter.Plane.Box

/-!
# Scenes

A scene is a list of layers, each with laser settings and a tree of items: paths, compound paths,
groups and bitmaps. Compounds and groups place what they hold by an affine map.
-/

namespace LaserCutter

variable {α : Type}

/-- One piece of a path. It continues from the end of the piece before. -/
inductive Segment (α : Type := Float) where
  | line (stop : Point α)
  /-- A cubic Bezier piece: `c0` leaves the start, `c1` arrives at `stop`. -/
  | bezier (c0 c1 stop : Point α)
  deriving DecidableEq, Repr

namespace Segment

def stop : Segment α → Point α
  | .line stop => stop
  | .bezier _ _ stop => stop

def map (f : Point α → Point α) : Segment α → Segment α
  | .line stop => .line (f stop)
  | .bezier c0 c1 stop => .bezier (f c0) (f c1) (f stop)

end Segment

/-- An open or closed curve of line and Bezier segments. -/
structure Path (α : Type := Float) where
  start : Point α
  segments : List (Segment α)
  closed : Bool
  placement : Affine α
  deriving DecidableEq, Repr

namespace Path

/-- The path through the given points; without points an empty path at the origin. -/
def polyline [OfNat α 0] [OfNat α 1] (points : List (Point α)) (closed : Bool) : Path α :=
  ⟨points.head?.getD .origin, points.tail.map .line, closed, .identity⟩

/-- The closed rectangle that starts at its corner of least coordinates. -/
def rectangle [OfNat α 0] [OfNat α 1] [Add α] (x y w h : α) : Path α :=
  polyline [⟨x, y⟩, ⟨x + w, y⟩, ⟨x + w, y + h⟩, ⟨x, y + h⟩] true

def vertexCount (path : Path α) : Nat := path.segments.length + 1

/-- The path with its own placement and then `parent` applied to every point. -/
def placed [OfNat α 0] [OfNat α 1] [Add α] [Mul α] (path : Path α) (parent : Affine α) : Path α :=
  let place := (parent.compose path.placement).apply
  ⟨place path.start, path.segments.map (·.map place), path.closed, .identity⟩

end Path

/-- How grey values become burn values. -/
inductive Dithering where
  | threshold
  | ordered
  | floydSteinberg
  | grayscale
  deriving DecidableEq, Repr

inductive ScanDirection where
  | horizontal
  | vertical
  deriving DecidableEq, Repr

structure RasterSettings where
  dpi : Float
  dithering : Dithering
  threshold : UInt8
  /-- Percent, from -100 to 100. -/
  brightness : Float
  /-- Percent, from -100 to 100. -/
  contrast : Float
  invert : Bool
  scanDirection : ScanDirection
  bidirectional : Bool
  /-- Millimetres of travel before and after each scan line. -/
  overscan : Float
  deriving DecidableEq, Repr

def RasterSettings.standard : RasterSettings where
  dpi := 254
  dithering := .threshold
  threshold := 128
  brightness := 0
  contrast := 0
  invert := false
  scanDirection := .horizontal
  bidirectional := true
  overscan := 2.5

/-- The picture of a raster item. -/
inductive Payload where
  /-- Base64 text of a picture file, possibly as a `data:` URL. -/
  | encoded (text : String)
  /-- Red, green, blue and alpha bytes, row by row. -/
  | pixels (width height : Nat) (bytes : List UInt8)
  deriving DecidableEq, Repr

/-- A bitmap on a `width × height` box that is centred on the origin of its placement. -/
structure Raster (α : Type := Float) where
  name : String
  payload : Payload
  width : α
  height : α
  placement : Affine α
  settings : RasterSettings
  deriving DecidableEq, Repr

inductive Item (α : Type := Float) where
  | path (path : Path α)
  | compound (paths : List (Path α)) (placement : Affine α)
  | group (children : List (Item α)) (placement : Affine α)
  | raster (image : Raster α)

inductive LayerMode where
  | cut
  | engrave
  | score
  deriving DecidableEq, Repr

structure LayerSettings where
  mode : LayerMode
  /-- Percent of full power. -/
  power : Float
  /-- Millimetres per second. -/
  speed : Float
  passes : UInt32
  airAssist : Bool
  output : Bool
  visible : Bool
  deriving DecidableEq, Repr

namespace LayerSettings

def standard : LayerSettings where
  mode := .cut
  power := 80
  speed := 10
  passes := 1
  airAssist := true
  output := true
  visible := true

/-- Only a visible layer with output on makes the laser move. -/
def emits (settings : LayerSettings) : Bool := settings.output && settings.visible

end LayerSettings

structure Layer where
  name : String
  color : String
  settings : LayerSettings
  items : List Item

structure Workspace where
  width : Float
  height : Float
  deriving DecidableEq, Repr

def Workspace.standard : Workspace := ⟨300, 200⟩

structure Scene where
  layers : List Layer
  workspace : Workspace

end LaserCutter
