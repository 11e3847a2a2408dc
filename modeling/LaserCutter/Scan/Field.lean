import LaserCutter.Image.Picture
import LaserCutter.Plane.Box
import LaserCutter.Scan.Line

/-!
# Scanning a burn field

The box of an image is crossed by scan lines at equal distances. Each takes its burn values from
the row, or for vertical lines the column, of the field that it falls on. Both directions are one
and the same up to the exchange of axes.
-/

namespace LaserCutter

/-- The row or column that scan line `line` of `count` takes from an image of `size` of them. -/
def fieldIndex (line count size : Nat) : Nat :=
  let place := line.toUInt64.toFloat / count.toUInt64.toFloat * size.toUInt64.toFloat
  min place.toUInt32.toNat (size - 1)

namespace ScanDirection

/-- The point at a coordinate along the scan lines and one across them. -/
def point : ScanDirection → Float → Float → Point
  | .horizontal, along, across => ⟨along, across⟩
  | .vertical, along, across => ⟨across, along⟩

/-- The sides of a box along the scan lines. -/
def along : ScanDirection → Box → Float × Float
  | .horizontal, b => (b.minX, b.maxX)
  | .vertical, b => (b.minY, b.maxY)

/-- The sides of a box across the scan lines. -/
def across : ScanDirection → Box → Float × Float
  | .horizontal, b => (b.minY, b.maxY)
  | .vertical, b => (b.minX, b.maxX)

/-- How many rows or columns of a field lie across the scan lines. -/
def size : ScanDirection → GrayField → Nat
  | .horizontal, f => f.height
  | .vertical, f => f.width

/-- The values of a field along one row or column. -/
def values : ScanDirection → GrayField → Nat → List UInt8
  | .horizontal, f, i => f.row i
  | .vertical, f, i => f.column i

end ScanDirection

/-- Millimetres between scan lines. -/
def RasterSettings.spacing (settings : RasterSettings) : Float := 25.4 / settings.dpi

/-- How many scan lines cover `extent`; there is always one. -/
def RasterSettings.lineCount (settings : RasterSettings) (extent : Float) : Nat :=
  max (Number.round (extent / settings.spacing)).toUInt64.toNat 1

namespace GrayField

/-- Crosses scan line `i` of `count`. Every second line is crossed backwards if the settings ask for
it. -/
def scanLine (burn : GrayField) (box : Box) (settings : RasterSettings) (pass : Pass)
    (count i : Nat) : Route :=
  let direction := settings.scanDirection
  let (low, high) := direction.along box
  let (first, last) := direction.across box
  let across := first + (i.toUInt64.toFloat + 0.5) * ((last - first) / count.toUInt64.toFloat)
  let line : ScanLine :=
    ⟨direction.values burn (fieldIndex i count (direction.size burn)), low, high,
      settings.bidirectional && i % 2 == 1⟩
  line.route pass (Number.greater settings.overscan 0) fun along => direction.point along across

/-- Scans a burn field that is placed on `box`. An empty field, or one without a resolution, takes
no moves. -/
def scan (burn : GrayField) (box : Box) (settings : RasterSettings) (pass : Pass) : Route :=
  if burn.width = 0 ∨ burn.height = 0 ∨ ¬ 0 < settings.dpi then .still
  else
    let (first, last) := settings.scanDirection.across box
    let count := settings.lineCount (last - first)
    Route.numbered (burn.scanLine box settings pass count) count

end GrayField

end LaserCutter
