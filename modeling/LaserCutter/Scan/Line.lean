import LaserCutter.Motion.Move
import LaserCutter.Scan.Run

/-!
# Scan lines

The head comes up to speed before the image and slows down behind it: a scan line is a rapid to its
entry, a lead-in without power, its runs, and a lead-out without power. Without overscan there is no
lead-in and no lead-out. The runs have to lead to the far edge of the image; those of one pixel or
more miss it only where a coordinate is no finite number.
-/

namespace LaserCutter

structure ScanLine where
  burns : List UInt8
  /-- Where the image begins along the line. -/
  low : Float
  /-- Where the image ends along the line. -/
  high : Float
  /-- The line is crossed from `high` to `low`. -/
  reverse : Bool
  deriving DecidableEq, Repr

namespace ScanLine

/-- How far from the far edge the runs may end on either axis, in millimetres. -/
def edgeTolerance : Float := 1e-9

/-- The edge of the image that is reached first. -/
def edgeIn (line : ScanLine) : Float := if line.reverse then line.high else line.low

/-- The edge of the image that is reached last. -/
def edgeOut (line : ScanLine) : Float := if line.reverse then line.low else line.high

/-- Where the head has to be before the lead-in. -/
def entry (line : ScanLine) (overscan : Float) : Float :=
  if line.reverse then line.high + overscan else line.low - overscan

/-- Where the lead-out ends. -/
def exit (line : ScanLine) (overscan : Float) : Float :=
  if line.reverse then line.low - overscan else line.high + overscan

def runs (line : ScanLine) (layerPower : Float) : List Run :=
  burnRuns line.burns layerPower line.low line.high line.reverse

/-- A cut without power to `stop`, if there is overscan at all. -/
def lead (pass : Pass) (overscan : Float) (stop : Point) : List (Point → Leg) :=
  if 0 < overscan then [pass.cut 0 .image stop] else []

/-- Travels to the entry and crosses the image; `place` gives the point for a coordinate along the
line. -/
def crossing (line : ScanLine) (pass : Pass) (overscan : Float) (place : Float → Point) :
    Point → Leg :=
  Leg.chain <|
    [pass.rapid (place (line.entry overscan))] ++ lead pass overscan (place line.edgeIn) ++
      (line.runs pass.power).map fun run => pass.cut run.power .image (place run.stop)

/-- Crosses the image and slows down behind it. -/
def route (line : ScanLine) (pass : Pass) (overscan : Float) (place : Float → Point) : Route :=
  fun position =>
    let crossed := line.crossing pass overscan place position
    if crossed.stop.near (place line.edgeOut) edgeTolerance then
      .ok (crossed.andThen (Leg.chain (lead pass overscan (place (line.exit overscan)))))
    else .error .lostEdge

end ScanLine

end LaserCutter
