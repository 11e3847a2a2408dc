import LaserCutter.Curve.Cubic
import LaserCutter.Number.RunningSums
import LaserCutter.Scene.Basic

/-!
# Paths by arc length

A path is cut into pieces, each with the length from the start of the path to its end. A closed path
has one more piece back to its start, unless it already ends there.
-/

namespace LaserCutter

inductive Piece where
  | line (start stop : Point)
  | curve (curve : MeasuredCubic)
  deriving Repr

namespace Piece

def length : Piece → Float
  | .line start stop => start.distance stop
  | .curve c => c.length

/-- The point at arc length `s` of the piece. -/
def pointAt : Piece → Float → Point
  | .line start stop, s =>
    let length := start.distance stop
    if 0 < length then start.lerp stop (Number.clampTo 1 (s / length)) else start
  | .curve c, s => c.pointAt s

end Piece

/-- Why a path cannot be followed. -/
inductive PathFault where
  /-- Its length is not a number, so no offset lies between zero and the length. -/
  | unmeasured
  /-- It has more steps than 32 bits count. -/
  | tooLong
  deriving DecidableEq, Repr

namespace Path

/-- The pieces of the segments from `start` on, and the point where they end. -/
def piecesFrom : Point → List Segment → List Piece → List Piece × Point
  | start, [], seen => (seen.reverse, start)
  | start, .line stop :: rest, seen => piecesFrom stop rest (.line start stop :: seen)
  | start, .bezier c0 c1 stop :: rest, seen =>
    piecesFrom stop rest (.curve (.ofCubic ⟨start, c0, c1, stop⟩) :: seen)

def pieces (path : Path) : List Piece :=
  let (pieces, stop) := piecesFrom path.start path.segments []
  if path.closed && !path.segments.isEmpty && !stop.same path.start then
    pieces ++ [.line stop path.start]
  else pieces

end Path

structure MeasuredPath where
  pieces : List Piece
  /-- Length from the start of the path to the end of each piece. -/
  ends : List Float
  deriving Repr

namespace MeasuredPath

def ofPath (path : Path) : MeasuredPath :=
  let pieces := path.pieces
  ⟨pieces, Number.runningSums (pieces.map Piece.length)⟩

def length (m : MeasuredPath) : Float := m.ends.getLast?.getD 0

/-- The point at arc length `offset`, which is first brought onto the path. A path without pieces
has no points. -/
def pointAt (m : MeasuredPath) (offset : Float) : Except PathFault (Option Point) :=
  match Number.clamp? 0 m.length offset with
  | none => .error .unmeasured
  | some offset =>
    let index := min (m.ends.takeWhile (· < offset)).length (m.pieces.length - 1)
    let before := if index = 0 then 0 else m.ends.getD (index - 1) 0
    .ok ((m.pieces[index]?).map (·.pointAt (offset - before)))

end MeasuredPath

end LaserCutter
