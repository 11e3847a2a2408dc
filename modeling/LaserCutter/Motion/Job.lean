import LaserCutter.Motion.Move

/-!
# Jobs

A job is a list of moves with the time that has passed after each of them.
-/

namespace LaserCutter

structure Job where
  moves : List Move
  /-- Seconds since the start, after each move. -/
  elapsed : List Float

namespace Job

def ofMoves (moves : List Move) : Job :=
  ⟨moves, Number.runningSums (moves.map Move.duration)⟩

def totalTime (job : Job) : Float := job.elapsed.getLast?.getD 0

/-- Millimetres of burning travel; the empty sum is the negative zero. -/
def cutLength (job : Job) : Float :=
  (job.moves.filter Move.isCut).foldl (fun sum move => sum + move.length) (-0.0)

/-- The box around every point where the head starts or stops. -/
def extents (job : Job) : Option Box :=
  Box.ofPoints? (job.moves.flatMap fun move => [move.start, move.stop])

end Job

end LaserCutter
