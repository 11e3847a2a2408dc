import LaserCutter.Motion.Job
import LaserCutter.Scene.Writing

/-!
# Writing jobs as JSON values

A job is written with all its moves and the times after them.
-/

namespace LaserCutter

open Json

def MoveKind.name : MoveKind → String
  | .rapid => "rapid"
  | .cut => "cut"

def CutMode.name : CutMode → String
  | .vector => "vector"
  | .image => "image"

def Move.toValue (move : Move) : Value :=
  .object [("kind", .string move.kind.name), ("from", move.start.toValue),
    ("to", move.stop.toValue), ("speed", .ofFloat move.speed), ("power", .ofFloat move.power),
    ("layer", .string move.layer), ("mode", .string move.mode.name), ("pass", .ofNat move.pass),
    ("total_passes", .ofNat move.totalPasses),
    ("air_assist", .bool move.airAssist)]

def Job.toValue (job : Job) : Value :=
  .object [("commands", .array (job.moves.map Move.toValue)),
    ("cum_time", .array (job.elapsed.map .ofFloat))]

end LaserCutter
