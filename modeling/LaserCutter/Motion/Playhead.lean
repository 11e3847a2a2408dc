import LaserCutter.Motion.Job
import LaserCutter.Number.Decimal

/-!
# Playback

Where the head is at a time of a job. Times outside the job count as its start or its end.
-/

namespace LaserCutter

structure Playhead where
  /-- The place of the move in progress. -/
  index : Nat
  move : Move
  position : Point
  /-- How much of the move is done, from zero to one. -/
  fraction : Float
  deriving DecidableEq, Repr

/-- The head is partway through a cut. -/
def Playhead.burning (h : Playhead) : Bool := h.move.isCut && 0 < h.fraction && h.fraction < 1

/-- The total time of the job is not a number. -/
inductive ClockFault where
  | untimed
  deriving DecidableEq, Repr

namespace Job

/-- How much of the move at `index` is done at `time`; a move that takes no time is done. -/
def fractionAt (job : Job) (index : Nat) (time : Float) : Float :=
  let start := if index = 0 then 0 else job.elapsed.getD (index - 1) 0
  let span := job.elapsed.getD index 0 - start
  if 0 < span then Number.lesser ((time - start) / span) 1 else 1

/-- The head at a time; a job without moves has no head. -/
def headAt (job : Job) (time : Float) : Except ClockFault (Option Playhead) :=
  if job.moves.isEmpty then .ok none
  else
    match Number.clamp? 0 job.totalTime time with
    | none => .error .untimed
    | some time =>
      let index := min (job.elapsed.takeWhile (· < time)).length (job.elapsed.length - 1)
      .ok (job.moves[index]?.map fun move =>
        let fraction := job.fractionAt index time
        ⟨index, move, move.start.lerp move.stop fraction, fraction⟩)

end Job

/-- Minutes and seconds, each of at least two digits; a part of a second is cut off. Times that are
negative or not finite count as zero. -/
def durationText (seconds : Float) : String :=
  let seconds := if Number.isFinite seconds then Number.greater seconds 0 else 0
  let whole := seconds.toUInt64.toNat
  let twoDigits (n : Nat) := String.ofList ((Number.decimalDigits n).leftpad 2 '0')
  twoDigits (whole / 60) ++ ":" ++ twoDigits (whole % 60)

end LaserCutter
