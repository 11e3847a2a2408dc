import LaserCutter.Curve.MeasuredPath

/-!
# Sampling paths at a fixed step

The laser follows straight moves, so a path is sampled at equal steps of arc length: its start,
the multiples of the step before its end, and its exact end. A sample that is near the one kept
before it on both axes is dropped. Paths that are shorter than the least move give no samples.
-/

namespace LaserCutter

/-- Millimetres of arc length between samples. -/
def sampleSpacing : Float := 0.5

/-- Moves within this distance on both axes are dropped, in millimetres. -/
def leastMove : Float := 0.01

namespace MeasuredPath

/-- Adds the samples at `k * step`, `(k + 1) * step` and so on before the end. `kept` holds the
samples so far, the last one first, and `last` is that one. -/
def sampleFrom (m : MeasuredPath) (step length : Float) :
    Nat → Nat → Point → List Point → Except PathFault (Point × List Point)
  | 0, _, _, _ => .error .tooLong
  | steps + 1, k, last, kept =>
    let offset := k.toUInt64.toFloat * step
    if length ≤ offset then .ok (last, kept)
    else
      match m.pointAt offset with
      | .error fault => .error fault
      | .ok none => sampleFrom m step length steps (k + 1) last kept
      | .ok (some p) =>
        if p.near last leastMove then sampleFrom m step length steps (k + 1) last kept
        else sampleFrom m step length steps (k + 1) p (p :: kept)

end MeasuredPath

namespace Path

def samples (path : Path) (step : Float) : Except PathFault (List Point) := do
  if path.vertexCount < 2 || !(0 < step) then return []
  let m := MeasuredPath.ofPath path
  if m.length < leastMove then return []
  match ← m.pointAt 0 with
  | none => return []
  | some start =>
    let (last, kept) ← m.sampleFrom step m.length (UInt32.size - 1) 1 start [start]
    match ← if path.closed then .ok (some start) else m.pointAt m.length with
    | none => return kept.reverse
    | some stop => return if stop.near last leastMove then kept.reverse else (stop :: kept).reverse

end Path

end LaserCutter
