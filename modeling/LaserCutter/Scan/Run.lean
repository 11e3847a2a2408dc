import LaserCutter.Number.Rounding

/-!
# Runs of constant power

The burn values of a scan line are scaled to the power of the layer, rounded to steps of power,
and merged: one run lasts as long as the rounded power stays the same. Runs meet at pixel centres,
and the outer ones reach to the edges of the image.
-/

namespace LaserCutter

/-- Percent of full power between two levels that are told apart. -/
def powerStep : Float := 4

/-- The power for a burn value under a layer power, in whole steps. -/
def steppedPower (burn : UInt8) (layerPower : Float) : Float :=
  Number.round (burn.toFloat / 255 * layerPower / powerStep) * powerStep

/-- A stretch of a scan line, by coordinates along the line. -/
structure Run (α : Type := Float) where
  start : α
  stop : α
  power : Float
  deriving DecidableEq, Repr

variable {α : Type}

/-- The centre of pixel `i` of `n` pixels that are spread evenly from `low` to `high`. -/
def centreOf [Add α] [Sub α] [Mul α] [Div α] (half low high n i : α) : α :=
  low + (i + half) / n * (high - low)

def pixelCentre (n : Nat) (low high : Float) (i : Nat) : Float :=
  centreOf 0.5 low high n.toUInt64.toFloat i.toUInt64.toFloat

/-- Runs from `start` to `stop`, the first of them at `power`; the list holds the centres and
powers of the pixels ahead. -/
def runsFrom (stop start : α) (power : Float) : List (α × Float) → List (Run α)
  | [] => [⟨start, stop, power⟩]
  | (centre, next) :: ahead =>
    if power != next then ⟨start, centre, power⟩ :: runsFrom stop centre next ahead
    else runsFrom stop start next ahead

/-- The runs of pixels with the given powers, from `low` to `high`, or back if `reverse` is set;
`centre` gives the places of the pixels. -/
def runsOf (low high : α) (centre : Nat → α) (powers : List Float) (reverse : Bool) :
    List (Run α) :=
  let pixels := powers.mapIdx fun i power => (centre i, power)
  match if reverse then pixels.reverse else pixels with
  | [] => []
  | (_, power) :: ahead =>
    if reverse then runsFrom low high power ahead else runsFrom high low power ahead

/-- The runs of a scan line with the given burn values. -/
def burnRuns (burns : List UInt8) (layerPower low high : Float) (reverse : Bool) : List Run :=
  let powers := burns.map fun burn => steppedPower burn layerPower
  runsOf low high (pixelCentre burns.length low high) powers reverse

end LaserCutter
