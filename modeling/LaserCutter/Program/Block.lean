import LaserCutter.Motion.Job
import LaserCutter.Number.Decimal

/-!
# Blocks

A program is a list of blocks, one to a line. Coordinates are already text here: what a machine
reads is that text.
-/

namespace LaserCutter

/-- How the beam follows the head: constant power, or power scaled with the speed of the head. -/
inductive Beam where
  | constant
  | dynamic
  deriving DecidableEq, Repr

def Beam.code : Beam → String
  | .constant => "M3"
  | .dynamic => "M4"

/-- Scan lines burn with the dynamic beam. -/
def Beam.ofMode : CutMode → Beam
  | .image => .dynamic
  | .vector => .constant

def MoveKind.code : MoveKind → String
  | .rapid => "G0"
  | .cut => "G1"

inductive Block where
  | comment (text : String)
  /-- Absolute coordinates in millimetres. -/
  | absolute
  | beamOn (beam : Beam) (power : Int)
  | beamOff
  | air (on : Bool)
  /-- A straight move, with the feed rate in millimetres per minute where it changes. -/
  | move (kind : MoveKind) (x y : String) (feed : Option Int)
  deriving DecidableEq, Repr

namespace Block

def text : Block → String
  | comment text => "; " ++ text
  | absolute => "G90 G21"
  | beamOn beam power => beam.code ++ " S" ++ toString power
  | beamOff => "M5 S0"
  | air on => if on then "M8" else "M9"
  | move kind x y none => kind.code ++ " X" ++ x ++ " Y" ++ y
  | move kind x y (some feed) => kind.code ++ " X" ++ x ++ " Y" ++ y ++ " F" ++ toString feed

end Block

/-- A coordinate rounded to thousandths; there is no negative zero. -/
def coordinateText (v : Float) : String :=
  let v := Number.round (v * 1000) / 1000
  Number.fixed 3 (if v == 0 then 0 else v)

/-- Millimetres per second as whole millimetres per minute. -/
def feedPerMinute (speed : Float) : Int := Number.roundToInt64 (speed * 60)

end LaserCutter
