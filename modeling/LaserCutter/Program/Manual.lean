import LaserCutter.Machine
import LaserCutter.Program.Block

/-!
# Manual control lines

Single lines that move the head by hand, home it, set the origin or switch the pointer.
-/

namespace LaserCutter.Manual

/-- A relative move at `feed` millimetres per minute. -/
def jog (dx dy : Float) (feed : Int) : String :=
  s!"$J=G91 X{coordinateText dx} Y{coordinateText dy} F{feed}"

/-- A rapid to an absolute position. -/
def goto (x y : Float) (feed : Int) : String :=
  s!"G90 G0 X{coordinateText x} Y{coordinateText y} F{feed}"

/-- Runs the homing cycle. -/
def home : String := "$H"

/-- Makes the position of the head the origin. -/
def setOrigin : String := "G92 X0 Y0"

/-- The beam at half a percent of full power, for positioning by eye. -/
def pointer (on : Bool) (maxPower : Float) : String :=
  if on then s!"M3 S{Number.roundToInt64 (maxPower * 0.005)}" else "M5 S0"

end LaserCutter.Manual
