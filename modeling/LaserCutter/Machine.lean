import LaserCutter.Json.Record
import LaserCutter.Json.Text
import LaserCutter.Number.Decimal
import LaserCutter.Plane.Box

/-!
# Machine settings

What a program is written for: the bed, the top speed and the units of power. Every setting may be
left out. Speed and power have to be positive.
-/

namespace LaserCutter

open Json

structure Machine where
  name : String
  /-- Millimetres. -/
  width : Float
  height : Float
  /-- Top travel speed in millimetres per minute. -/
  maxSpeed : Float
  /-- Power units of the device at full power. -/
  maxPower : Float
  baud : UInt32
  deriving DecidableEq, Repr

namespace Machine

def standard : Machine where
  name := "My Laser"
  width := 300
  height := 200
  maxSpeed := 6000
  maxPower := 1000
  baud := 115200

inductive SettingsError where
  | json (fault : Fault)
  | speedNotPositive (given : Float)
  | powerNotPositive (given : Float)
  deriving DecidableEq, Repr

def schema : Schema Machine where
  fields := [.may "name" Draft.readString fun name m => { m with name },
    .may "width" Draft.readFloat fun width m => { m with width },
    .may "height" Draft.readFloat fun height m => { m with height },
    .may "max_speed" Draft.readFloat fun maxSpeed m => { m with maxSpeed },
    .may "max_power" Draft.readFloat fun maxPower m => { m with maxPower },
    .may "baud" (Draft.readBelow UInt32.size) fun n m => { m with baud := n.toUInt32 }]
  surplus := .malformed

/-- The speed is looked at before the power. -/
def validate (m : Machine) : Except SettingsError Machine :=
  if !(0 < m.maxSpeed) then .error (.speedNotPositive m.maxSpeed)
  else if !(0 < m.maxPower) then .error (.powerNotPositive m.maxPower)
  else .ok m

def ofText (text : String) : Except SettingsError Machine :=
  match readText (schema.read standard) text with
  | .error fault => .error (.json fault)
  | .ok m => m.validate

/-- What is wrong with settings that are JSON of the right shape. -/
def SettingsError.message : SettingsError → String
  | .json _ => "json error"
  | .speedNotPositive given =>
    "invalid machine settings: max_speed must be positive, got " ++ Number.shortest given
  | .powerNotPositive given =>
    "invalid machine settings: max_power must be positive, got " ++ Number.shortest given

/-- Speed of rapid travel in millimetres per second. -/
def travelSpeed (m : Machine) : Float := m.maxSpeed / 60

/-- Device units for a percentage of full power. -/
def powerUnits (m : Machine) (percent : Float) : Int :=
  Number.roundToInt64 (percent * m.maxPower / 100)

/-- How far a job may reach over the edge of the bed. -/
def bedSlack : Float := 1e-6

/-- The bed spans from the origin to its width and height. -/
def bedHolds (m : Machine) (b : Box) : Bool :=
  b.minX ≥ -bedSlack && b.minY ≥ -bedSlack &&
    b.maxX ≤ m.width + bedSlack && b.maxY ≤ m.height + bedSlack

end Machine

end LaserCutter
