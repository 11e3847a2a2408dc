import LaserCutter.Curve.Sampling
import LaserCutter.Scene.Basic

/-!
# Moves of the head

A move is straight: a rapid with the laser off, or a cut. A leg is what one part of a job adds: its
moves, and where it leaves the head. A route is a part of a job that gives a leg from wherever the
head is, or says why there is none.
-/

namespace LaserCutter

inductive MoveKind where
  | rapid
  | cut
  deriving DecidableEq, Repr

/-- What a cut belongs to: a path or a scan line. -/
inductive CutMode where
  | vector
  | image
  deriving DecidableEq, Repr

structure Move where
  kind : MoveKind
  start : Point
  stop : Point
  /-- Millimetres per second. -/
  speed : Float
  /-- Percent of full power; zero for a rapid. -/
  power : Float
  layer : String
  mode : CutMode
  pass : Nat
  totalPasses : Nat
  airAssist : Bool
  deriving DecidableEq, Repr

namespace Move

def isCut (move : Move) : Bool := move.kind = .cut

def length (move : Move) : Float := move.start.distance move.stop

/-- Seconds; a speed that is not positive counts as one millimetre per second. -/
def duration (move : Move) : Float := move.length / (if 0 < move.speed then move.speed else 1)

/-- The closing travel to the machine origin, which belongs to no layer. -/
def home (start : Point) (speed : Float) : Move where
  kind := .rapid
  start := start
  stop := .origin
  speed := speed
  power := 0
  layer := ""
  mode := .vector
  pass := 0
  totalPasses := 0
  airAssist := false

end Move

/-- One pass over a layer: what it stamps on its moves. -/
structure Pass where
  layer : String
  power : Float
  speed : Float
  airAssist : Bool
  number : Nat
  total : Nat
  /-- Millimetres per second. -/
  travelSpeed : Float
  deriving DecidableEq, Repr

structure Leg where
  moves : List Move
  stop : Point
  deriving DecidableEq, Repr

namespace Leg

def stay (position : Point) : Leg := ⟨[], position⟩

/-- Drives the parts one after the other, each from where the one before stopped. -/
def chain (parts : List (Point → Leg)) (position : Point) : Leg :=
  let (legs, stop) := parts.foldl
    (fun (legs, position) part =>
      let leg := part position
      (leg.moves :: legs, leg.stop)) ([], position)
  ⟨legs.reverse.flatten, stop⟩

/-- Goes on with `next` from where the leg stopped. -/
def andThen (leg : Leg) (next : Point → Leg) : Leg :=
  let more := next leg.stop
  ⟨leg.moves ++ more.moves, more.stop⟩

end Leg

/-- Why a part of a job cannot be driven. -/
inductive RouteFault where
  | path (fault : PathFault)
  /-- The picture reader breaks off at a picture. -/
  | crashed
  /-- A scan line does not lead to the far edge of its image. -/
  | lostEdge
  deriving DecidableEq, Repr

def RouteFault.message : RouteFault → String
  | .path .unmeasured => "the length of a path is not a number"
  | .path .tooLong => "a path is too long"
  | .crashed => "the picture reader broke off"
  | .lostEdge => "a scan line does not lead to the edge of its image"

/-- A part of a job, driven from wherever the head is. -/
abbrev Route := Point → Except RouteFault Leg

namespace Route

/-- Nothing to do. -/
def still : Route := fun position => .ok (.stay position)

/-- Drives routes one after the other, each from where the one before stopped. -/
def chain (routes : List Route) : Route := fun position => do
  let (legs, stop) ← routes.foldlM
    (fun (legs, position) route => do
      let leg ← route position
      return (leg.moves :: legs, leg.stop)) (([] : List (List Move)), position)
  return ⟨legs.reverse.flatten, stop⟩

/-- Drives the routes from number `first` on, as many as are asked for; `legs` holds the moves of
the earlier ones, the last leg first. -/
def numberedFrom (route : Nat → Route) : Nat → Nat → List (List Move) → Route
  | 0, _, legs, position => .ok ⟨legs.reverse.flatten, position⟩
  | more + 1, first, legs, position => do
    let leg ← route first position
    numberedFrom route more (first + 1) (leg.moves :: legs) leg.stop

/-- Drives the routes with the numbers below `count` in order. None of them is made before its turn
comes. -/
def numbered (route : Nat → Route) (count : Nat) : Route := numberedFrom route count 0 []

end Route

namespace Pass

def rapidMove (pass : Pass) (start stop : Point) : Move where
  kind := .rapid
  start := start
  stop := stop
  speed := pass.travelSpeed
  power := 0
  layer := pass.layer
  mode := .vector
  pass := pass.number
  totalPasses := pass.total
  airAssist := pass.airAssist

def cutMove (pass : Pass) (power : Float) (mode : CutMode) (start stop : Point) : Move where
  kind := .cut
  start := start
  stop := stop
  speed := pass.speed
  power := power
  layer := pass.layer
  mode := mode
  pass := pass.number
  totalPasses := pass.total
  airAssist := pass.airAssist

/-- Travels to `stop`, unless the head is already near it: then it stays where it is. -/
def rapid (pass : Pass) (stop start : Point) : Leg :=
  if start.near stop leastMove then .stay start else ⟨[pass.rapidMove start stop], stop⟩

def cut (pass : Pass) (power : Float) (mode : CutMode) (stop start : Point) : Leg :=
  ⟨[pass.cutMove power mode start stop], stop⟩

end Pass

end LaserCutter
