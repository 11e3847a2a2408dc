import LaserCutter.Image.Dithering
import LaserCutter.Image.Intensity
import LaserCutter.Image.Payload
import LaserCutter.Machine
import LaserCutter.Motion.Job
import LaserCutter.Scan.Field
import LaserCutter.Scene.Leaf

/-!
# From a scene to a job

Every layer that emits is driven once for each of its passes, its items in order. Each part of the
scene is a route: it starts wherever the head is and says where it leaves the head, so the job is
one continuous travel. The pictures of rasters come from any picture reader.
-/

namespace LaserCutter

variable (reader : PictureReader)

/-- Travels to the first sample and cuts through the others; without samples there is nothing to
do. -/
def Path.route (path : Path) (pass : Pass) : Route := fun position => do
  match ← (path.samples sampleSpacing).mapError .path with
  | [] => return .stay position
  | first :: rest =>
    return Leg.chain (pass.rapid first :: rest.map (pass.cut pass.power .vector)) position

/-- Scans the picture of the item. A picture that cannot be decoded is left out, but one on which
the reader crashes stops the job. -/
def Raster.route (image : Raster) (pass : Pass) (parent : Affine) : Route :=
  match image.payload.picture reader with
  | .error (.unread .crashed) => fun _ => .error .crashed
  | .error _ => .still
  | .ok picture =>
    let burn := (picture.intensity image.settings).dither image.settings
    let box := Box.ofRectangle (parent.compose image.placement) image.width image.height
    burn.scan box image.settings pass

def Leaf.route (leaf : Leaf) (pass : Pass) : Route :=
  match leaf with
  | .path p => p.route pass
  | .raster image parent => image.route reader pass parent

/-- Drives the leaves of an item that stands under the placement `parent`. -/
def Item.route (item : Item) (pass : Pass) (parent : Affine) : Route :=
  Route.chain ((item.leaves parent).map (·.route reader pass))

namespace Layer

/-- A layer is driven at least once. -/
def passCount (layer : Layer) : Nat := max layer.settings.passes.toNat 1

/-- What pass `number` of the layer stamps on its moves. -/
def pass (layer : Layer) (travelSpeed : Float) (number : Nat) : Pass where
  layer := layer.name
  power := layer.settings.power
  speed := layer.settings.speed
  airAssist := layer.settings.airAssist
  number := number
  total := layer.passCount
  travelSpeed := travelSpeed

/-- Drives all passes of a layer that emits. -/
def route (layer : Layer) (travelSpeed : Float) : Route :=
  if layer.settings.emits then
    Route.numbered (fun i =>
      Route.chain (layer.items.map (·.route reader (layer.pass travelSpeed (i + 1)) .identity)))
      layer.passCount
  else .still

end Layer

namespace Scene

/-- Drives all layers from the origin. -/
def leg (scene : Scene) (travelSpeed : Float) : Except RouteFault Leg :=
  Route.chain (scene.layers.map fun layer => layer.route reader travelSpeed) .origin

/-- The job of a scene: all its layers, and home at the end unless the head is there. -/
def job (scene : Scene) (machine : Machine) : Except RouteFault Job := do
  let leg ← scene.leg reader machine.travelSpeed
  let home := if leg.stop.same .origin then [] else [Move.home leg.stop machine.travelSpeed]
  return .ofMoves (leg.moves ++ home)

end Scene

end LaserCutter
