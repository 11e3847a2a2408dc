import LaserCutter.Json.Basic
import LaserCutter.Scene.Basic

/-!
# Writing scenes as JSON values

Every field is written, in the order in which an array form would list them. Only the placement of a
path, a compound or a group is left out when it is the identity. A picture that is already decoded
has no written form, and neither has what it stands in.
-/

namespace LaserCutter

open Json

def Point.toValue (p : Point) : Value := .object [("x", .ofFloat p.x), ("y", .ofFloat p.y)]

def Affine.toValue (m : Affine) : Value :=
  .array [.ofFloat m.a, .ofFloat m.b, .ofFloat m.c, .ofFloat m.d, .ofFloat m.e, .ofFloat m.f]

def Segment.toValue : Segment → Value
  | .line stop => .object [("kind", .string "line"), ("to", stop.toValue)]
  | .bezier c0 c1 stop =>
    .object [("kind", .string "bezier"), ("c0", c0.toValue), ("c1", c1.toValue),
      ("to", stop.toValue)]

def placementEntry (m : Affine) : List (String × Value) :=
  if m.isIdentity then [] else [("xform", m.toValue)]

def Path.entries (path : Path) : List (String × Value) :=
  [("start", path.start.toValue), ("segments", .array (path.segments.map Segment.toValue)),
   ("closed", .bool path.closed)] ++ placementEntry path.placement

def Path.toValue (path : Path) : Value := .object path.entries

def Dithering.name : Dithering → String
  | .threshold => "threshold"
  | .ordered => "ordered"
  | .floydSteinberg => "floyd-steinberg"
  | .grayscale => "grayscale"

def ScanDirection.name : ScanDirection → String
  | .horizontal => "horizontal"
  | .vertical => "vertical"

def RasterSettings.toValue (s : RasterSettings) : Value :=
  .object [("dpi", .ofFloat s.dpi), ("dithering", .string s.dithering.name),
    ("threshold", .ofNat s.threshold.toNat), ("brightness", .ofFloat s.brightness),
    ("contrast", .ofFloat s.contrast), ("invert", .bool s.invert),
    ("scan_direction", .string s.scanDirection.name), ("bidirectional", .bool s.bidirectional),
    ("overscan", .ofFloat s.overscan)]

/-- Why there is no written form. -/
inductive WriteFault where
  | decodedPicture
  deriving DecidableEq, Repr

def Payload.toValue : Payload → Except WriteFault Value
  | .encoded text => .ok (.string text)
  | .pixels .. => .error .decodedPicture

def Raster.entries (r : Raster) : Except WriteFault (List (String × Value)) := do
  let data ← r.payload.toValue
  return [("name", .string r.name), ("data", data), ("w", .ofFloat r.width),
    ("h", .ofFloat r.height), ("xform", r.placement.toValue), ("settings", r.settings.toValue)]

mutual

def Item.toValue : Item → Except WriteFault Value
  | .path path => .ok (.object (("type", .string "path") :: path.entries))
  | .compound paths placement =>
    .ok (.object ([("type", .string "compound"), ("paths", .array (paths.map Path.toValue))] ++
      placementEntry placement))
  | .group children placement => do
    let values ← itemValues children
    return .object ([("type", .string "group"), ("children", .array values)] ++
      placementEntry placement)
  | .raster image => do return .object (("type", .string "raster") :: (← image.entries))

def itemValues : List Item → Except WriteFault (List Value)
  | [] => .ok []
  | item :: rest => do return (← item.toValue) :: (← itemValues rest)

end

def LayerMode.name : LayerMode → String
  | .cut => "cut"
  | .engrave => "engrave"
  | .score => "score"

def LayerSettings.toValue (s : LayerSettings) : Value :=
  .object [("mode", .string s.mode.name), ("power", .ofFloat s.power), ("speed", .ofFloat s.speed),
    ("passes", .ofNat s.passes.toNat), ("air_assist", .bool s.airAssist),
    ("output", .bool s.output),
    ("visible", .bool s.visible)]

def Layer.toValue (layer : Layer) : Except WriteFault Value := do
  let items ← itemValues layer.items
  return .object [("name", .string layer.name), ("color", .string layer.color),
    ("settings", layer.settings.toValue), ("items", .array items)]

def Workspace.toValue (w : Workspace) : Value :=
  .object [("width", .ofFloat w.width), ("height", .ofFloat w.height)]

def Scene.toValue (scene : Scene) : Except WriteFault Value := do
  let layers ← scene.layers.mapM Layer.toValue
  return .object [("layers", .array layers), ("workspace", scene.workspace.toValue)]

end LaserCutter
