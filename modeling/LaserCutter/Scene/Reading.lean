import LaserCutter.Json.Record
import LaserCutter.Json.Text
import LaserCutter.Scene.Basic

/-!
# Reading scenes

Layers and their settings are read in the order of the text. An item is first checked to be whole
JSON, its tag at its place, and is then read from that value; inside items every fault of shape is a
mismatch.
-/

namespace LaserCutter

open Json

def pointSchema : Schema Point where
  fields := [.need "x" Draft.readFloat fun x p => { p with x },
    .need "y" Draft.readFloat fun y p => { p with y }]
  surplus := .mismatch

def readPoint : Draft → Except Fault Point := pointSchema.read .origin

/-- A matrix is an array of exactly six numbers. -/
def readAffine (draft : Draft) : Except Fault Affine := do
  match ← draft.readList Draft.readFloat with
  | [a, b, c, d, e, f] => .ok ⟨a, b, c, d, e, f⟩
  | _ => .error .mismatch

def segmentTags : List String := ["line", "bezier"]

structure SegmentPoints where
  c0 : Point
  c1 : Point
  stop : Point

def SegmentPoints.blank : SegmentPoints := ⟨.origin, .origin, .origin⟩

def lineSchema : Schema SegmentPoints where
  fields := [.need "to" readPoint fun stop s => { s with stop }]
  surplus := .mismatch

def bezierSchema : Schema SegmentPoints where
  fields := [.need "c0" readPoint fun c0 s => { s with c0 },
    .need "c1" readPoint fun c1 s => { s with c1 },
    .need "to" readPoint fun stop s => { s with stop }]
  surplus := .mismatch

def readSegment (draft : Draft) : Except Fault Segment := do
  match ← draft.readTagged "kind" segmentTags with
  | (0, fields) => (lineSchema.read .blank fields).map fun s => .line s.stop
  | (_, fields) => (bezierSchema.read .blank fields).map fun s => .bezier s.c0 s.c1 s.stop

def pathSchema : Schema Path where
  fields := [.need "start" readPoint fun start p => { p with start },
    .may "segments" (Draft.readList readSegment) fun segments p => { p with segments },
    .may "closed" Draft.readBool fun closed p => { p with closed },
    .may "xform" readAffine fun placement p => { p with placement }]
  surplus := .mismatch

def readPath : Draft → Except Fault Path := pathSchema.read ⟨.origin, [], false, .identity⟩

def ditheringNames : List (String × Dithering) :=
  [("threshold", .threshold), ("ordered", .ordered), ("floyd-steinberg", .floydSteinberg),
   ("grayscale", .grayscale)]

def directionNames : List (String × ScanDirection) :=
  [("horizontal", .horizontal), ("vertical", .vertical)]

def rasterSettingsSchema : Schema RasterSettings where
  fields := [.may "dpi" Draft.readFloat fun dpi s => { s with dpi },
    .may "dithering" (Draft.readName ditheringNames .mismatch) fun dithering s =>
      { s with dithering },
    .may "threshold" (Draft.readBelow 256) fun n s => { s with threshold := n.toUInt8 },
    .may "brightness" Draft.readFloat fun brightness s => { s with brightness },
    .may "contrast" Draft.readFloat fun contrast s => { s with contrast },
    .may "invert" Draft.readBool fun invert s => { s with invert },
    .may "scan_direction" (Draft.readName directionNames .mismatch) fun scanDirection s =>
      { s with scanDirection },
    .may "bidirectional" Draft.readBool fun bidirectional s => { s with bidirectional },
    .may "overscan" Draft.readFloat fun overscan s => { s with overscan }]
  surplus := .mismatch

def readRasterSettings : Draft → Except Fault RasterSettings := rasterSettingsSchema.read .standard

def rasterSchema : Schema Raster where
  fields := [.may "name" Draft.readString fun name r => { r with name },
    .need "data" Draft.readString fun text r => { r with payload := .encoded text },
    .need "w" Draft.readFloat fun width r => { r with width },
    .need "h" Draft.readFloat fun height r => { r with height },
    .may "xform" readAffine fun placement r => { r with placement },
    .may "settings" readRasterSettings fun settings r => { r with settings }]
  surplus := .mismatch

def readRaster : Draft → Except Fault Raster :=
  rasterSchema.read ⟨"", .encoded "", 0, 0, .identity, .standard⟩

/-- The parts of a compound path or a group. -/
structure Placed (α : Type) where
  parts : List α
  placement : Affine

def placedSchema (name : String) (read : Draft → Except Fault α) : Schema (Placed α) where
  fields := [.need name (Draft.readList read) fun parts p => { p with parts },
    .may "xform" readAffine fun placement p => { p with placement }]
  surplus := .mismatch

def readPlaced (name : String) (read : Draft → Except Fault α) : Draft → Except Fault (Placed α) :=
  (placedSchema name read).read ⟨[], .identity⟩

def itemTags : List String := ["path", "compound", "group", "raster"]

/-- Reads an item with at most `depth` items inside each other. -/
def readItem : Nat → Draft → Except Fault Item
  | 0, _ => .error .malformed
  | depth + 1, draft => do
    match ← draft.readTagged "type" itemTags with
    | (0, fields) => (readPath fields).map .path
    | (1, fields) => (readPlaced "paths" readPath fields).map fun p => .compound p.parts p.placement
    | (2, fields) =>
      (readPlaced "children" (readItem depth) fields).map fun p => .group p.parts p.placement
    | (_, fields) => (readRaster fields).map .raster

/-- Reads an item of a layer, in which at most `room` brackets may be open at once. -/
def readLayerItem (room : Nat) (draft : Draft) : Except Fault Item := do
  draft.checkTagged room "type" itemTags
  readItem room draft

def layerModeNames : List (String × LayerMode) :=
  [("cut", .cut), ("engrave", .engrave), ("score", .score)]

def layerSettingsSchema : Schema LayerSettings where
  fields := [.may "mode" (Draft.readName layerModeNames .malformed) fun mode s => { s with mode },
    .may "power" Draft.readFloat fun power s => { s with power },
    .may "speed" Draft.readFloat fun speed s => { s with speed },
    .may "passes" (Draft.readBelow UInt32.size) fun n s => { s with passes := n.toUInt32 },
    .may "air_assist" Draft.readBool fun airAssist s => { s with airAssist },
    .may "output" Draft.readBool fun output s => { s with output },
    .may "visible" Draft.readBool fun visible s => { s with visible }]
  surplus := .malformed

def readLayerSettings : Draft → Except Fault LayerSettings := layerSettingsSchema.read .standard

def layerSchema (room : Nat) : Schema Layer where
  fields := [.need "name" Draft.readString fun name l => { l with name },
    .may "color" Draft.readString fun color l => { l with color },
    .may "settings" readLayerSettings fun settings l => { l with settings },
    .may "items" (Draft.readList (readLayerItem room)) fun items l => { l with items }]
  surplus := .malformed

def readLayer (room : Nat) : Draft → Except Fault Layer :=
  (layerSchema room).read ⟨"", "", .standard, []⟩

def workspaceSchema : Schema Workspace where
  fields := [.need "width" Draft.readFloat fun width w => { w with width },
    .need "height" Draft.readFloat fun height w => { w with height }]
  surplus := .malformed

def readWorkspace : Draft → Except Fault Workspace := workspaceSchema.read ⟨0, 0⟩

def sceneSchema (room : Nat) : Schema Scene where
  fields := [.may "layers" (Draft.readList (readLayer room)) fun layers s => { s with layers },
    .may "workspace" readWorkspace fun workspace s => { s with workspace }]
  surplus := .malformed

def readScene (room : Nat) : Draft → Except Fault Scene := (sceneSchema room).read ⟨[], .standard⟩

/-- Four of the 127 brackets that may be open at once are open where an item begins. -/
def itemRoom : Nat := 123

def Scene.ofText (text : String) : Except Fault Scene := readText (readScene itemRoom) text

/-- Reads a scene from a value, however deep its items are nested. -/
def Scene.ofValue (v : Value) : Except Fault Scene := v.readAs (readScene v.depth)

end LaserCutter
