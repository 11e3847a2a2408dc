import LaserCutter.Image.Png
import LaserCutter.Proofs.Curve.Sampling
import LaserCutter.Proofs.Toolpath.Cuts
import LaserCutter.Scene.Reading

/-!
# Which scenes compile

A job comes to nothing only because of one of its leaves: a path whose length is NaN or beyond what
the sampling steps can count, a picture on which the reader crashes, or a scan line that ends at no
finite place. Each leaf can be looked at on its own, since none of this depends on where the head is.
All other scenes compile, degenerate parts being left out. This holds for every picture reader.
-/

namespace LaserCutter

section success

variable {ε α β : Type}

theorem isOk_map (f : α → β) (r : Except ε α) : (r.map f).isOk = r.isOk := by
  cases r <;> rfl

theorem isOk_mapM (f : α → Except ε β) (xs : List α) :
    (xs.mapM f).isOk ↔ ∀ x ∈ xs, (f x).isOk := by
  induction xs with
  | nil => simp [pure, Except.pure, Except.isOk, Except.toBool]
  | cons x rest ih =>
    rw [List.mapM_cons, List.forall_mem_cons, ← ih]
    cases f x with
    | error fault => simp [bind, Except.bind, Except.isOk, Except.toBool]
    | ok y =>
      cases rest.mapM f <;> simp [bind, Except.bind, pure, Except.pure, Except.isOk, Except.toBool]

/-- A list goes through exactly as its elements do. -/
theorem mapM_eq_ok {f : α → Except ε β} {xs : List α} {ys : List β} :
    xs.mapM f = .ok ys ↔ List.Forall₂ (fun x y => f x = .ok y) xs ys := by
  induction xs generalizing ys with
  | nil => cases ys <;> simp [pure, Except.pure]
  | cons x rest ih =>
    rw [List.mapM_cons]
    cases first : f x with
    | error fault => cases ys <;> simp [first, bind, Except.bind]
    | ok y =>
      cases behind : rest.mapM f with
      | error fault => cases ys <;> simp [← ih, behind, bind, Except.bind]
      | ok zs => cases ys <;> simp [first, ← ih, behind, bind, Except.bind, pure, Except.pure]

end success

namespace Route

theorem isOk_cuts (route : Route) (position : Point) :
    (route.cuts position).isOk = (route position).isOk := isOk_map _ _

/-- Steady routes can be driven one after the other exactly if each of them can be driven on its
own. -/
theorem isOk_chain {α : Type} {parts : List α} {route : α → Route}
    (steady : ∀ x ∈ parts, (route x).Steady) (position other : Point) :
    (chain (parts.map route) position).isOk ↔ ∀ x ∈ parts, (route x other).isOk := by
  rw [← isOk_cuts, cuts_chain steady position other, isOk_map, isOk_mapM]
  exact forall₂_congr fun x _ => by rw [isOk_cuts]

end Route

/-- Both coordinates are finite. -/
def Point.isFinite (p : Point) : Bool := Number.isFinite p.x && Number.isFinite p.y

theorem Point.near_self (p : Point) : p.near p ScanLine.edgeTolerance ↔ p.isFinite := by
  have x := Number.abs_sub_self_le p.x
  have y := Number.abs_sub_self_le p.y
  simp [near, isFinite, ScanLine.edgeTolerance, x, y]

/-- A scan line with a pixel is crossed exactly if its far edge is a finite place. -/
theorem ScanLine.isOk_route (line : ScanLine) (pass : Pass) (overscan : Float)
    (place : Float → Point) (position : Point) (pixels : line.burns ≠ []) :
    (line.route pass overscan place position).isOk ↔ (place line.edgeOut).isFinite := by
  rw [line.route_eq pass overscan place position pixels, ← Point.near_self]
  split
  · exact iff_of_true rfl ‹_›
  · exact iff_of_false Bool.false_ne_true ‹_›

/-- Where scan line `i` of `count` leaves a box. -/
def RasterSettings.farEdge (settings : RasterSettings) (box : Box) (count i : Nat) : Point :=
  let direction := settings.scanDirection
  let (low, high) := direction.along box
  let (first, last) := direction.across box
  direction.point (if settings.bidirectional && i % 2 == 1 then low else high)
    (first + (i.toUInt64.toFloat + 0.5) * ((last - first) / count.toUInt64.toFloat))

/-- How many scan lines cross a box. -/
def RasterSettings.boxLines (settings : RasterSettings) (box : Box) : Nat :=
  settings.lineCount ((settings.scanDirection.across box).2 - (settings.scanDirection.across box).1)

namespace GrayField

theorem width_dither (f : GrayField) (settings : RasterSettings) :
    (f.dither settings).width = f.width := by
  unfold dither
  split <;> rfl

theorem height_dither (f : GrayField) (settings : RasterSettings) :
    (f.dither settings).height = f.height := by
  unfold dither
  split <;> rfl

/-- A dithered field has a burn value for each of its pixels. -/
theorem size_dither (f : GrayField) (settings : RasterSettings) :
    (f.dither settings).values.size = f.width * f.height := by
  unfold dither
  split <;> simp [threshold, ordered, diffused, inverse, ofIndices]

variable (burn : GrayField) (box : Box) (settings : RasterSettings) (pass : Pass)

theorem isOk_scanLine (count i : Nat) (position : Point) (width : burn.width ≠ 0)
    (height : burn.height ≠ 0) :
    (burn.scanLine box settings pass count i position).isOk ↔
      (settings.farEdge box count i).isFinite :=
  ScanLine.isOk_route _ pass _ _ position (settings.scanDirection.values_ne_nil width height _)

/-- A field is scanned unless a line that has to be crossed ends at no finite place. -/
theorem isOk_scan (position : Point) :
    (burn.scan box settings pass position).isOk ↔
      burn.width = 0 ∨ burn.height = 0 ∨ ¬ 0 < settings.dpi ∨
        ∀ i < settings.boxLines box, (settings.farEdge box (settings.boxLines box) i).isFinite := by
  unfold scan
  split
  · rename_i still
    refine iff_of_true rfl ?_
    rcases still with width | height | dpi
    · exact .inl width
    · exact .inr (.inl height)
    · exact .inr (.inr (.inl dpi))
  · rename_i scanned
    obtain ⟨width, height, dpi⟩ : burn.width ≠ 0 ∧ burn.height ≠ 0 ∧ 0 < settings.dpi := by
      simpa [not_or] using scanned
    have steady (i : Nat) :
        (burn.scanLine box settings pass (settings.boxLines box) i).Steady :=
      (ScanLine.cutsAs_route _ pass pass.number _ _
        (settings.scanDirection.values_ne_nil width height _)).steady
    change (Route.numbered (burn.scanLine box settings pass (settings.boxLines box))
      (settings.boxLines box) position).isOk ↔ _
    rw [Route.numbered_eq_chain, Route.isOk_chain (fun i _ => steady i) position position]
    simp [burn.isOk_scanLine box settings pass _ _ position width height, width, height, dpi]

end GrayField

/-- A path can be sampled if it has no segment or is not too long; its length is then not NaN. -/
def Path.Drivable (path : Path) : Prop :=
  path.segments = [] ∨ (MeasuredPath.ofPath path).length ≤ longestPath

variable (reader : PictureReader)

/-- A raster is no hindrance if the reader does not crash on its picture, and if every line that has
to be crossed ends at a finite place. -/
def Raster.Drivable (image : Raster) (parent : Affine) : Prop :=
  match image.payload.picture reader with
  | .error fault => fault ≠ .unread .crashed
  | .ok picture =>
    let box := Box.ofRectangle (parent.compose image.placement) image.width image.height
    let count := image.settings.boxLines box
    picture.width = 0 ∨ picture.height = 0 ∨ ¬ 0 < image.settings.dpi ∨
      ∀ i < count, (image.settings.farEdge box count i).isFinite

def Leaf.Drivable : Leaf → Prop
  | .path p => p.Drivable
  | .raster image parent => image.Drivable reader parent

theorem Path.isOk_route (path : Path) (pass : Pass) (position : Point) :
    (path.route pass position).isOk ↔ path.Drivable := by
  rw [Drivable, ← path.samples_isOk_iff, route_eq]
  rcases path.samples sampleSpacing with fault | _ | ⟨first, rest⟩ <;> rfl

theorem Raster.isOk_route (image : Raster) (pass : Pass) (parent : Affine) (position : Point) :
    (image.route reader pass parent position).isOk ↔ image.Drivable reader parent := by
  unfold Raster.route Drivable
  cases image.payload.picture reader with
  | error fault =>
    rcases fault with _ | (_ | _) | _ <;> simp [Route.still, Except.isOk, Except.toBool]
  | ok picture =>
    have scanned := ((picture.intensity image.settings).dither image.settings).isOk_scan
      (Box.ofRectangle (parent.compose image.placement) image.width image.height) image.settings
      pass position
    rw [GrayField.width_dither, GrayField.height_dither] at scanned
    exact scanned

theorem Leaf.isOk_route (leaf : Leaf) (pass : Pass) (position : Point) :
    (leaf.route reader pass position).isOk ↔ leaf.Drivable reader := by
  cases leaf with
  | path path => exact path.isOk_route pass position
  | raster image parent => exact image.isOk_route reader pass parent position

theorem Item.isOk_route (item : Item) (pass : Pass) (parent : Affine) (position : Point) :
    (item.route reader pass parent position).isOk ↔
      ∀ leaf ∈ item.leaves parent, leaf.Drivable reader := by
  have steady : ∀ leaf ∈ item.leaves parent, (leaf.route reader pass).Steady :=
    fun leaf _ => (leaf.cutsAs_route pass.number reader pass).steady
  rw [Item.route, Route.isOk_chain steady position position]
  exact forall₂_congr fun leaf _ => leaf.isOk_route reader pass position

theorem Layer.isOk_route (layer : Layer) (travelSpeed : Float) (position : Point) :
    (layer.route reader travelSpeed position).isOk ↔
      (layer.settings.emits →
        ∀ item ∈ layer.items, ∀ leaf ∈ item.leaves .identity, leaf.Drivable reader) := by
  have steady : ∀ item ∈ layer.items,
      (item.route reader (layer.pass travelSpeed 1) .identity).Steady :=
    fun item _ => (item.cutsAs_route 1 reader (layer.pass travelSpeed 1) .identity).steady
  rw [← Route.isOk_cuts, layer.cuts_route reader travelSpeed position position]
  split
  · rename_i emits
    rw [isOk_map, Route.isOk_cuts, passRoute, Route.isOk_chain steady position position]
    simp only [emits, forall_const]
    exact forall₂_congr fun item _ => item.isOk_route reader _ _ position
  · rename_i idle
    exact iff_of_true rfl fun emits => absurd emits idle

/-- The row or column that a scan line takes is there. -/
theorem fieldIndex_lt {line count size : Nat} (filled : 0 < size) :
    fieldIndex line count size < size :=
  lt_of_le_of_lt (Nat.min_le_right _ _) (Nat.sub_one_lt_of_lt filled)

namespace Scene

/-- A scene compiles exactly if every leaf of its layers that emit can be driven. -/
theorem isOk_job (scene : Scene) (machine : Machine) :
    (scene.job reader machine).isOk ↔ ∀ layer ∈ scene.layers, layer.settings.emits →
      ∀ item ∈ layer.items, ∀ leaf ∈ item.leaves .identity, leaf.Drivable reader := by
  rw [← isOk_map fun job => cutsOf job.moves, scene.cuts_job reader machine .origin, isOk_map,
    isOk_mapM]
  refine forall₂_congr fun layer _ => ?_
  rw [Route.isOk_cuts, layer.isOk_route]

/-- Whatever reads its pictures, a scene compiles exactly if every leaf of its layers that emit can
be driven. No table, no picture and no field is read outside: a path with a segment has a point at
every offset that lies on it, the interval of a curve and the one behind it are in the table of its
lengths, a dithered picture has a burn value for each pixel, and a scan line takes a row or column
that is there. -/
theorem compiles_iff (scene : Scene) (machine : Machine) :
    ((scene.job reader machine).isOk ↔ ∀ layer ∈ scene.layers, layer.settings.emits →
      ∀ item ∈ layer.items, ∀ leaf ∈ item.leaves .identity, leaf.Drivable reader) ∧
    (∀ path offset, (MeasuredPath.ofPath path).pointAt offset = .ok none ↔ path.segments = []) ∧
    (∀ path, (MeasuredPath.ofPath path).ends.length = (MeasuredPath.ofPath path).pieces.length) ∧
    (∀ curve s, (MeasuredCubic.ofCubic curve).interval s + 1 <
      (MeasuredCubic.ofCubic curve).lengths.length) ∧
    (∀ (picture : Picture) (settings : RasterSettings),
      ((picture.intensity settings).dither settings).values.size = picture.width * picture.height) ∧
    (∀ line count size, 0 < size → fieldIndex line count size < size) :=
  ⟨scene.isOk_job reader machine, MeasuredPath.pointAt_eq_none_iff, MeasuredPath.length_ends,
    MeasuredCubic.interval_lt, fun _ settings => GrayField.size_dither _ settings,
    fun _ _ _ => fieldIndex_lt⟩

/-- The text of a scene whose numbers are finite, while its placement takes the path beyond all
numbers. -/
def overflowText : String :=
  "\x7b\"layers\":[\x7b\"name\":\"a\",\"items\":[\x7b\"type\":\"path\"," ++
    "\"start\":\x7b\"x\":1e308,\"y\":0\x7d,\"segments\":[\x7b\"kind\":\"line\"," ++
    "\"to\":\x7b\"x\":1e308,\"y\":0\x7d\x7d],\"xform\":[10,0,0,1,0,0]\x7d]\x7d]\x7d"

/-- A scene that is read and does not compile: the length of its path is not a number. -/
theorem overflow_unmeasured :
    ∃ scene machine, Scene.ofText overflowText = .ok scene ∧
      Machine.ofText "\x7b\x7d" = .ok machine ∧
      scene.job Image.decodePng machine = .error (.path .unmeasured) := by
  have compiled : (Machine.ofText "\x7b\x7d").toOption.bind (fun machine =>
      (Scene.ofText overflowText).toOption.map fun scene =>
        (scene.job Image.decodePng machine).map fun _ => ()) =
        some (.error (.path .unmeasured)) := by
    unfold Machine.ofText Scene.ofText overflowText
    rw [Json.readText_ofList, ← String.ofList_append, ← String.ofList_append, Json.readText_ofList]
    decide +kernel
  cases settings : Machine.ofText "\x7b\x7d" with
  | error fault => simp [settings, Except.toOption] at compiled
  | ok machine =>
    cases read : Scene.ofText overflowText with
    | error fault => simp [settings, read, Except.toOption] at compiled
    | ok scene =>
      refine ⟨scene, machine, rfl, rfl, ?_⟩
      cases job : scene.job Image.decodePng machine with
      | error fault => simpa [settings, read, job, Except.toOption, Except.map] using compiled
      | ok job => simp [settings, read, job, Except.toOption, Except.map] at compiled

end Scene

end LaserCutter
