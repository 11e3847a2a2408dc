import LaserCutter.Proofs.Number.Equality
import LaserCutter.Proofs.Toolpath.Success
import LaserCutter.Scene.Basic

/-!
# Sameness of scenes

Two scenes are the same if they are built alike and their numbers are equal as numbers. A number
that is finite is equal to itself, so a scene of finite numbers is the same as itself, also once
every placement that moves nothing is made the identity.
-/

namespace LaserCutter

section same

def Segment.same : Segment → Segment → Bool
  | .line stop, .line stop' => stop.same stop'
  | .bezier c0 c1 stop, .bezier c0' c1' stop' => c0.same c0' && c1.same c1' && stop.same stop'
  | _, _ => false

def Path.same (p q : Path) : Bool :=
  p.start.same q.start && p.segments.isEqv q.segments Segment.same && p.closed == q.closed &&
    p.placement.same q.placement

def RasterSettings.same (s t : RasterSettings) : Bool :=
  s.dpi == t.dpi && s.dithering == t.dithering && s.threshold == t.threshold &&
    s.brightness == t.brightness && s.contrast == t.contrast && s.invert == t.invert &&
    s.scanDirection == t.scanDirection && s.bidirectional == t.bidirectional &&
    s.overscan == t.overscan

def Raster.same (r s : Raster) : Bool :=
  r.name == s.name && r.payload == s.payload && r.width == s.width && r.height == s.height &&
    r.placement.same s.placement && r.settings.same s.settings

mutual

def Item.same : Item → Item → Bool
  | .path path, .path path' => path.same path'
  | .compound paths m, .compound paths' m' => paths.isEqv paths' Path.same && m.same m'
  | .group children m, .group children' m' => sameItems children children' && m.same m'
  | .raster image, .raster image' => image.same image'
  | _, _ => false

def sameItems : List Item → List Item → Bool
  | [], [] => true
  | item :: rest, item' :: rest' => item.same item' && sameItems rest rest'
  | _, _ => false

end

def LayerSettings.same (s t : LayerSettings) : Bool :=
  s.mode == t.mode && s.power == t.power && s.speed == t.speed && s.passes == t.passes &&
    s.airAssist == t.airAssist && s.output == t.output && s.visible == t.visible

def Layer.same (l k : Layer) : Bool :=
  l.name == k.name && l.color == k.color && l.settings.same k.settings && sameItems l.items k.items

def Workspace.same (w v : Workspace) : Bool := w.width == v.width && w.height == v.height

def Scene.same (s t : Scene) : Bool :=
  s.layers.isEqv t.layers Layer.same && s.workspace.same t.workspace

end same

section writable

def Affine.isFinite (m : Affine) : Bool :=
  Number.isFinite m.a && Number.isFinite m.b && Number.isFinite m.c && Number.isFinite m.d &&
    Number.isFinite m.e && Number.isFinite m.f

def Segment.isFinite : Segment → Bool
  | .line stop => stop.isFinite
  | .bezier c0 c1 stop => c0.isFinite && c1.isFinite && stop.isFinite

def Path.isFinite (path : Path) : Bool :=
  path.start.isFinite && path.segments.all Segment.isFinite && path.placement.isFinite

def RasterSettings.isFinite (s : RasterSettings) : Bool :=
  Number.isFinite s.dpi && Number.isFinite s.brightness && Number.isFinite s.contrast &&
    Number.isFinite s.overscan

/-- Pixels that are already decoded have no written form. -/
def Payload.writable : Payload → Bool
  | .encoded _ => true
  | .pixels .. => false

def Raster.writable (r : Raster) : Bool :=
  r.payload.writable && Number.isFinite r.width && Number.isFinite r.height &&
    r.placement.isFinite && r.settings.isFinite

mutual

def Item.writable : Item → Bool
  | .path path => path.isFinite
  | .compound paths placement => paths.all Path.isFinite && placement.isFinite
  | .group children placement => writableItems children && placement.isFinite
  | .raster image => image.writable

def writableItems : List Item → Bool
  | [] => true
  | item :: rest => item.writable && writableItems rest

end

def LayerSettings.isFinite (s : LayerSettings) : Bool :=
  Number.isFinite s.power && Number.isFinite s.speed

def Layer.writable (layer : Layer) : Bool :=
  layer.settings.isFinite && writableItems layer.items

def Workspace.isFinite (w : Workspace) : Bool := Number.isFinite w.width && Number.isFinite w.height

/-- All numbers of the scene are finite, and all its pictures are encoded. -/
def Scene.writable (scene : Scene) : Bool :=
  scene.layers.all Layer.writable && scene.workspace.isFinite

end writable

section settled

/-- A map that is the identity as numbers are compared becomes the identity itself. -/
def Affine.settled (m : Affine) : Affine := if m.isIdentity then .identity else m

def Path.settled (path : Path) : Path := { path with placement := path.placement.settled }

mutual

/-- The item with the placements of its paths, compounds and groups settled. -/
def Item.settled : Item → Item
  | .path path => .path path.settled
  | .compound paths placement => .compound (paths.map Path.settled) placement.settled
  | .group children placement => .group (settledItems children) placement.settled
  | .raster image => .raster image

def settledItems : List Item → List Item
  | [] => []
  | item :: rest => item.settled :: settledItems rest

end

def Layer.settled (layer : Layer) : Layer := { layer with items := settledItems layer.items }

def Scene.settled (scene : Scene) : Scene := { scene with layers := scene.layers.map Layer.settled }

end settled

section reflexive

open Number

theorem isEqv_map {α : Type} {same : α → α → Bool} {f : α → α} {as : List α}
    (each : ∀ a ∈ as, same (f a) a) : (as.map f).isEqv as same := by
  induction as with
  | nil => rfl
  | cons a rest ih =>
    rw [List.map_cons, List.isEqv, each a (.head _), Bool.true_and]
    exact ih fun b member => each b (.tail _ member)

theorem isEqv_self {α : Type} {same : α → α → Bool} {as : List α} (each : ∀ a ∈ as, same a a) :
    as.isEqv as same := by
  have mapped := isEqv_map (f := id) each
  rwa [List.map_id] at mapped

theorem Point.same_self {p : Point} (finite : p.isFinite) : p.same p := by
  simp only [isFinite, Bool.and_eq_true] at finite
  simp [same, beq_self_of_isFinite finite.1, beq_self_of_isFinite finite.2]

theorem Affine.same_self {m : Affine} (finite : m.isFinite) : m.same m := by
  simp only [isFinite, Bool.and_eq_true] at finite
  simp [same, beq_self_of_isFinite, finite]

theorem Affine.same_symm {m n : Affine} (same : m.same n) : n.same m := by
  simp only [Affine.same, Bool.and_eq_true] at same ⊢
  obtain ⟨⟨⟨⟨⟨a, b⟩, c⟩, d⟩, e⟩, f⟩ := same
  exact ⟨⟨⟨⟨⟨beq_symm a, beq_symm b⟩, beq_symm c⟩, beq_symm d⟩, beq_symm e⟩, beq_symm f⟩

theorem Affine.settled_same {m : Affine} (finite : m.isFinite) : m.settled.same m := by
  unfold settled
  split
  · rename_i identity
    exact same_symm identity
  · exact same_self finite

theorem Segment.same_self {s : Segment} (finite : s.isFinite) : s.same s := by
  cases s with
  | line stop => exact Point.same_self finite
  | bezier c0 c1 stop =>
    simp only [isFinite, Bool.and_eq_true] at finite
    simp [same, Point.same_self, finite]

theorem Path.settled_same {path : Path} (finite : path.isFinite) : path.settled.same path := by
  simp only [isFinite, Bool.and_eq_true, List.all_eq_true] at finite
  obtain ⟨⟨start, segments⟩, placement⟩ := finite
  have each := isEqv_self fun segment member => Segment.same_self (segments segment member)
  simp [same, settled, Point.same_self start, each, Affine.settled_same placement]

theorem RasterSettings.same_self {s : RasterSettings} (finite : s.isFinite) : s.same s := by
  simp only [isFinite, Bool.and_eq_true] at finite
  simp [same, beq_self_of_isFinite, finite]

theorem Raster.same_self {r : Raster} (writable : r.writable) : r.same r := by
  simp only [Raster.writable, Bool.and_eq_true] at writable
  obtain ⟨⟨⟨⟨-, width⟩, height⟩, placement⟩, settings⟩ := writable
  simp [same, beq_self_of_isFinite width, beq_self_of_isFinite height,
    Affine.same_self placement, RasterSettings.same_self settings]

mutual

theorem Item.settled_same : ∀ item : Item, item.writable → item.settled.same item
  | .path _, finite => Path.settled_same finite
  | .compound paths placement, finite => by
    simp only [Item.writable, Bool.and_eq_true, List.all_eq_true] at finite
    have each := isEqv_map fun path member => Path.settled_same (finite.1 path member)
    simp [Item.settled, Item.same, each, Affine.settled_same finite.2]
  | .group children placement, writable => by
    simp only [Item.writable, Bool.and_eq_true] at writable
    simp [Item.settled, Item.same, settledItems_same children writable.1,
      Affine.settled_same writable.2]
  | .raster _, writable => Raster.same_self writable

theorem settledItems_same :
    ∀ items : List Item, writableItems items → sameItems (settledItems items) items
  | [], _ => rfl
  | item :: rest, writable => by
    simp only [writableItems, Bool.and_eq_true] at writable
    simp [settledItems, sameItems, item.settled_same writable.1,
      settledItems_same rest writable.2]

end

theorem LayerSettings.same_self {s : LayerSettings} (finite : s.isFinite) : s.same s := by
  simp only [isFinite, Bool.and_eq_true] at finite
  simp [same, beq_self_of_isFinite, finite]

theorem Layer.settled_same {layer : Layer} (writable : layer.writable) :
    layer.settled.same layer := by
  simp only [Layer.writable, Bool.and_eq_true] at writable
  simp [same, settled, LayerSettings.same_self writable.1, settledItems_same _ writable.2]

/-- Settling the placements of a scene changes none of its numbers. -/
theorem Scene.settled_same {scene : Scene} (writable : scene.writable) :
    scene.settled.same scene := by
  simp only [Scene.writable, Workspace.isFinite, Bool.and_eq_true, List.all_eq_true] at writable
  obtain ⟨layers, width, height⟩ := writable
  have each := isEqv_map fun layer member => Layer.settled_same (layers layer member)
  simp [same, settled, Workspace.same, each, beq_self_of_isFinite width,
    beq_self_of_isFinite height]

end reflexive

end LaserCutter
