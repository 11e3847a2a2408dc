import LaserCutter.Curve.Cubic
import LaserCutter.Scene.Leaf
import Mathlib.Data.List.Forall2
import Mathlib.Data.Rat.Defs
import Mathlib.Tactic.Ring

/-!
# Nested placements

In exact arithmetic a path of an item tree is moved by its own placement first and then by those of
all that it stands in, from the inside out (`Item.paths_placed`): a product of affine maps acts like
its factors one after the other. An affine map keeps sums of points whose shares come to one, so it
moves a Bezier curve with its control points.
-/

namespace LaserCutter

section shape

variable {α : Type}

/-- Where placements take a point, the first one first. -/
def Point.through [Add α] [Mul α] (p : Point α) (placements : List (Affine α)) : Point α :=
  placements.foldl (fun q m => m.apply q) p

/-- The curve through the moved control points. -/
def Cubic.map (place : Point α → Point α) (curve : Cubic α) : Cubic α :=
  ⟨place curve.p0, place curve.c0, place curve.c1, place curve.p1⟩

namespace Path

/-- The Bezier curves among segments that begin at `start`. -/
def curvesFrom (start : Point α) : List (Segment α) → List (Cubic α)
  | [] => []
  | .line stop :: rest => curvesFrom stop rest
  | .bezier c0 c1 stop :: rest => ⟨start, c0, c1, stop⟩ :: curvesFrom stop rest

def curves (path : Path α) : List (Cubic α) := curvesFrom path.start path.segments

/-- The path with every point moved, and nothing left to place. -/
def moved [OfNat α 0] [OfNat α 1] (place : Point α → Point α) (path : Path α) : Path α :=
  ⟨place path.start, path.segments.map (·.map place), path.closed, .identity⟩

theorem curvesFrom_map (place : Point α → Point α) (start : Point α) (segments : List (Segment α)) :
    curvesFrom (place start) (segments.map (·.map place)) =
      (curvesFrom start segments).map (·.map place) := by
  induction segments generalizing start with
  | nil => rfl
  | cons segment rest ih =>
    cases segment with
    | line stop => exact ih stop
    | bezier c0 c1 stop => exact congrArg (List.cons _) (ih stop)

theorem curves_moved [OfNat α 0] [OfNat α 1] (place : Point α → Point α) (path : Path α) :
    (path.moved place).curves = path.curves.map (·.map place) :=
  curvesFrom_map place path.start path.segments

end Path

end shape

section exact

variable {α : Type} [CommRing α]

namespace Affine

theorem apply_identity (p : Point α) : (identity : Affine α).apply p = p := by
  simp [apply, identity]

/-- A product acts like its factors, the second one first. -/
theorem apply_compose (m n : Affine α) (p : Point α) :
    (m.compose n).apply p = m.apply (n.apply p) := by
  simp only [compose, apply, Point.mk.injEq]
  constructor <;> ring

end Affine

/-- A curve is moved by an affine map with its control points. -/
theorem Cubic.point_map (m : Affine α) (curve : Cubic α) (t : α) :
    (curve.map m.apply).point t = m.apply (curve.point t) := by
  simp only [map, point, coordinate, Affine.apply, Point.mk.injEq]
  constructor <;> ring

/-- However many placements there are, a curve is moved with its control points. -/
theorem Cubic.point_through (placements : List (Affine α)) (curve : Cubic α) (t : α) :
    (curve.map (·.through placements)).point t = (curve.point t).through placements := by
  induction placements generalizing curve with
  | nil => rfl
  | cons m rest ih => exact (ih (curve.map m.apply)).trans (by rw [point_map]; rfl)

end exact

/-- A path of an item tree with its own placement and those of all that it stands in, from the inside
out. -/
structure NestedPath (α : Type) where
  path : Path α
  placements : List (Affine α)

namespace NestedPath

variable {α : Type}

def own (path : Path α) : NestedPath α := ⟨path, [path.placement]⟩

/-- The path in one more thing that is placed. -/
def within (placement : Affine α) (nested : NestedPath α) : NestedPath α :=
  ⟨nested.path, nested.placements ++ [placement]⟩

end NestedPath

mutual

/-- The paths of an item, depth first and from left to right. -/
def Item.paths {α : Type} : Item α → List (NestedPath α)
  | .path path => [.own path]
  | .compound paths placement => paths.map fun path => (NestedPath.own path).within placement
  | .group children placement => (pathsOf children).map (·.within placement)
  | .raster _ => []

def pathsOf {α : Type} : List (Item α) → List (NestedPath α)
  | [] => []
  | item :: rest => item.paths ++ pathsOf rest

end

/-- The path to be driven, if the leaf is one. -/
def Leaf.path? {α : Type} : Leaf α → Option (Path α)
  | .path p => some p
  | .raster _ _ => none

section placed

variable {α : Type} [CommRing α]

namespace NestedPath

/-- The path moved by all its placements and by `parent` after them. -/
def image (parent : Affine α) (nested : NestedPath α) : Path α :=
  nested.path.moved fun p => parent.apply (p.through nested.placements)

theorem image_own (parent : Affine α) (path : Path α) :
    (own path).image parent = path.placed parent := by
  have place : (parent.compose path.placement).apply =
      fun p => parent.apply (path.placement.apply p) := funext (Affine.apply_compose _ _)
  unfold Path.placed
  rw [place]
  rfl

theorem image_within (parent placement : Affine α) (nested : NestedPath α) :
    (nested.within placement).image parent = nested.image (parent.compose placement) := by
  unfold image within
  simp only [Point.through, List.foldl_append, List.foldl_cons, List.foldl_nil,
    Affine.apply_compose]

end NestedPath

mutual

/-- What is driven of the paths of an item are their images. -/
theorem Item.paths_leaves (parent : Affine α) : (item : Item α) →
    (item.leaves parent).filterMap Leaf.path? = item.paths.map (·.image parent)
  | .path path => congrArg (fun path => [path]) (NestedPath.image_own parent path).symm
  | .compound paths placement => by
    have image (path : Path α) : ((NestedPath.own path).within placement).image parent =
        path.placed (parent.compose placement) := by
      rw [NestedPath.image_within, NestedPath.image_own]
    rw [Item.leaves, Item.paths, List.filterMap_map, List.map_map]
    simp only [Function.comp_def, image, Leaf.path?, List.filterMap_eq_map']
  | .group children placement => by
    rw [Item.leaves, Item.paths, List.map_map, pathsOf_leaves]
    simp only [Function.comp_def, NestedPath.image_within]
  | .raster image => rfl

theorem pathsOf_leaves (parent : Affine α) : (items : List (Item α)) →
    (leavesOf parent items).filterMap Leaf.path? = (pathsOf items).map (·.image parent)
  | [] => rfl
  | item :: rest => by
    rw [leavesOf, pathsOf, List.filterMap_append, List.map_append, item.paths_leaves, pathsOf_leaves]

end

end placed

/-- A segment of the same kind with every point moved. -/
inductive Segment.MovedBy {α : Type} (place : Point α → Point α) : Segment α → Segment α → Prop
  | line (stop : Point α) : MovedBy place (.line stop) (.line (place stop))
  | bezier (c0 c1 stop : Point α) :
    MovedBy place (.bezier c0 c1 stop) (.bezier (place c0) (place c1) (place stop))

/-- The path `image` is the path `original` with everything moved: its vertices and control points, and
the points of its curves. -/
structure Path.MovedBy (place : Point ℚ → Point ℚ) (original image : Path ℚ) : Prop where
  closed : image.closed = original.closed
  start : image.start = place original.start
  segments : List.Forall₂ (Segment.MovedBy place) original.segments image.segments
  curves : List.Forall₂ (fun curve moved => ∀ t, moved.point t = place (curve.point t))
    original.curves image.curves
  /-- Nothing is left to place. -/
  placement : image.placement = .identity

theorem Path.movedBy_moved (parent : Affine ℚ) (placements : List (Affine ℚ)) (path : Path ℚ) :
    path.MovedBy (fun p => parent.apply (p.through placements))
      (path.moved fun p => parent.apply (p.through placements)) := by
  have onCurve (curve : Cubic ℚ) (t : ℚ) :
      (curve.map fun p => parent.apply (p.through placements)).point t =
        parent.apply ((curve.point t).through placements) := by
    rw [← Cubic.point_through, ← Cubic.point_map]
    rfl
  refine ⟨rfl, rfl, ?_, ?_, rfl⟩
  · rw [moved, List.forall₂_map_right_iff, List.forall₂_same]
    intro segment _
    cases segment with
    | line stop => exact .line stop
    | bezier c0 c1 stop => exact .bezier c0 c1 stop
  · rw [curves_moved, List.forall₂_map_right_iff, List.forall₂_same]
    exact fun curve _ => onCurve curve

/-- In exact arithmetic the paths of an item are driven in the order of the tree, each moved by its own
placement first, then by that of its compound and those of the groups around it, from the inside out.
Above the root there is the placement `parent`; a layer has none there. -/
theorem Item.paths_placed (item : Item ℚ) :
    (∀ parent, List.Forall₂
      (fun nested => nested.path.MovedBy fun p => parent.apply (p.through nested.placements))
      item.paths ((item.leaves parent).filterMap Leaf.path?)) ∧
    List.Forall₂ (fun nested => nested.path.MovedBy (·.through nested.placements))
      item.paths ((item.leaves .identity).filterMap Leaf.path?) := by
  have each (parent : Affine ℚ) (nested : NestedPath ℚ) : nested.path.MovedBy
      (fun p => parent.apply (p.through nested.placements)) (nested.image parent) :=
    nested.path.movedBy_moved parent nested.placements
  constructor
  · intro parent
    rw [paths_leaves, List.forall₂_map_right_iff, List.forall₂_same]
    exact fun nested _ => each parent nested
  · rw [paths_leaves, List.forall₂_map_right_iff, List.forall₂_same]
    intro nested _
    have moved := each .identity nested
    simpa only [Affine.apply_identity] using moved

example (path : Path ℚ) (inner outer : Affine ℚ) :
    (Item.group [.compound [path] inner] outer).paths = [⟨path, [path.placement, inner, outer]⟩] :=
  rfl

end LaserCutter
