import LaserCutter.Scene.Basic

/-!
# Leaves of an item tree

What is driven or scanned are the leaves of an item: paths, each with all its placements applied,
and rasters, each under the placement of all that it stands in. They come in the order of the
tree.
-/

namespace LaserCutter

inductive Leaf (α : Type := Float) where
  /-- A path with nothing left to place. -/
  | path (path : Path α)
  /-- A raster under the placement `parent`, before its own. -/
  | raster (image : Raster α) (parent : Affine α)
  deriving DecidableEq, Repr

variable {α : Type} [OfNat α 0] [OfNat α 1] [Add α] [Mul α]

mutual

/-- The leaves of an item that stands under the placement `parent`. -/
def Item.leaves (parent : Affine α) : Item α → List (Leaf α)
  | .path path => [.path (path.placed parent)]
  | .compound paths placement =>
    paths.map fun path => .path (path.placed (parent.compose placement))
  | .group children placement => leavesOf (parent.compose placement) children
  | .raster image => [.raster image parent]

/-- The leaves of items that stand side by side under the placement `parent`. -/
def leavesOf (parent : Affine α) : List (Item α) → List (Leaf α)
  | [] => []
  | item :: rest => item.leaves parent ++ leavesOf parent rest

end

end LaserCutter
