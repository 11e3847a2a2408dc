import LaserCutter.Proofs.Motion.Continuity
import LaserCutter.Scan.Field

/-!
# Where a scan line ends

The runs of a scan line with a pixel lead to the far edge of the image, whatever the burn values
are. So the place where the crossing stops depends neither on where it starts nor on the pass.
-/

namespace LaserCutter

section runs

variable {α : Type}

theorem getLast?_runsFrom (stop start : α) (power : Float) (ahead : List (α × Float)) :
    (runsFrom stop start power ahead).getLast?.map Run.stop = some stop := by
  induction ahead generalizing start power with
  | nil => rfl
  | cons pixel ahead ih =>
    unfold runsFrom
    split
    · rw [List.getLast?_cons]
      specialize ih pixel.1 pixel.2
      cases last : (runsFrom stop pixel.1 pixel.2 ahead).getLast? with
      | none => simp [last] at ih
      | some run => simpa [last] using ih
    · exact ih start pixel.2

theorem getLast?_runsOf (low high : α) (centre : Nat → α) {powers : List Float} (reverse : Bool)
    (pixels : powers ≠ []) :
    (runsOf low high centre powers reverse).getLast?.map Run.stop =
      some (if reverse then low else high) := by
  unfold runsOf
  dsimp only
  split
  · rename_i noPixels
    cases reverse <;> simp [List.mapIdx_eq_nil_iff, pixels] at noPixels
  · split
    · exact getLast?_runsFrom low high _ _
    · exact getLast?_runsFrom high low _ _

end runs

namespace ScanLine

variable (line : ScanLine) (pass : Pass) (overscan : Float) (place : Float → Point)

/-- The last run of a scan line with a pixel stops at the far edge. -/
theorem runs_eq_concat (power : Float) (pixels : line.burns ≠ []) :
    ∃ front last, line.runs power = front ++ [last] ∧ last.stop = line.edgeOut := by
  have edge : (line.runs power).getLast?.map Run.stop = some line.edgeOut :=
    getLast?_runsOf _ _ _ _ (by simpa using pixels)
  obtain ⟨last, ends, stop⟩ := Option.map_eq_some_iff.mp edge
  obtain ⟨front, runs⟩ := List.getLast?_eq_some_iff.mp ends
  exact ⟨front, last, runs, stop⟩

theorem stop_crossing (position : Point) (pixels : line.burns ≠ []) :
    (line.crossing pass overscan place position).stop = place line.edgeOut := by
  obtain ⟨front, last, runs, edge⟩ := line.runs_eq_concat pass.power pixels
  unfold crossing
  rw [runs, List.map_append, ← List.append_assoc, Leg.chain_append, ← edge]
  rfl

/-- A scan line with a pixel is crossed if its far edge is a place at all; then the way out follows.
-/
theorem route_eq (position : Point) (pixels : line.burns ≠ []) :
    line.route pass overscan place position =
      if (place line.edgeOut).near (place line.edgeOut) edgeTolerance then
        .ok ((line.crossing pass overscan place position).andThen
          (Leg.chain (lead pass overscan (place (line.exit overscan)))))
      else .error .lostEdge := by
  unfold route
  dsimp only
  rw [line.stop_crossing pass overscan place position pixels]

end ScanLine

/-- Every row and every column of a field that is not empty has a pixel. -/
theorem ScanDirection.values_ne_nil (direction : ScanDirection) {burn : GrayField}
    (width : burn.width ≠ 0) (height : burn.height ≠ 0) (i : Nat) :
    direction.values burn i ≠ [] := by
  cases direction <;> simpa [values, GrayField.row, GrayField.column]

end LaserCutter
