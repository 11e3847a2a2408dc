import LaserCutter.Proofs.Image.Transparency
import LaserCutter.Proofs.Toolpath.Success

/-!
# Scanning across

Exchanging the axes turns a horizontal scan into a vertical one. Two parts are `Transposed` if the
second one, started at the exchanged point, makes the moves of the first one with both ends
exchanged. Doing transposed parts in order is transposed; a rapid is left out on both sides or on
neither, as being near treats the two coordinates alike.
-/

namespace LaserCutter

/-- The point with its coordinates exchanged. -/
def Point.swap (p : Point) : Point := ⟨p.y, p.x⟩

/-- The box with its axes exchanged. -/
def Box.swap (b : Box) : Box := ⟨b.minY, b.minX, b.maxY, b.maxX⟩

/-- The same move between the exchanged points. -/
def Move.swap (move : Move) : Move :=
  { move with start := move.start.swap, stop := move.stop.swap }

def Leg.swap (leg : Leg) : Leg := ⟨leg.moves.map Move.swap, leg.stop.swap⟩

theorem Point.near_swap (p q : Point) (tolerance : Float) :
    p.swap.near q.swap tolerance = p.near q tolerance := Bool.and_comm _ _

namespace Leg

/-- Wherever the first part starts, the second one does the same with the axes exchanged. -/
def Transposed (first second : Point → Leg) : Prop :=
  ∀ position, second position.swap = (first position).swap

theorem transposed_stay : Transposed stay stay := fun _ => rfl

theorem swap_andThen {first second : Leg} {next other : Point → Leg} (ends : second = first.swap)
    (transposed : Transposed next other) : second.andThen other = (first.andThen next).swap := by
  subst ends
  have onwards : other first.swap.stop = (next first.stop).swap := transposed first.stop
  simp only [andThen, onwards]
  simp [swap]

theorem transposed_chain {firsts seconds : List (Point → Leg)}
    (transposed : List.Forall₂ Transposed firsts seconds) :
    Transposed (chain firsts) (chain seconds) := by
  induction transposed with
  | nil => exact transposed_stay
  | cons head _ ih =>
    intro position
    rw [chain_cons, chain_cons]
    exact swap_andThen (head position) ih

end Leg

namespace Route

/-- Wherever the first route starts, the second one does the same with the axes exchanged; where one
gives no leg, the other gives none for the same reason. -/
def Transposed (first second : Route) : Prop :=
  ∀ position, second position.swap = (first position).map Leg.swap

theorem transposed_still : Transposed still still := fun _ => rfl

theorem transposed_andThen {first second next other : Route} (transposed : Transposed first second)
    (onwards : Transposed next other) : Transposed (first.andThen next) (second.andThen other) := by
  intro position
  simp only [andThen, transposed position]
  cases first position with
  | error fault => rfl
  | ok leg =>
    have more : other leg.swap.stop = (next leg.stop).map Leg.swap := onwards leg.stop
    simp only [bind, Except.bind, Except.map, more]
    cases next leg.stop with
    | error fault => rfl
    | ok back => simp [pure, Except.pure, Leg.swap]

theorem transposed_chain {firsts seconds : List Route}
    (transposed : List.Forall₂ Transposed firsts seconds) :
    Transposed (chain firsts) (chain seconds) := by
  induction transposed with
  | nil => exact transposed_still
  | cons head _ ih =>
    rw [chain_cons, chain_cons]
    exact transposed_andThen head ih

theorem transposed_numbered {first second : Nat → Route}
    (transposed : ∀ i, Transposed (first i) (second i)) (count : Nat) :
    Transposed (numbered first count) (numbered second count) := by
  rw [numbered_eq_chain, numbered_eq_chain]
  apply transposed_chain
  simp [List.forall₂_map_left_iff, List.forall₂_map_right_iff, List.forall₂_same, transposed]

end Route

namespace Pass

variable (pass : Pass) (stop : Point)

/-- A rapid is left out near its target, whichever way the axes are. -/
theorem transposed_rapid : Leg.Transposed (pass.rapid stop) (pass.rapid stop.swap) := by
  intro position
  unfold rapid
  rw [Point.near_swap]
  split <;> rfl

theorem transposed_cut (power : Float) (mode : CutMode) :
    Leg.Transposed (pass.cut power mode stop) (pass.cut power mode stop.swap) := fun _ => rfl

end Pass

namespace ScanLine

variable (line : ScanLine) (pass : Pass) (overscan : Float) {place other : Float → Point}

theorem transposed_lead (stop : Point) :
    List.Forall₂ Leg.Transposed (lead pass overscan stop) (lead pass overscan stop.swap) := by
  unfold lead
  split
  · exact .cons (pass.transposed_cut stop 0 .image) .nil
  · exact .nil

theorem transposed_crossing (swapped : ∀ along, other along = (place along).swap) :
    Leg.Transposed (line.crossing pass overscan place) (line.crossing pass overscan other) := by
  have runs : List.Forall₂ Leg.Transposed
      ((line.runs pass.power).map fun run => pass.cut run.power .image (place run.stop))
      ((line.runs pass.power).map fun run => pass.cut run.power .image (other run.stop)) := by
    rw [List.forall₂_map_left_iff, List.forall₂_map_right_iff, List.forall₂_same]
    intro run _
    rw [swapped]
    exact pass.transposed_cut _ run.power .image
  unfold crossing
  apply Leg.transposed_chain
  refine List.rel_append (List.rel_append (.cons ?_ .nil) ?_) runs
  · rw [swapped]
    exact pass.transposed_rapid _
  · rw [swapped]
    exact transposed_lead pass overscan _

theorem transposed_route (swapped : ∀ along, other along = (place along).swap) :
    Route.Transposed (line.route pass overscan place) (line.route pass overscan other) := by
  intro position
  have crossed := line.transposed_crossing pass overscan swapped position
  have out : Leg.Transposed (Leg.chain (lead pass overscan (place (line.exit overscan))))
      (Leg.chain (lead pass overscan (other (line.exit overscan)))) := by
    rw [swapped]
    exact Leg.transposed_chain (transposed_lead pass overscan _)
  have near : (line.crossing pass overscan place position).swap.stop.near
      (place line.edgeOut).swap edgeTolerance =
        (line.crossing pass overscan place position).stop.near (place line.edgeOut) edgeTolerance :=
    Point.near_swap _ _ _
  unfold route
  dsimp only
  rw [crossed, swapped, near, Leg.swap_andThen rfl out]
  split <;> rfl

end ScanLine

namespace GrayField

variable (f : GrayField)

theorem pixel_transpose {x y : Nat} (row : x < f.height) (column : y < f.width) :
    f.transpose.pixel x y = f.pixel y x := by
  have inside : y * f.height + x < f.height * f.width := by
    calc
      y * f.height + x < y * f.height + f.height := by omega
      _ = (y + 1) * f.height := (Nat.succ_mul y f.height).symm
      _ ≤ f.width * f.height := Nat.mul_le_mul_right _ column
      _ = f.height * f.width := Nat.mul_comm _ _
  have stored : f.transpose.values[y * f.height + x]? = _ :=
    getElem?_ofIndices f.height f.width _ _ inside
  have quotient : (y * f.height + x) / f.height = y := by
    rw [Nat.mul_comm, Nat.mul_add_div (by omega), Nat.div_eq_of_lt row, Nat.add_zero]
  have remainder : (y * f.height + x) % f.height = x := by
    rw [Nat.mul_comm, Nat.mul_add_mod, Nat.mod_eq_of_lt row]
  change f.transpose.values.getD (y * f.height + x) 0 = _
  rw [Array.getD_eq_getD_getElem?, stored, quotient, remainder]
  rfl

/-- The columns of the transposed field are the rows of the field. -/
theorem column_transpose {i : Nat} (row : i < f.height) : f.transpose.column i = f.row i := by
  apply List.map_congr_left
  intro y column
  exact f.pixel_transpose row (List.mem_range.mp column)

variable (box : Box) (settings : RasterSettings) (pass : Pass)

theorem transposed_scanLine (rows : f.height ≠ 0) (count i : Nat) :
    Route.Transposed
      (f.scanLine box { settings with scanDirection := .horizontal } pass count i)
      (f.transpose.scanLine box.swap { settings with scanDirection := .vertical } pass count
        i) := by
  have row : fieldIndex i count f.height < f.height := fieldIndex_lt (Nat.pos_of_ne_zero rows)
  have values : ScanDirection.vertical.values f.transpose
      (fieldIndex i count (ScanDirection.vertical.size f.transpose)) =
        ScanDirection.horizontal.values f (fieldIndex i count (ScanDirection.horizontal.size f)) :=
    f.column_transpose row
  unfold scanLine
  dsimp only
  rw [values]
  exact ScanLine.transposed_route _ pass _ fun _ => rfl

/-- A vertical scan of the transposed field in the exchanged box, from the exchanged point, makes
the moves of the horizontal scan with the ends of each move exchanged and all else the same, and
stops at the exchanged point. Where one of the two cannot be driven, the other cannot for the same
reason. -/
theorem scan_transpose (position : Point) :
    f.transpose.scan box.swap { settings with scanDirection := .vertical } pass position.swap =
      (f.scan box { settings with scanDirection := .horizontal } pass position).map Leg.swap := by
  by_cases blank : f.width = 0 ∨ f.height = 0 ∨ ¬ 0 < settings.dpi
  · have blank' : f.transpose.width = 0 ∨ f.transpose.height = 0 ∨ ¬ 0 < settings.dpi := by
      rcases blank with width | height | dpi
      · exact .inr (.inl width)
      · exact .inl height
      · exact .inr (.inr dpi)
    unfold scan
    rw [if_pos blank, if_pos blank']
    rfl
  · have height : f.height ≠ 0 := fun noRows => blank (.inr (.inl noRows))
    have blank' : ¬ (f.transpose.width = 0 ∨ f.transpose.height = 0 ∨ ¬ 0 < settings.dpi) := by
      rintro (noRows | noColumns | dpi)
      · exact blank (.inr (.inl noRows))
      · exact blank (.inl noColumns)
      · exact blank (.inr (.inr dpi))
    unfold scan
    rw [if_neg blank, if_neg blank']
    exact Route.transposed_numbered (f.transposed_scanLine box settings pass height _) _ position

end GrayField

end LaserCutter
