import LaserCutter.Proofs.Motion.Continuity
import Mathlib.Data.List.Forall2

/-!
# What is burned

The cuts of a list of moves, in order and without where they start: their targets, speeds, powers,
modes and stamps. Two parts cut alike if this list is the same for both wherever they start, up to a
change that is made to every cut, such as another pass number. Where the head is does matter to the
rapids: they are left out near their target. So the relation says nothing about the rapids, and
nothing about where the two parts stop.
-/

namespace LaserCutter

/-- The move without where it starts. -/
def Move.unplaced (move : Move) : Move := { move with start := .origin }

/-- The same move in another pass. -/
def Move.inPass (number : Nat) (move : Move) : Move := { move with pass := number }

/-- The cuts among the moves, without where they start. -/
def cutsOf (moves : List Move) : List Move := (moves.filter Move.isCut).map Move.unplaced

@[simp] theorem cutsOf_append (front back : List Move) :
    cutsOf (front ++ back) = cutsOf front ++ cutsOf back := by
  simp [cutsOf]

namespace Leg

/-- Wherever the two parts start, the second one cuts what the first one cuts, changed by `f`. -/
def CutsAs (f : Move → Move) (first second : Point → Leg) : Prop :=
  ∀ position other, cutsOf (second other).moves = (cutsOf (first position).moves).map f

variable {f : Move → Move}

theorem cutsAs_chain {firsts seconds : List (Point → Leg)}
    (alike : List.Forall₂ (CutsAs f) firsts seconds) :
    CutsAs f (chain firsts) (chain seconds) := by
  induction alike with
  | nil => exact fun _ _ => rfl
  | cons head _ ih =>
    intro position other
    rw [chain_cons, chain_cons, andThen, andThen, cutsOf_append, cutsOf_append, List.map_append,
      head position other, ih]

end Leg

namespace Route

/-- What the route cuts from a position, or why it gives no leg there. -/
def cuts (route : Route) (position : Point) : Except RouteFault (List Move) :=
  (route position).map fun leg => cutsOf leg.moves

/-- Wherever the two routes start, the second one cuts what the first one cuts, changed by `f`; and
where one gives no leg, the other gives none for the same reason. -/
def CutsAs (f : Move → Move) (first second : Route) : Prop :=
  ∀ position other, second.cuts other = (first.cuts position).map (List.map f)

variable {f : Move → Move}

/-- The route cuts the same from everywhere. -/
def Steady (route : Route) : Prop := ∀ position other, route.cuts position = route.cuts other

/-- A route that cuts like itself, however changed, is steady. -/
theorem CutsAs.steady {route : Route} (alike : CutsAs f route route) : route.Steady :=
  fun position other => (alike position position).trans (alike position other).symm

theorem cutsAs_still : CutsAs f still still := fun _ _ => rfl

theorem cutsAs_error (fault : RouteFault) :
    CutsAs f (fun _ => .error fault) fun _ => .error fault :=
  fun _ _ => rfl

/-- The next route starts where the one before stopped. -/
theorem cuts_andThen (first next : Route) (position : Point) :
    (first.andThen next).cuts position =
      match first position with
      | .error fault => .error fault
      | .ok leg => (next.cuts leg.stop).map (cutsOf leg.moves ++ ·) := by
  simp only [cuts, andThen]
  cases first position with
  | error fault => rfl
  | ok leg =>
    cases driven : next leg.stop with
    | error fault => simp [bind, Except.bind, Except.map, driven]
    | ok more => simp [bind, Except.bind, Except.map, pure, Except.pure, driven]

theorem cutsAs_andThen {first second next other : Route} (alike : CutsAs f first second)
    (alikeNext : CutsAs f next other) : CutsAs f (first.andThen next) (second.andThen other) := by
  intro position start
  have both := alike position start
  rw [cuts_andThen, cuts_andThen]
  simp only [cuts] at both
  cases driven : first position with
  | error fault =>
    cases drivenOther : second start with
    | error fault' => simpa [driven, drivenOther, Except.map] using both
    | ok leg => simp [driven, drivenOther, Except.map] at both
  | ok leg =>
    cases drivenOther : second start with
    | error fault => simp [driven, drivenOther, Except.map] at both
    | ok leg' =>
      have same : cutsOf leg'.moves = (cutsOf leg.moves).map f := by
        simpa [driven, drivenOther, Except.map] using both
      simp only [alikeNext leg.stop leg'.stop, same]
      cases next.cuts leg.stop <;> simp [Except.map]

theorem cutsAs_chain {firsts seconds : List Route}
    (alike : List.Forall₂ (CutsAs f) firsts seconds) :
    CutsAs f (chain firsts) (chain seconds) := by
  induction alike with
  | nil => exact cutsAs_still
  | cons head _ ih =>
    rw [chain_cons, chain_cons]
    exact cutsAs_andThen head ih

theorem cutsAs_numbered {first second : Nat → Route} (alike : ∀ i, CutsAs f (first i) (second i))
    (count : Nat) : CutsAs f (numbered first count) (numbered second count) := by
  rw [numbered_eq_chain, numbered_eq_chain]
  apply cutsAs_chain
  simp [List.forall₂_map_left_iff, List.forall₂_map_right_iff, List.forall₂_same, alike]

/-- What steady routes cut one after the other is what each of them cuts from anywhere, in order. -/
theorem cuts_chain {α : Type} {parts : List α} {route : α → Route}
    (steady : ∀ x ∈ parts, (route x).Steady) (position other : Point) :
    (chain (parts.map route)).cuts position =
      (parts.mapM fun x => (route x).cuts other).map List.flatten := by
  induction parts generalizing position with
  | nil => rfl
  | cons x rest ih =>
    have own := steady x (by simp) position other
    rw [List.map_cons, chain_cons, cuts_andThen, List.mapM_cons]
    simp only [← own]
    unfold cuts
    cases route x position with
    | error fault => rfl
    | ok leg =>
      have behind := ih (fun x member => steady x (by simp [member])) leg.stop
      simp only [cuts] at behind
      simp only [behind]
      cases rest.mapM fun x => (route x other).map fun leg => cutsOf leg.moves with
      | error fault => simp [bind, Except.bind, Except.map]
      | ok more => simp [bind, Except.bind, Except.map, pure, Except.pure]

end Route

namespace Leg

theorem forall_mem_chain {P : Move → Prop} {parts : List (Point → Leg)}
    (each : ∀ part ∈ parts, ∀ position, ∀ move ∈ (part position).moves, P move)
    (position : Point) : ∀ move ∈ (chain parts position).moves, P move := by
  induction parts generalizing position with
  | nil => nofun
  | cons part rest ih =>
    intro move member
    rw [chain_cons] at member
    rcases List.mem_append.mp member with own | behind
    · exact each part (by simp) position move own
    · exact ih (fun part member => each part (by simp [member])) _ move behind

end Leg

namespace Pass

/-- Where a rapid leaves the head, also if it is left out. -/
theorem stop_rapid (pass : Pass) (target position : Point) :
    (pass.rapid target position).stop = target ∨
      (pass.rapid target position).stop.near target leastMove := by
  unfold rapid
  split
  · exact .inr ‹_›
  · exact .inl rfl

/-- After a rapid, the first of the cuts starts at its target or near it. -/
theorem start_first_cut (pass : Pass) (target position : Point) {parts : List (Point → Leg)}
    (cuts : ∀ part ∈ parts, ∃ power mode stop, part = pass.cut power mode stop) :
    ∀ cut ∈ ((Leg.chain (pass.rapid target :: parts) position).moves.filter Move.isCut).head?,
      cut.start = target ∨ cut.start.near target leastMove := by
  intro cut first
  have travel : (pass.rapid target position).moves.filter Move.isCut = [] := by
    unfold rapid
    split <;> rfl
  have burned : (Leg.chain parts (pass.rapid target position).stop).moves.filter Move.isCut =
      (Leg.chain parts (pass.rapid target position).stop).moves := by
    refine List.filter_eq_self.mpr (Leg.forall_mem_chain ?_ _)
    intro part member place move driven
    obtain ⟨power, mode, stop, rfl⟩ := cuts part member
    rw [List.mem_singleton.mp driven]
    rfl
  have unbroken : ∀ part ∈ parts, Leg.Unbroken part := by
    intro part member
    obtain ⟨power, mode, stop, rfl⟩ := cuts part member
    exact pass.unbroken_cut power mode stop
  rw [Leg.chain_cons, Leg.andThen, List.filter_append, travel, List.nil_append, burned] at first
  rw [(Leg.unbroken_chain unbroken _).head_start cut first]
  exact pass.stop_rapid target position

/-- A rapid cuts nothing, whether it is left out or not. -/
theorem cutsOf_rapid (pass : Pass) (stop position : Point) :
    cutsOf (pass.rapid stop position).moves = [] := by
  unfold rapid
  split <;> rfl

theorem cutsAs_rapid (f : Move → Move) (pass pass' : Pass) (stop stop' : Point) :
    Leg.CutsAs f (pass.rapid stop) (pass'.rapid stop') := by
  intro position other
  rw [cutsOf_rapid, cutsOf_rapid, List.map_nil]

/-- The same cut in another pass. -/
theorem cutsAs_cut (pass : Pass) (number : Nat) (power : Float) (mode : CutMode) (stop : Point) :
    Leg.CutsAs (Move.inPass number) (pass.cut power mode stop)
      (({ pass with number } : Pass).cut power mode stop) := fun _ _ => rfl

end Pass

end LaserCutter
