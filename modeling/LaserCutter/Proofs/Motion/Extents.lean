import LaserCutter.Machine
import LaserCutter.Motion.Job
import LaserCutter.Proofs.Number.Extremes

/-!
# How far a job reaches

The box of a job is widened point by point. It holds every point where the head starts or stops and
has one of them on each of its sides (`Box.Tight`), and no other box does: so it does not depend on
the order of the moves, and it lies on the bed just if all these points do.
-/

namespace LaserCutter

open Number

/-- Neither coordinate is NaN. -/
def Point.isNumber (p : Point) : Bool := !p.x.isNaN && !p.y.isNaN

namespace Box

/-- The point lies within the four sides. -/
def Holds (b : Box) (p : Point) : Prop :=
  (b.minX ≤ p.x ∧ p.x ≤ b.maxX) ∧ b.minY ≤ p.y ∧ p.y ≤ b.maxY

/-- Equality of the four sides as numbers. -/
def same (b c : Box) : Bool :=
  b.minX == c.minX && b.minY == c.minY && b.maxX == c.maxX && b.maxY == c.maxY

/-- The box holds the points, and each side goes through one of them. -/
structure Tight (b : Box) (points : List Point) : Prop where
  holds : ∀ p ∈ points, b.Holds p
  left : ∃ p ∈ points, p.x = b.minX
  bottom : ∃ p ∈ points, p.y = b.minY
  right : ∃ p ∈ points, p.x = b.maxX
  top : ∃ p ∈ points, p.y = b.maxY

/-- Each side is widened on its own. -/
theorem foldl_widen (b : Box) (points : List Point) :
    points.foldl widen b =
      ⟨(points.map Point.x).foldl lesser b.minX, (points.map Point.y).foldl lesser b.minY,
        (points.map Point.x).foldl greater b.maxX, (points.map Point.y).foldl greater b.maxY⟩ := by
  induction points generalizing b with
  | nil => rfl
  | cons p rest ih => rw [List.foldl_cons, ih]; rfl

/-- A side that is found point by point goes through a point and has all points on one side of it. -/
theorem side_of_picks {before : Float → Float → Prop} {pick : Float → Float → Float}
    (picks : Picks before pick) (trans : ∀ {a b c}, before a b → before b c → before a c)
    (coordinate : Point → Float) (p : Point) (rest : List Point)
    (numbers : ∀ q ∈ p :: rest, (coordinate q).isNaN = false) :
    (∃ q ∈ p :: rest, coordinate q = (rest.map coordinate).foldl pick (coordinate p)) ∧
      ∀ q ∈ p :: rest, before ((rest.map coordinate).foldl pick (coordinate p)) (coordinate q) := by
  obtain ⟨among, bounds⟩ := picks.foldl trans (coordinate p) (rest.map coordinate) (by
    rw [← List.map_cons]
    exact List.forall_mem_map.mpr numbers)
  rw [← List.map_cons] at among bounds
  exact ⟨List.mem_map.mp among, fun q member => bounds _ (List.mem_map_of_mem member)⟩

/-- The box that is widened from the first point on is tight. -/
theorem tight_foldl_widen (p : Point) (rest : List Point)
    (numbers : ∀ q ∈ p :: rest, q.isNumber) : (rest.foldl widen (ofPoint p)).Tight (p :: rest) := by
  have numberX : ∀ q ∈ p :: rest, q.x.isNaN = false := fun q member => by
    simpa using (Bool.and_eq_true_iff.mp (numbers q member)).1
  have numberY : ∀ q ∈ p :: rest, q.y.isNaN = false := fun q member => by
    simpa using (Bool.and_eq_true_iff.mp (numbers q member)).2
  obtain ⟨left, afterLeft⟩ := side_of_picks picks_lesser float_le_trans Point.x p rest numberX
  obtain ⟨bottom, above⟩ := side_of_picks picks_lesser float_le_trans Point.y p rest numberY
  obtain ⟨right, beforeRight⟩ := side_of_picks picks_greater
    (fun first second => float_le_trans second first) Point.x p rest numberX
  obtain ⟨top, below⟩ := side_of_picks picks_greater
    (fun first second => float_le_trans second first) Point.y p rest numberY
  rw [foldl_widen]
  exact ⟨fun q member => ⟨⟨afterLeft q member, beforeRight q member⟩, above q member,
    below q member⟩, left, bottom, right, top⟩

namespace Tight

variable {b c : Box} {points others : List Point}

theorem ordered (tight : b.Tight points) : b.minX ≤ b.maxX ∧ b.minY ≤ b.maxY := by
  obtain ⟨p, member, _⟩ := tight.left
  obtain ⟨⟨left, right⟩, bottom, top⟩ := tight.holds p member
  exact ⟨float_le_trans left right, float_le_trans bottom top⟩

/-- No side of a tight box lies inside another box of the same points. -/
theorem outside (tight : b.Tight points) (holds : ∀ p ∈ points, c.Holds p) :
    (c.minX ≤ b.minX ∧ b.maxX ≤ c.maxX) ∧ c.minY ≤ b.minY ∧ b.maxY ≤ c.maxY := by
  obtain ⟨p, onLeft, left⟩ := tight.left
  obtain ⟨q, onRight, right⟩ := tight.right
  obtain ⟨r, onBottom, bottom⟩ := tight.bottom
  obtain ⟨s, onTop, top⟩ := tight.top
  rw [← left, ← right, ← bottom, ← top]
  exact ⟨⟨(holds p onLeft).1.1, (holds q onRight).1.2⟩, (holds r onBottom).2.1,
    (holds s onTop).2.2⟩

/-- There is one tight box around the same points. -/
theorem same (tight : b.Tight points) (tight' : c.Tight others)
    (alike : ∀ p, p ∈ points ↔ p ∈ others) : b.same c := by
  obtain ⟨⟨left, right⟩, bottom, top⟩ :=
    tight'.outside (c := b) fun p member => tight.holds p ((alike p).mpr member)
  obtain ⟨⟨left', right'⟩, bottom', top'⟩ :=
    tight.outside (c := c) fun p member => tight'.holds p ((alike p).mp member)
  simp only [Box.same, Bool.and_eq_true]
  exact ⟨⟨⟨float_beq_of_le_of_le left left', float_beq_of_le_of_le bottom bottom'⟩,
    float_beq_of_le_of_le right' right⟩, float_beq_of_le_of_le top' top⟩

end Tight

end Box

/-- A tight box lies on the bed exactly if all of its points do. -/
theorem Machine.bedHolds_iff (machine : Machine) {b : Box} {points : List Point}
    (tight : b.Tight points) :
    machine.bedHolds b ↔ ∀ p ∈ points,
      (-bedSlack ≤ p.x ∧ p.x ≤ machine.width + bedSlack) ∧
        -bedSlack ≤ p.y ∧ p.y ≤ machine.height + bedSlack := by
  have bed : machine.bedHolds b ↔
      (-bedSlack ≤ b.minX ∧ b.maxX ≤ machine.width + bedSlack) ∧
        -bedSlack ≤ b.minY ∧ b.maxY ≤ machine.height + bedSlack := by
    simp only [bedHolds, Bool.and_eq_true, decide_eq_true_iff, ge_iff_le]
    tauto
  rw [bed]
  constructor
  · rintro ⟨⟨left, right⟩, bottom, top⟩ p member
    obtain ⟨⟨afterLeft, beforeRight⟩, above, below⟩ := tight.holds p member
    exact ⟨⟨float_le_trans left afterLeft, float_le_trans beforeRight right⟩,
      float_le_trans bottom above, float_le_trans below top⟩
  · intro inside
    exact tight.outside
      (c := ⟨-bedSlack, -bedSlack, machine.width + bedSlack, machine.height + bedSlack⟩) inside

namespace Job

/-- The points where the head starts or stops, in order. -/
def visits (job : Job) : List Point := job.moves.flatMap fun move => [move.start, move.stop]

theorem mem_visits {job : Job} {p : Point} :
    p ∈ job.visits ↔ ∃ move ∈ job.moves, p = move.start ∨ p = move.stop := by
  simp [visits]

/-- A job with moves has a tight box around the points that it visits. -/
theorem extents_tight (job : Job) (moving : job.moves ≠ [])
    (numbers : ∀ move ∈ job.moves, move.start.isNumber ∧ move.stop.isNumber) :
    ∃ b, job.extents = some b ∧ b.Tight job.visits := by
  have visited : ∀ p ∈ job.visits, p.isNumber := by
    intro p member
    obtain ⟨move, among, rfl | rfl⟩ := mem_visits.mp member
    · exact (numbers move among).1
    · exact (numbers move among).2
  change ∃ b, Box.ofPoints? job.visits = _ ∧ _
  cases known : job.visits with
  | nil =>
    obtain ⟨move, among⟩ := List.exists_mem_of_ne_nil _ moving
    have start : move.start ∈ job.visits := mem_visits.mpr ⟨move, among, .inl rfl⟩
    simp [known] at start
  | cons p rest =>
    rw [known] at visited
    exact ⟨_, rfl, Box.tight_foldl_widen p rest visited⟩

/-- The check of the box stands for a check of every point that the head visits: the box of a job
with moves is in order and tight around these points, whatever the order of the moves, and it lies
on the bed exactly if each of them does. -/
theorem bed_check_exact (job : Job) (machine : Machine) (moving : job.moves ≠ [])
    (numbers : ∀ move ∈ job.moves, move.start.isNumber ∧ move.stop.isNumber) :
    ∃ b, job.extents = some b ∧ (b.minX ≤ b.maxX ∧ b.minY ≤ b.maxY) ∧
      b.Tight job.visits ∧
      (∀ other : Job, other.moves.Perm job.moves →
        ∃ c, other.extents = some c ∧ c.same b) ∧
      (machine.bedHolds b ↔ ∀ move ∈ job.moves, ∀ p ∈ [move.start, move.stop],
        (-1e-6 ≤ p.x ∧ p.x ≤ machine.width + 1e-6) ∧
          -1e-6 ≤ p.y ∧ p.y ≤ machine.height + 1e-6) := by
  obtain ⟨b, extents, tight⟩ := job.extents_tight moving numbers
  refine ⟨b, extents, tight.ordered, tight, fun other reordered => ?_, ?_⟩
  · have members (move : Move) : move ∈ other.moves ↔ move ∈ job.moves := reordered.mem_iff
    obtain ⟨c, extents', tight'⟩ := other.extents_tight
      (fun still => moving (List.nil_perm.mp (still ▸ reordered)))
      fun move member => numbers move ((members move).mp member)
    refine ⟨c, extents', tight'.same tight fun p => ?_⟩
    simp only [mem_visits, members]
  · rw [machine.bedHolds_iff tight]
    exact List.forall_mem_flatMap

/-- A job that leaves the bed by a millimetre at one of its three stops. -/
theorem bed_check_exact_beyond :
    let out := Pass.cutMove ⟨"edge", 80, 10, false, 1, 1, 100⟩ 80 .vector ⟨0, 0⟩ ⟨301, 5⟩
    let back := Pass.cutMove ⟨"edge", 80, 10, false, 1, 1, 100⟩ 80 .vector ⟨301, 5⟩ ⟨2, -0.0⟩
    let job := Job.ofMoves [out, back]
    job.moves ≠ [] ∧ (∀ move ∈ job.moves, move.start.isNumber ∧ move.stop.isNumber) ∧
      job.extents = some ⟨0, 0, 301, 5⟩ ∧
      (Box.mk 0 0 301 5).Tight job.visits ∧
      ¬ Machine.standard.bedHolds ⟨0, 0, 301, 5⟩ ∧
      ∃ c, (Job.ofMoves [back, out]).extents = some c ∧ c.same ⟨0, 0, 301, 5⟩ := by
  intro out back job
  have moving : job.moves ≠ [] := by simp [job, ofMoves]
  have numbers : ∀ move ∈ job.moves, move.start.isNumber ∧ move.stop.isNumber := by
    simp only [job, ofMoves, List.forall_mem_cons]
    decide
  have box : job.extents = some ⟨0, 0, 301, 5⟩ := by decide
  obtain ⟨b, extents, _, tight, reordered, _⟩ := bed_check_exact job .standard moving numbers
  cases extents.symm.trans box
  exact ⟨moving, numbers, box, tight, by decide, reordered (ofMoves [back, out]) (.swap ..)⟩

end Job

end LaserCutter
