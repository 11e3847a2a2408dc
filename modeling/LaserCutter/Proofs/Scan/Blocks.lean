import LaserCutter.Proofs.Number.Zeros
import LaserCutter.Proofs.Scan.Inside
import LaserCutter.Proofs.Scan.Merging
import LaserCutter.Proofs.Toolpath.Order
import LaserCutter.Proofs.Toolpath.Success

/-!
# The moves of a scan

A scan comes block by block, one for each scan line (`Crosses`): at most a rapid, and then cuts to
coordinates along the line (`Pass.strokes`). Where the laser burns, the cuts lead from one edge of the
image or centre of a pixel to another one; what leads into the image and out of it has no power.
-/

namespace LaserCutter

open Number

namespace Pass

variable (pass : Pass) (place : Float → Point)

/-- Cuts one after the other, each to a coordinate along a scan line and with a power. -/
def strokes : Point → List (Float × Float) → List Move
  | _, [] => []
  | start, (along, power) :: rest =>
    pass.cutMove power .image start (place along) :: strokes (place along) rest

/-- Where the cuts lead. -/
def strokesStop : Point → List (Float × Float) → Point
  | start, [] => start
  | _, (along, _) :: rest => strokesStop (place along) rest

theorem chain_cuts (start : Point) (targets : List (Float × Float)) :
    Leg.chain (targets.map fun target => pass.cut target.2 .image (place target.1)) start =
      ⟨pass.strokes place start targets, strokesStop place start targets⟩ := by
  induction targets generalizing start with
  | nil => rfl
  | cons target rest ih =>
    rw [List.map_cons, Leg.chain_cons, Leg.andThen, ih]
    rfl

variable {pass place} {start : Point} {targets : List (Float × Float)}

theorem strokes_append (front back : List (Float × Float)) :
    pass.strokes place start (front ++ back) = pass.strokes place start front ++
      pass.strokes place (strokesStop place start front) back := by
  induction front generalizing start with
  | nil => rfl
  | cons target rest ih => simp [strokes, strokesStop, ih]

theorem length_strokes : (pass.strokes place start targets).length = targets.length := by
  induction targets generalizing start with
  | nil => rfl
  | cons target rest ih => exact congrArg (· + 1) ih

theorem strokesStop_concat (front : List (Float × Float)) (along power : Float) :
    strokesStop place start (front ++ [(along, power)]) = place along := by
  induction front generalizing start with
  | nil => rfl
  | cons target rest ih => exact ih

/-- Each of the cuts leads to one of the targets, from the start if it is the first one, and else
from a target before the last one. -/
theorem mem_strokes {cut : Move} (member : cut ∈ pass.strokes place start targets) :
    cut.isCut ∧ (∃ target ∈ targets, cut.stop = place target.1 ∧ cut.power = target.2) ∧
      ((pass.strokes place start targets).head? = some cut ∧ cut.start = start ∨
        ∃ target ∈ targets.dropLast, cut.start = place target.1) := by
  induction targets generalizing start with
  | nil => contradiction
  | cons target rest ih =>
    rcases List.mem_cons.mp member with rfl | behind
    · exact ⟨rfl, ⟨target, by simp, rfl, rfl⟩, .inl ⟨rfl, rfl⟩⟩
    · obtain ⟨isCut, ⟨goal, among, leads⟩, starts⟩ := ih behind
      have further : rest ≠ [] := by
        rintro rfl
        contradiction
      rw [List.dropLast_cons_of_ne_nil further]
      refine ⟨isCut, ⟨goal, .tail _ among, leads⟩, .inr ?_⟩
      rcases starts with ⟨_, first⟩ | ⟨before, among, later⟩
      · exact ⟨target, by simp, first⟩
      · exact ⟨before, .tail _ among, later⟩

theorem filter_strokes : (pass.strokes place start targets).filter Move.isCut =
    pass.strokes place start targets :=
  List.filter_eq_self.mpr fun _ member => (mem_strokes member).1

/-- The head is taken to a point by a rapid, unless it is near that already. -/
inductive Approaches (pass : Pass) (stop start : Point) : Leg → Prop
  | near (near : start.near stop leastMove) : Approaches pass stop start (.stay start)
  | far (far : ¬ start.near stop leastMove) :
    Approaches pass stop start ⟨[pass.rapidMove start stop], stop⟩

theorem approaches_rapid (pass : Pass) (stop start : Point) :
    pass.Approaches stop start (pass.rapid stop start) := by
  unfold rapid
  split
  · exact .near ‹_›
  · exact .far ‹_›

theorem eq_rapidMove_of_mem {stop : Point} {move : Move}
    (member : move ∈ (pass.rapid stop start).moves) : move = pass.rapidMove start stop := by
  unfold rapid at member
  split at member
  · contradiction
  · exact List.mem_singleton.mp member

end Pass

section runs

variable {α : Type}

theorem stop_of_mem_runsFrom {stop start : α} {power : Float} {ahead : List (α × Float)} {run : Run α}
    (member : run ∈ runsFrom stop start power ahead) :
    run.stop = stop ∨ run.stop ∈ ahead.map Prod.fst := by
  induction ahead generalizing start power with
  | nil =>
    rw [List.mem_singleton.mp member]
    exact .inl rfl
  | cons pixel ahead ih =>
    rw [runsFrom] at member
    split at member
    · rcases List.mem_cons.mp member with rfl | behind
      · exact .inr (.head _)
      · exact (ih behind).imp_right (.tail _)
    · exact (ih member).imp_right (.tail _)

/-- A run stops at the edge that is reached last or at the centre of a pixel. -/
theorem stop_of_mem_runsOf {low high : α} {centre : Nat → α} {powers : List Float} {reverse : Bool}
    {run : Run α} (member : run ∈ runsOf low high centre powers reverse) :
    run.stop = (if reverse then low else high) ∨ ∃ i < powers.length, run.stop = centre i := by
  rw [runsOf_walk] at member
  cases walked : walk powers reverse with
  | nil => simp [walked] at member
  | cons first ahead =>
    rw [walked] at member
    refine (stop_of_mem_runsFrom member).imp_right fun among => ?_
    obtain ⟨pixel, crossed, stops⟩ : ∃ pixel ∈ ahead, centre pixel.1 = run.stop := by
      simpa using among
    have walkedOver : pixel ∈ walk powers reverse := walked ▸ .tail _ crossed
    exact ⟨pixel.1, lt_length_of_mem_walk walkedOver, stops.symm⟩

end runs

namespace ScanDirection

/-- The point with a coordinate along the scan line whose coordinate across is `across`. -/
def on (direction : ScanDirection) (across along : Float) : Point := direction.point along across

/-- The coordinate of a point along the scan lines. -/
def alongOf : ScanDirection → Point → Float
  | .horizontal, p => p.x
  | .vertical, p => p.y

/-- The coordinate of a point across the scan lines. -/
def acrossOf : ScanDirection → Point → Float
  | .horizontal, p => p.y
  | .vertical, p => p.x

@[simp] theorem alongOf_on (direction : ScanDirection) (across along : Float) :
    direction.alongOf (direction.on across along) = along := by cases direction <;> rfl

@[simp] theorem acrossOf_on (direction : ScanDirection) (across along : Float) :
    direction.acrossOf (direction.on across along) = across := by cases direction <;> rfl

end ScanDirection

namespace ScanLine

/-- An edge of the image, as a number, or the centre of one of its pixels. -/
def Mark (line : ScanLine) (x : Float) : Prop :=
  x == line.low ∨ x == line.high ∨
    ∃ i < line.burns.length, x = pixelCentre line.burns.length line.low line.high i

/-- Between the edges of the image, whichever of them is the lower one. -/
def Inside (line : ScanLine) (x : Float) : Prop :=
  line.low ≤ x ∧ x ≤ line.high ∨ line.high ≤ x ∧ x ≤ line.low

/-- The marks of a line lie inside the image. -/
theorem Mark.inside {line : ScanLine} {x : Float} (mark : line.Mark x) (low : isFinite line.low)
    (high : isFinite line.high) (finite : isFinite (line.high - line.low))
    (few : line.burns.length ≤ 2 ^ 50) : line.Inside x := by
  obtain ⟨a, standsA, _⟩ := exists_stands low
  obtain ⟨b, standsB, _⟩ := exists_stands high
  have total : line.low ≤ line.high ∨ line.high ≤ line.low := by
    rw [float_le_iff_of_stands standsA standsB, float_le_iff_of_stands standsB standsA]
    exact le_total a b
  have self {y : Float} (equal : x == y) : x ≤ y ∧ y ≤ x := by
    obtain ⟨p, atX, atY⟩ := beq_iff_place.mp equal
    exact ⟨le_iff_place.mpr ⟨p, atX, p, atY, le_rfl⟩, le_iff_place.mpr ⟨p, atY, p, atX, le_rfl⟩⟩
  rcases mark with equal | equal | ⟨i, inside, rfl⟩
  · obtain ⟨below, above⟩ := self equal
    exact total.imp (fun order => ⟨above, float_le_trans below order⟩)
      fun order => ⟨float_le_trans order above, below⟩
  · obtain ⟨below, above⟩ := self equal
    exact total.imp (fun order => ⟨float_le_trans order above, below⟩)
      fun order => ⟨above, float_le_trans below order⟩
  · exact pixelCentre_between inside (by omega) (by omega) low high finite

/-- The target of a lead, which has no power. -/
def leadTarget (overscan along : Float) : List (Float × Float) :=
  if 0 < overscan then [(along, 0)] else []

/-- What is cut on the way to the far edge: the coordinates along the line and the powers. -/
def inner (line : ScanLine) (power overscan : Float) : List (Float × Float) :=
  leadTarget overscan line.edgeIn ++ (line.runs power).map fun run => (run.stop, run.power)

/-- What is cut on the way across the image and out of it. -/
def targets (line : ScanLine) (power overscan : Float) : List (Float × Float) :=
  line.inner power overscan ++ leadTarget overscan (line.exit overscan)

variable (line : ScanLine) (pass : Pass) (overscan : Float) (place : Float → Point)

theorem lead_eq (along : Float) : lead pass overscan (place along) =
    (leadTarget overscan along).map fun target => pass.cut target.2 .image (place target.1) := by
  unfold lead leadTarget
  split <;> rfl

/-- A scan line is a rapid to its entry, which may be left out, and then cuts. -/
theorem route_eq_strokes (position : Point) (pixels : line.burns ≠ []) {leg : Leg}
    (driven : line.route pass overscan place position = .ok leg) :
    let travel := pass.rapid (place (line.entry overscan)) position
    leg = ⟨travel.moves ++ pass.strokes place travel.stop (line.targets pass.power overscan),
      Pass.strokesStop place travel.stop (line.targets pass.power overscan)⟩ := by
  intro travel
  rw [line.route_eq pass overscan place position pixels] at driven
  split at driven
  · have parts : [pass.rapid (place (line.entry overscan))] ++
        lead pass overscan (place line.edgeIn) ++
        (line.runs pass.power).map (fun run => pass.cut run.power .image (place run.stop)) ++
        lead pass overscan (place (line.exit overscan)) =
        pass.rapid (place (line.entry overscan)) :: (line.targets pass.power overscan).map
          fun target => pass.cut target.2 .image (place target.1) := by
      simp [targets, inner, lead_eq]
    injection driven with crossed
    rw [← crossed, crossing, ← Leg.chain_append, parts, Leg.chain_cons, Leg.andThen,
      Pass.chain_cuts]
  · contradiction

end ScanLine

/-- What the moves for one scan line do, from where the head is to where they leave it. `across` is
the coordinate of the line on the other axis. -/
structure Crosses (direction : ScanDirection) (line : ScanLine) (across overscan : Float)
    (start : Point) (moves : List Move) (stop : Point) : Prop where
  joined : Joined start moves stop
  /-- At most a rapid to the entry, if the head is not near it, and then cuts. -/
  travel : let entry := direction.on across (line.entry overscan)
    if start.near entry leastMove then moves.filter Move.isCut = moves
    else ∃ rapid, moves = rapid :: moves.filter Move.isCut ∧ ¬ rapid.isCut ∧ rapid.stop = entry
  level : ∀ move ∈ moves, direction.acrossOf move.stop = across
  /-- The laser burns between marks of the line. Only without overscan the first cut starts where the
  head is, if that is near the edge. -/
  burning : ∀ cut ∈ moves, cut.isCut → cut.power != 0 →
    line.Mark (direction.alongOf cut.stop) ∧
      (line.Mark (direction.alongOf cut.start) ∨
        ¬ 0 < overscan ∧ moves.head? = some cut ∧ cut.start = start ∧
          start.near (direction.on across line.edgeIn) leastMove)
  lead_in : 0 < overscan → ∃ cut rest, moves.filter Move.isCut = cut :: rest ∧ 2 ≤ rest.length ∧
    cut.power = 0 ∧ cut.stop = direction.on across line.edgeIn ∧
    (cut.start = direction.on across (line.entry overscan) ∨
      moves.head? = some cut ∧ cut.start = start ∧
        start.near (direction.on across (line.entry overscan)) leastMove)
  lead_out : 0 < overscan → ∃ front cut, moves = front ++ [cut] ∧ cut.isCut ∧ cut.power = 0 ∧
    cut.start = direction.on across line.edgeOut ∧
    cut.stop = direction.on across (line.exit overscan)
  /-- The last of the runs stops at the far edge; behind it there is only the lead-out. -/
  reaches : ∃ front last out, moves = front ++ last :: out ∧ last.isCut ∧
    last.stop = direction.on across line.edgeOut ∧ out.length = if 0 < overscan then 1 else 0

namespace ScanLine

variable {line : ScanLine} {power overscan : Float}

theorem mark_inner (low : line.low == line.low) (high : line.high == line.high) :
    ∀ target ∈ line.inner power overscan, line.Mark target.1 := by
  intro target member
  rcases List.mem_append.mp member with lead | run
  · unfold leadTarget at lead
    split at lead
    · rw [List.mem_singleton.mp lead]
      unfold edgeIn
      split
      · exact .inr (.inl high)
      · exact .inl low
    · contradiction
  · obtain ⟨run, among, rfl⟩ := List.mem_map.mp run
    rcases stop_of_mem_runsOf among with edge | ⟨i, inside, centre⟩
    · dsimp only
      rw [edge]
      split
      · exact .inl low
      · exact .inr (.inl high)
    · exact .inr (.inr ⟨i, by simpa using inside, centre⟩)

/-- The way to the far edge ends there, with the last run. -/
theorem inner_eq_concat (power overscan : Float) (pixels : line.burns ≠ []) :
    ∃ front last, line.inner power overscan = front ++ [(line.edgeOut, last)] ∧
      (0 < overscan → ∃ rest, front = (line.edgeIn, 0) :: rest) := by
  obtain ⟨front, last, runs, stop⟩ := line.runs_eq_concat power pixels
  refine ⟨leadTarget overscan line.edgeIn ++ front.map fun run => (run.stop, run.power), last.power,
    by simp [inner, runs, stop], fun positive => ?_⟩
  rw [leadTarget, if_pos positive]
  exact ⟨_, rfl⟩

/-- Without overscan the entry is the edge itself, up to the sign of a zero. -/
theorem entry_cases (line : ScanLine) {overscan : Float} {s : Float.Model.UnpackedFloat.Sign}
    (flat : exact overscan = .zero s) :
    line.entry overscan = line.edgeIn ∨
      ∃ t t', exact line.edgeIn = .zero t ∧ exact (line.entry overscan) = .zero t' := by
  unfold entry edgeIn
  split
  · exact add_zero_cases line.high flat
  · exact sub_zero_cases line.low flat

theorem mark_of_beq_edgeIn {x : Float} (equal : x == line.edgeIn) : line.Mark x := by
  unfold edgeIn at equal
  split at equal
  · exact .inr (.inl equal)
  · exact .inl equal

theorem mark_entry (low : line.low == line.low) (high : line.high == line.high)
    {s : Float.Model.UnpackedFloat.Sign} (flat : exact overscan = .zero s) :
    line.Mark (line.entry overscan) := by
  apply mark_of_beq_edgeIn
  rcases line.entry_cases flat with same | ⟨t, t', edge, entry⟩
  · rw [same]
    unfold edgeIn
    split
    · exact high
    · exact low
  · exact beq_of_zeros entry edge

/-- Without overscan near the entry is near the edge. -/
theorem near_edgeIn (direction : ScanDirection) (across : Float)
    {s : Float.Model.UnpackedFloat.Sign} (flat : exact overscan = .zero s) {start : Point}
    (near : start.near (direction.on across (line.entry overscan)) leastMove) :
    start.near (direction.on across line.edgeIn) leastMove := by
  rcases line.entry_cases flat with same | ⟨t, t', edge, entry⟩
  · rwa [← same]
  · have apart := abs_zero_sub edge entry
    cases direction <;>
      simp only [Point.near, ScanDirection.on, ScanDirection.point, apart] at near ⊢ <;>
      exact near

section strokes

variable {pass : Pass} {cut : Move}

/-- The cuts of a line come to the far edge, and go on from there with the lead-out at most. -/
theorem strokes_targets (pass : Pass) (place : Float → Point) (start : Point)
    (power overscan : Float) (pixels : line.burns ≠ []) :
    ∃ front last, pass.strokes place start (line.targets power overscan) =
        front ++ last :: pass.strokes place (place line.edgeOut)
          (leadTarget overscan (line.exit overscan)) ∧
      last.isCut ∧ last.stop = place line.edgeOut ∧
      (0 < overscan → ∃ rest, front = pass.cutMove 0 .image start (place line.edgeIn) :: rest) := by
  obtain ⟨front, last, inner, leads⟩ := line.inner_eq_concat power overscan pixels
  refine ⟨pass.strokes place start front,
    pass.cutMove last .image (Pass.strokesStop place start front) (place line.edgeOut), ?_, rfl, rfl,
    fun positive => ?_⟩
  · rw [targets, Pass.strokes_append, inner, Pass.strokesStop_concat, Pass.strokes_append,
      List.append_assoc]
    rfl
  · obtain ⟨rest, rfl⟩ := leads positive
    exact ⟨_, rfl⟩

theorem mem_inner_of_mem_dropLast {target : Float × Float}
    (member : target ∈ (line.targets power overscan).dropLast) :
    target ∈ line.inner power overscan := by
  unfold targets leadTarget at member
  split at member
  · rwa [List.dropLast_concat] at member
  · rw [List.append_nil] at member
    exact List.mem_of_mem_dropLast member

/-- A lead has no power, so what burns leads from mark to mark. Only the first cut can start
elsewhere, and with overscan that is the lead-in. -/
theorem burning_strokes {direction : ScanDirection} {across : Float} {start : Point}
    (low : line.low == line.low) (high : line.high == line.high) (pixels : line.burns ≠ [])
    (member : cut ∈ pass.strokes (direction.on across) start (line.targets power overscan))
    (burns : cut.power != 0) :
    line.Mark (direction.alongOf cut.stop) ∧
      (line.Mark (direction.alongOf cut.start) ∨ ¬ 0 < overscan ∧
        (pass.strokes (direction.on across) start (line.targets power overscan)).head? = some cut ∧
        cut.start = start) := by
  have dark : ¬ ((0 : Float) != 0) = true := by decide
  obtain ⟨_, ⟨target, among, stop, power'⟩, starts⟩ := Pass.mem_strokes member
  constructor
  · rw [stop, ScanDirection.alongOf_on]
    rcases List.mem_append.mp among with within | out
    · exact mark_inner low high target within
    · unfold leadTarget at out
      split at out
      · rw [power', List.mem_singleton.mp out] at burns
        exact absurd burns dark
      · contradiction
  · rcases starts with ⟨first, here⟩ | ⟨before, among, there⟩
    · refine .inr ⟨fun positive => ?_, first, here⟩
      obtain ⟨front, last, split, _, _, leads⟩ :=
        strokes_targets pass (direction.on across) start power overscan pixels
      obtain ⟨rest, rfl⟩ := leads positive
      rw [split] at first
      injection first with lead
      rw [← lead] at burns
      exact absurd burns dark
    · rw [there, ScanDirection.alongOf_on]
      exact .inl (mark_inner low high before (mem_inner_of_mem_dropLast among))

end strokes

section crossed

variable {direction : ScanDirection} {pass : Pass} {across : Float} {start : Point} {travel : Leg}
  (approach : pass.Approaches (direction.on across (line.entry overscan)) start travel)

/-- The moves for a scan line: the travel to its entry, and its cuts. -/
def crossed (line : ScanLine) (direction : ScanDirection) (pass : Pass) (across overscan : Float)
    (travel : Leg) : List Move :=
  travel.moves ++
    pass.strokes (direction.on across) travel.stop (line.targets pass.power overscan)

include approach

theorem filter_crossed : (line.crossed direction pass across overscan travel).filter Move.isCut =
    pass.strokes (direction.on across) travel.stop (line.targets pass.power overscan) := by
  rw [crossed, List.filter_append, Pass.filter_strokes]
  cases approach <;> rfl

theorem travel_crossed : let entry := direction.on across (line.entry overscan)
    let moves := line.crossed direction pass across overscan travel
    if start.near entry leastMove then moves.filter Move.isCut = moves
    else ∃ rapid, moves = rapid :: moves.filter Move.isCut ∧ ¬ rapid.isCut ∧
      rapid.stop = entry := by
  intro entry moves
  rw [filter_crossed approach]
  cases approach with
  | near near =>
    rw [if_pos near]
    rfl
  | far far =>
    rw [if_neg far]
    exact ⟨_, rfl, Bool.false_ne_true, rfl⟩

theorem level_crossed : ∀ move ∈ line.crossed direction pass across overscan travel,
    direction.acrossOf move.stop = across := by
  intro move member
  rcases List.mem_append.mp member with rapid | cut
  · cases approach with
    | near => contradiction
    | far =>
      rw [List.mem_singleton.mp rapid]
      exact direction.acrossOf_on across _
  · obtain ⟨_, ⟨target, _, stop, _⟩, _⟩ := Pass.mem_strokes cut
    rw [stop, ScanDirection.acrossOf_on]

theorem burning_crossed (known : 0 < overscan ∨ ∃ s, exact overscan = .zero s)
    (low : line.low == line.low) (high : line.high == line.high) (pixels : line.burns ≠ []) :
    let moves := line.crossed direction pass across overscan travel
    ∀ cut ∈ moves, cut.isCut → cut.power != 0 →
      line.Mark (direction.alongOf cut.stop) ∧
        (line.Mark (direction.alongOf cut.start) ∨
          ¬ 0 < overscan ∧ moves.head? = some cut ∧ cut.start = start ∧
            start.near (direction.on across line.edgeIn) leastMove) := by
  intro moves cut member isCut burns
  have member : cut ∈ moves.filter Move.isCut := List.mem_filter.mpr ⟨member, isCut⟩
  rw [filter_crossed approach] at member
  obtain ⟨stop, mark | ⟨flush, first, here⟩⟩ := burning_strokes low high pixels member burns
  · exact ⟨stop, .inl mark⟩
  · obtain ⟨s, flat⟩ := known.resolve_left flush
    cases approach with
    | near near => exact ⟨stop, .inr ⟨flush, first, here, near_edgeIn direction across flat near⟩⟩
    | far =>
      refine ⟨stop, .inl ?_⟩
      rw [here, ScanDirection.alongOf_on]
      exact mark_entry low high flat

theorem lead_in_crossed (pixels : line.burns ≠ []) (positive : 0 < overscan) :
    let moves := line.crossed direction pass across overscan travel
    ∃ cut rest, moves.filter Move.isCut = cut :: rest ∧ 2 ≤ rest.length ∧
      cut.power = 0 ∧ cut.stop = direction.on across line.edgeIn ∧
      (cut.start = direction.on across (line.entry overscan) ∨
        moves.head? = some cut ∧ cut.start = start ∧
          start.near (direction.on across (line.entry overscan)) leastMove) := by
  intro moves
  obtain ⟨front, last, split, _, _, leads⟩ :=
    strokes_targets pass (direction.on across) travel.stop pass.power overscan pixels
  obtain ⟨rest, rfl⟩ := leads positive
  refine ⟨_, _, (filter_crossed approach).trans split, ?_, rfl, rfl, ?_⟩
  · rw [leadTarget, if_pos positive]
    simp [Pass.strokes]
  · cases approach with
    | near near => exact .inr ⟨congrArg List.head? split, rfl, near⟩
    | far => exact .inl rfl

omit approach

theorem lead_out_crossed (travel : Leg) (pixels : line.burns ≠ []) (positive : 0 < overscan) :
    ∃ front cut, line.crossed direction pass across overscan travel = front ++ [cut] ∧
      cut.isCut ∧ cut.power = 0 ∧ cut.start = direction.on across line.edgeOut ∧
      cut.stop = direction.on across (line.exit overscan) := by
  obtain ⟨front, last, split, _⟩ :=
    strokes_targets pass (direction.on across) travel.stop pass.power overscan pixels
  refine ⟨travel.moves ++ front ++ [last], pass.cutMove 0 .image (direction.on across line.edgeOut)
    (direction.on across (line.exit overscan)), ?_, rfl, rfl, rfl, rfl⟩
  rw [crossed, split, leadTarget, if_pos positive]
  simp [Pass.strokes]

theorem reaches_crossed (travel : Leg) (pixels : line.burns ≠ []) :
    ∃ front last out, line.crossed direction pass across overscan travel = front ++ last :: out ∧
      last.isCut ∧ last.stop = direction.on across line.edgeOut ∧
      out.length = if 0 < overscan then 1 else 0 := by
  obtain ⟨front, last, split, isCut, edge, _⟩ :=
    strokes_targets pass (direction.on across) travel.stop pass.power overscan pixels
  refine ⟨travel.moves ++ front, last, _, by rw [crossed, split, List.append_assoc], isCut, edge, ?_⟩
  rw [Pass.length_strokes, leadTarget]
  split <;> rfl

end crossed

/-- A scan line with a pixel is crossed as `Crosses` says. -/
theorem crosses_route (direction : ScanDirection) (pass : Pass) (across overscan : Float)
    (known : 0 < overscan ∨ ∃ s, exact overscan = .zero s) (pixels : line.burns ≠ [])
    (low : line.low == line.low) (high : line.high == line.high) {start : Point} {leg : Leg}
    (driven : line.route pass overscan (direction.on across) start = .ok leg) :
    Crosses direction line across overscan start leg.moves leg.stop := by
  have joined := line.unbroken_route pass overscan _ start leg driven
  have approach := pass.approaches_rapid (direction.on across (line.entry overscan)) start
  have moves := congrArg Leg.moves (line.route_eq_strokes pass overscan _ start pixels driven)
  change leg.moves = line.crossed direction pass across overscan _ at moves
  rw [moves] at joined ⊢
  exact {
    joined := joined
    travel := travel_crossed approach
    level := level_crossed approach
    burning := burning_crossed approach known low high pixels
    lead_in := lead_in_crossed approach pixels
    lead_out := lead_out_crossed _ pixels
    reaches := reaches_crossed _ pixels }

end ScanLine

theorem RasterSettings.boxLines_lt (settings : RasterSettings) (box : Box) :
    settings.boxLines box < 2 ^ 64 := by
  unfold boxLines lineCount
  have small := (round (((settings.scanDirection.across box).2 -
    (settings.scanDirection.across box).1) / settings.spacing)).toUInt64.toNat_lt
  omega

/-- All scan lines that cross the box lie at finite places. -/
def RasterSettings.Reaches (settings : RasterSettings) (box : Box) : Prop :=
  ∀ i < settings.boxLines box, Number.isFinite (settings.lineAcross box (settings.boxLines box) i)

theorem RasterSettings.reaches_of_few (settings : RasterSettings) {box : Box}
    (finite : box.isFinite) (few : settings.boxLines box ≤ 2 ^ 50) : settings.Reaches box :=
  fun _ inside =>
    settings.isFinite_lineAcross finite (settings.boxLines_lt box) inside (inside.trans_le few)

namespace GrayField

/-- Scan line `i` of `count`. -/
def line (burn : GrayField) (box : Box) (settings : RasterSettings) (count i : Nat) : ScanLine :=
  let direction := settings.scanDirection
  let (low, high) := direction.along box
  ⟨direction.values burn (fieldIndex i count (direction.size burn)), low, high,
    settings.bidirectional && i % 2 == 1⟩

variable (burn : GrayField) (box : Box) (settings : RasterSettings) (pass : Pass)

theorem scanLine_eq (count i : Nat) : burn.scanLine box settings pass count i =
    (burn.line box settings count i).route pass (greater settings.overscan 0)
      (settings.scanDirection.on (settings.lineAcross box count i)) := rfl

theorem line_ne_nil (width : burn.width ≠ 0) (height : burn.height ≠ 0) (count i : Nat) :
    (burn.line box settings count i).burns ≠ [] :=
  settings.scanDirection.values_ne_nil width height _

theorem line_edges {box : Box} (finite : box.isFinite) (count i : Nat) :
    let line := burn.line box settings count i
    (line.low == line.low) = true ∧ (line.high == line.high) = true := by
  obtain ⟨low, high, _⟩ := settings.scanDirection.isFinite_along finite
  exact ⟨beq_self_of_isFinite low, beq_self_of_isFinite high⟩

theorem isFinite_farEdge {box : Box} (finite : box.isFinite) (count i : Nat) :
    (settings.farEdge box count i).isFinite ↔ isFinite (settings.lineAcross box count i) := by
  obtain ⟨low, high, _⟩ := settings.scanDirection.isFinite_along finite
  have along : isFinite (if settings.bidirectional && i % 2 == 1 then
      (settings.scanDirection.along box).1 else (settings.scanDirection.along box).2) := by
    split
    · exact low
    · exact high
  cases direction : settings.scanDirection <;>
    simp_all [RasterSettings.farEdge, RasterSettings.lineAcross, Point.isFinite, ScanDirection.point]

/-- A scan breaks off only at an edge that is not reached. -/
theorem fault_scan {position : Point} {fault : RouteFault}
    (broken : burn.scan box settings pass position = .error fault) : fault = .lostEdge := by
  unfold scan at broken
  split at broken
  · cases broken
  · change Route.numbered (burn.scanLine box settings pass (settings.boxLines box))
      (settings.boxLines box) position = _ at broken
    rw [Route.numbered_eq_chain] at broken
    obtain ⟨route, member, start, breaks⟩ := Route.chain_eq_error broken
    obtain ⟨i, _, rfl⟩ := List.mem_map.mp member
    rw [scanLine_eq] at breaks
    unfold ScanLine.route at breaks
    dsimp only at breaks
    split at breaks
    · cases breaks
    · exact (Except.error.inj breaks).symm

/-- A field is scanned exactly if all scan lines lie at finite places. -/
theorem isOk_scan_iff (position : Point) (width : burn.width ≠ 0) (height : burn.height ≠ 0)
    (dpi : 0 < settings.dpi) {box : Box} (finite : box.isFinite) :
    (burn.scan box settings pass position).isOk ↔ settings.Reaches box := by
  rw [burn.isOk_scan box settings pass position]
  simp only [width, height, dpi, not_true, false_or, isFinite_farEdge settings finite]
  rfl

theorem scan_eq_lostEdge (position : Point) (width : burn.width ≠ 0) (height : burn.height ≠ 0)
    (dpi : 0 < settings.dpi) {box : Box} (finite : box.isFinite) (lost : ¬ settings.Reaches box) :
    burn.scan box settings pass position = .error .lostEdge := by
  rw [← burn.isOk_scan_iff settings pass position width height dpi finite] at lost
  cases driven : burn.scan box settings pass position with
  | error fault => rw [burn.fault_scan box settings pass driven]
  | ok leg =>
    rw [driven] at lost
    exact absurd rfl lost

theorem length_line (count i : Nat) : (burn.line box settings count i).burns.length =
    match settings.scanDirection with
    | .horizontal => burn.width
    | .vertical => burn.height := by
  unfold line
  cases settings.scanDirection <;> simp [ScanDirection.values, row, column]

/-- A scan that comes to its end consists of one block for each scan line. -/
theorem blocks_scan (width : burn.width ≠ 0) (height : burn.height ≠ 0) (dpi : 0 < settings.dpi)
    {box : Box} (finite : box.isFinite) {position : Point} {leg : Leg}
    (scanned : burn.scan box settings pass position = .ok leg) :
    let count := settings.boxLines box
    ∃ blocks, leg.moves = blocks.flatten ∧ blocks.length = count ∧
      Threaded (fun i => Crosses settings.scanDirection (burn.line box settings count i)
        (settings.lineAcross box count i) (greater settings.overscan 0)) position (List.range count)
        blocks leg.stop := by
  intro count
  unfold scan at scanned
  rw [if_neg (by simp [width, height, dpi])] at scanned
  change Route.numbered (burn.scanLine box settings pass count) count position = _ at scanned
  rw [Route.numbered_eq_chain] at scanned
  obtain ⟨blocks, threaded, moves⟩ := Route.chain_eq_ok.mp scanned
  refine ⟨blocks, moves, ?_, threaded.imp fun i start block stop driven => ?_⟩
  · rw [threaded.length_eq, List.length_range]
  · have pixels := burn.line_ne_nil box settings width height count i
    obtain ⟨low, high⟩ := burn.line_edges settings finite count i
    rw [scanLine_eq] at driven
    exact ScanLine.crosses_route settings.scanDirection pass _ _
      (greater_zero_cases settings.overscan) pixels low high driven

/-- A field that is not empty is scanned block by block, one block for each scan line in order, and
each is what `Crosses` says: so the laser burns between marks of the line, and these lie inside the
image. That holds if all scan lines lie at finite places, as they do where there are at most
`2 ^ 50` of them; otherwise the scan breaks off. Overscan that is not positive counts as none. -/
theorem scan_blocks (position : Point) (width : burn.width ≠ 0) (height : burn.height ≠ 0)
    (dpi : 0 < settings.dpi) (finite : box.isFinite) :
    let count := settings.boxLines box
    let overscan := greater settings.overscan 0
    let line := burn.line box settings count
    (settings.Reaches box → ∃ leg blocks, burn.scan box settings pass position = .ok leg ∧
        leg.moves = blocks.flatten ∧ blocks.length = count ∧
        Threaded (fun i => Crosses settings.scanDirection (line i)
          (settings.lineAcross box count i) overscan) position (List.range count) blocks
          leg.stop) ∧
      (count ≤ 2 ^ 50 → settings.Reaches box) ∧
      (¬ settings.Reaches box → burn.scan box settings pass position = .error .lostEdge) ∧
      (burn.width ≤ 2 ^ 50 → burn.height ≤ 2 ^ 50 →
        ∀ i < count, ∀ x, (line i).Mark x → (line i).Inside x) ∧
      (if 0 < settings.overscan then overscan = settings.overscan else ¬ 0 < overscan) := by
  intro count overscan line
  refine ⟨fun reaches => ?_, fun few => settings.reaches_of_few finite few,
    burn.scan_eq_lostEdge settings pass position width height dpi finite,
    fun columns rows i _ x mark => ?_, greater_zero_eq settings.overscan⟩
  · have isOk := (burn.isOk_scan_iff settings pass position width height dpi finite).mpr reaches
    cases scanned : burn.scan box settings pass position with
    | error fault =>
      rw [scanned] at isOk
      contradiction
    | ok leg =>
      obtain ⟨blocks, moves, length, threaded⟩ :=
        burn.blocks_scan settings pass width height dpi finite scanned
      exact ⟨leg, blocks, rfl, moves, length, threaded⟩
  · obtain ⟨low, high, extent⟩ := settings.scanDirection.isFinite_along finite
    have few : (line i).burns.length ≤ 2 ^ 50 := by
      rw [burn.length_line box settings count i]
      split
      · exact columns
      · exact rows
    exact mark.inside low high extent few

/-- Two lines with overscan, the second of them backwards. -/
theorem scan_blocks_two_lines :
    let burn : GrayField := ⟨2, 1, #[0, 255]⟩
    let box : Box := ⟨0, 0, 2, 2⟩
    let settings : RasterSettings := { RasterSettings.standard with dpi := 25.4, overscan := 1 }
    let pass : Pass := ⟨"engrave", 80, 100, false, 1, 1, 200⟩
    burn.width ≠ 0 ∧ burn.height ≠ 0 ∧ 0 < settings.dpi ∧ box.isFinite ∧
      ∃ leg blocks, burn.scan box settings pass .origin = .ok leg ∧ leg.moves = blocks.flatten ∧
        Threaded (fun i => Crosses .horizontal (burn.line box settings 2 i)
          (settings.lineAcross box 2 i) 1) .origin [0, 1] blocks leg.stop := by
  intro burn box settings pass
  have dpi : 0 < settings.dpi := by decide
  have lines : settings.boxLines box = 2 := by decide +kernel
  have overscan : greater settings.overscan 0 = 1 := by decide
  obtain ⟨scanned, reaches, _⟩ :=
    scan_blocks burn box settings pass .origin (by decide) (by decide) dpi (by decide)
  obtain ⟨leg, blocks, driven, moves, _, threaded⟩ := scanned (reaches (by rw [lines]; decide))
  rw [lines, overscan] at threaded
  exact ⟨by decide, by decide, dpi, by decide, leg, blocks, driven, moves, threaded⟩

/-- More than `2 ^ 50` lines on a box that is as high as numbers go: the place of the last one is
infinite, and no scan comes past it. -/
theorem lost_last_line :
    let burn : GrayField := ⟨1, 1, #[255]⟩
    let box : Box := ⟨0, 0, 2, 1.7976931348623157e308⟩
    let settings : RasterSettings := { RasterSettings.standard with dpi := 1.2728678089624876e-291 }
    let pass : Pass := ⟨"engrave", 80, 100, false, 1, 1, 200⟩
    burn.width ≠ 0 ∧ burn.height ≠ 0 ∧ 0 < settings.dpi ∧ box.isFinite ∧
      settings.boxLines box = 9008762684090952 ∧
      settings.lineAcross box 9008762684090952 9008762684090951 = 1 / 0 ∧
      ∀ position, burn.scan box settings pass position = .error .lostEdge := by
  intro burn box settings pass
  have dpi : 0 < settings.dpi := by decide +kernel
  have finite : box.isFinite := by decide +kernel
  have lines : settings.boxLines box = 9008762684090952 := by decide +kernel
  have last : settings.lineAcross box 9008762684090952 9008762684090951 = 1 / 0 := by
    decide +kernel
  refine ⟨by decide, by decide, dpi, finite, lines, last, fun position => ?_⟩
  refine burn.scan_eq_lostEdge settings pass position (by decide) (by decide) dpi finite ?_
  intro reaches
  have reached := reaches 9008762684090951 (by rw [lines]; decide)
  rw [lines, last] at reached
  exact absurd reached (by decide)

end GrayField

end LaserCutter
