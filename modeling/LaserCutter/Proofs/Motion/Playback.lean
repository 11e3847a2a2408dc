import LaserCutter.Motion.Playhead
import LaserCutter.Proofs.Number.GrowingSums
import LaserCutter.Proofs.Number.Spans

/-!
# Where the head is played back

No move takes a negative time, since no length is negative; so the times after the moves of a job
that ends are in order. A time of the job is then in exactly one move, the first that is not over
before it, and a part of that move is done which grows with the time (`Job.headAt_locates`).
-/

namespace LaserCutter

open Number

/-- A move that takes a finite time is finite, and takes no negative time. -/
theorem Move.duration_nonneg {move : Move} (finite : isFinite move.duration) :
    0 ≤ move.duration := by
  unfold duration at finite ⊢
  have long : 0 ≤ move.length := hypotenuse_nonneg_of_isFinite (isFinite_of_div finite)
  split
  · rename_i moving
    rw [if_pos moving] at finite
    exact div_nonneg_of_isFinite long moving finite
  · rename_i still
    rw [if_neg still] at finite
    exact div_nonneg_of_isFinite long (by decide) finite

namespace Job

/-- The time when the move at `index` starts. -/
def startTime (job : Job) (index : Nat) : Float :=
  if index = 0 then 0 else job.elapsed.getD (index - 1) 0

/-- What is done of a move during it: all of it if it takes no time, and else the part of its span
that has passed. -/
theorem fractionAt_cases {job : Job} {index : Nat} {now : Float} {a b n : ℚ}
    (start : Stands .binary64 (exact (job.startTime index)) a)
    (stop : Stands .binary64 (exact (job.elapsed.getD index 0)) b)
    (time : Stands .binary64 (exact now) n) (nonneg : 0 ≤ a) (low : a ≤ n) (high : n ≤ b) :
    (nearest .binary64 (b - a) = 0 ∧ job.fractionAt index now = 1) ∨
      (0 < nearest .binary64 (b - a) ∧
        Stands .binary64 (exact (job.fractionAt index now)) (roundedPart a b n)) := by
  have span := stands_span start stop nonneg (low.trans high)
  have unfolded : job.fractionAt index now =
      if 0 < job.elapsed.getD index 0 - job.startTime index then
        lesser ((now - job.startTime index) / (job.elapsed.getD index 0 - job.startTime index)) 1
      else 1 := rfl
  rw [unfolded]
  split
  · rename_i positive
    have lasts := (float_lt_iff_of_stands stands_zero span).mp positive
    have part := stands_part start stop time nonneg low high lasts
    have most := (roundedPart_bounds lasts low high).2
    have notAbove := (float_le_iff_of_stands part stands_one).mpr most
    right
    rwa [lesser_eq_left notAbove, and_iff_right lasts]
  · rename_i instant
    have zero : nearest .binary64 (b - a) = 0 := by
      refine le_antisymm ?_ (nearest_nonneg _ (sub_nonneg.mpr (low.trans high)))
      exact not_lt.mp fun lasts => instant ((float_lt_iff_of_stands stands_zero span).mpr lasts)
    exact .inl ⟨zero, rfl⟩

/-- The times after the moves of a job are finite, and in order from zero on. -/
structure Timed (job : Job) : Prop where
  counted : job.elapsed.length = job.moves.length
  finite : ∀ time ∈ (0 : Float) :: job.elapsed, isFinite time
  ordered : ((0 : Float) :: job.elapsed).Pairwise (· ≤ ·)

theorem timed_ofMoves {moves : List Move} (finite : isFinite (ofMoves moves).totalTime) :
    (ofMoves moves).Timed := by
  have grows : ∀ time ∈ moves.map Move.duration, isFinite time → 0 ≤ time := by
    intro time member
    obtain ⟨move, _, rfl⟩ := List.mem_map.mp member
    exact Move.duration_nonneg
  obtain ⟨all, ordered⟩ := runningSumsFrom_grow 0 (moves.map Move.duration) finite grows
  refine ⟨?_, all, ordered⟩
  rw [ofMoves, length_runningSums, List.length_map]

theorem startTime_eq (job : Job) (index : Nat) :
    job.startTime index = ((0 : Float) :: job.elapsed).getD index 0 := by
  cases index <;> rfl

namespace Timed

variable {job : Job} (timed : job.Timed)

include timed

/-- The times at both ends of a move. -/
theorem exists_span {index : Nat} (within : index < job.elapsed.length) :
    ∃ a b, Stands .binary64 (exact (job.startTime index)) a ∧
      Stands .binary64 (exact (job.elapsed.getD index 0)) b ∧ 0 ≤ a := by
  have within' : index < ((0 : Float) :: job.elapsed).length := Nat.lt_succ_of_lt within
  rw [startTime_eq, List.getD_eq_getElem _ _ within, List.getD_eq_getElem _ _ within']
  obtain ⟨a, start, _⟩ := exists_stands (timed.finite _ (List.getElem_mem within'))
  obtain ⟨b, stop, _⟩ :=
    exists_stands (timed.finite _ (List.mem_cons_of_mem _ (List.getElem_mem within)))
  refine ⟨a, b, start, stop, (float_le_iff_of_stands stands_zero start).mp ?_⟩
  cases index with
  | zero => exact float_le_self_of_number rfl
  | succ before => exact (List.pairwise_cons.mp timed.ordered).1 _ (List.getElem_mem _)

theorem totalTime_nonneg : 0 ≤ job.totalTime := last_nonneg timed.ordered

end Timed

/-- The first move that is not over before `now`, or else the last one. -/
def firstOpen (job : Job) (now : Float) : Nat :=
  min (job.elapsed.takeWhile (· < now)).length (job.elapsed.length - 1)

/-- A time of the job is in the move at `index`: that one is not over before it, and all the moves
in front are. -/
structure Holds (job : Job) (now : Float) (index : Nat) : Prop where
  bound : index < job.moves.length
  reached : now ≤ job.elapsed.getD index 0
  least : ∀ i < index, job.elapsed.getD i 0 < now

theorem Timed.holds_firstOpen {job : Job} (timed : job.Timed) (moving : job.moves ≠ [])
    {now : Float} (high : now ≤ job.totalTime) : job.Holds now (job.firstOpen now) := by
  obtain ⟨before, reached⟩ := takeWhile_split (· < now) job.elapsed
  have counted := timed.counted
  have positive := List.length_pos_iff.mpr moving
  have total : job.totalTime = job.elapsed.getD (job.elapsed.length - 1) 0 := by
    rw [totalTime, List.getLast?_eq_getElem?, List.getD_eq_getElem?_getD]
  have within : (job.elapsed.takeWhile (· < now)).length < job.elapsed.length := by
    by_contra all
    have last := before (job.elapsed.length - 1) (by omega)
    exact float_not_lt_of_le high (total ▸ last)
  have first : job.firstOpen now = (job.elapsed.takeWhile (· < now)).length := by
    unfold firstOpen
    omega
  rw [first]
  refine ⟨by omega, ?_, before⟩
  have number : (job.elapsed.getD (job.elapsed.takeWhile (· < now)).length 0).isNaN = false := by
    rw [List.getD_eq_getElem _ _ within]
    exact (numbers_of_float_le
      ((List.pairwise_cons.mp timed.ordered).1 _ (List.getElem_mem within))).2
  exact float_le_of_not_lt (numbers_of_float_le high).1 number (reached within)

theorem Holds.mono {job : Job} {now later : Float} {index next : Nat} (holds : job.Holds now index)
    (behind : job.Holds later next) (le : now ≤ later) : index ≤ next := by
  by_contra before
  exact float_not_lt_of_le (float_le_trans le behind.reached) (holds.least next (by omega))

theorem Holds.startTime_le {job : Job} {now : Float} {index : Nat} (holds : job.Holds now index)
    (nonneg : 0 ≤ now) : job.startTime index ≤ now := by
  cases index with
  | zero => exact nonneg
  | succ before => exact float_le_of_lt (holds.least before (Nat.lt_succ_self before))

/-- What is done of a move at a time that is in it. -/
theorem Holds.part {job : Job} {now : Float} {index : Nat} {a b : ℚ} (holds : job.Holds now index)
    (nonneg : 0 ≤ now) (start : Stands .binary64 (exact (job.startTime index)) a)
    (stop : Stands .binary64 (exact (job.elapsed.getD index 0)) b) (first : 0 ≤ a) :
    ∃ n, Stands .binary64 (exact now) n ∧ a ≤ n ∧ n ≤ b ∧
      ((nearest .binary64 (b - a) = 0 ∧ job.fractionAt index now = 1) ∨
        (0 < nearest .binary64 (b - a) ∧
          Stands .binary64 (exact (job.fractionAt index now)) (roundedPart a b n))) := by
  obtain ⟨n, time, low, high⟩ := stands_between start stop (holds.startTime_le nonneg) holds.reached
  exact ⟨n, time, low, high, fractionAt_cases start stop time first low high⟩

section fraction

variable {job : Job} (timed : job.Timed) {now : Float} {index : Nat}
  (holds : job.Holds now index) (nonneg : 0 ≤ now)

include timed holds nonneg

theorem fractionAt_bounds : 0 ≤ job.fractionAt index now ∧ job.fractionAt index now ≤ 1 := by
  obtain ⟨a, b, start, stop, first⟩ := timed.exists_span (timed.counted ▸ holds.bound)
  obtain ⟨n, _, low, high, ⟨_, whole⟩ | ⟨lasts, part⟩⟩ := holds.part nonneg start stop first
  · rw [whole]
    exact ⟨by decide, by decide⟩
  · obtain ⟨least, most⟩ := roundedPart_bounds lasts low high
    exact ⟨(float_le_iff_of_stands stands_zero part).mpr least,
      (float_le_iff_of_stands part stands_one).mpr most⟩

theorem fractionAt_mono {later : Float} (behind : job.Holds later index) (le : now ≤ later) :
    job.fractionAt index now ≤ job.fractionAt index later := by
  obtain ⟨a, b, start, stop, first⟩ := timed.exists_span (timed.counted ▸ holds.bound)
  obtain ⟨n, time, _, _, cases⟩ := holds.part nonneg start stop first
  obtain ⟨k, time', _, _, cases'⟩ := behind.part (float_le_trans nonneg le) start stop first
  have order := (float_le_iff_of_stands time time').mp le
  -- Whether the move takes any time does not depend on the time.
  obtain ⟨instant, whole⟩ | ⟨lasts, part⟩ := cases
  · obtain ⟨_, whole'⟩ | ⟨lasts', _⟩ := cases'
    · rw [whole, whole']
      decide
    · exact absurd instant lasts'.ne'
  · obtain ⟨instant', _⟩ | ⟨_, part'⟩ := cases'
    · exact absurd instant' lasts.ne'
    · exact (float_le_iff_of_stands part part').mpr (roundedPart_mono lasts order)

/-- A move that has begun and is not done is strictly between its ends. -/
theorem within_of_fractionAt (begun : 0 < job.fractionAt index now)
    (undone : job.fractionAt index now < 1) :
    job.startTime index < now ∧ now < job.elapsed.getD index 0 := by
  obtain ⟨a, b, start, stop, first⟩ := timed.exists_span (timed.counted ▸ holds.bound)
  obtain ⟨n, time, low, high, ⟨_, whole⟩ | ⟨lasts, part⟩⟩ := holds.part nonneg start stop first
  · rw [whole] at undone
    exact absurd undone (by decide)
  · have positive := (float_lt_iff_of_stands stands_zero part).mp begun
    have less := (float_lt_iff_of_stands part stands_one).mp undone
    rw [float_lt_iff_of_stands start time, float_lt_iff_of_stands time stop]
    constructor
    · refine low.lt_of_ne ?_
      rintro rfl
      exact positive.ne' roundedPart_start
    · refine high.lt_of_ne ?_
      rintro rfl
      exact less.ne (roundedPart_stop lasts)

end fraction

/-- The head at a time that counts as `now`. -/
theorem headAt_eq {job : Job} {time now : Float} (clock : clamp? 0 job.totalTime time = some now)
    (within : job.firstOpen now < job.moves.length) :
    ∃ head, job.headAt time = .ok (some head) ∧ head.index = job.firstOpen now ∧
      job.moves[head.index]? = some head.move ∧
      head.fraction = job.fractionAt head.index now ∧
      head.position = head.move.start.lerp head.move.stop head.fraction := by
  have nonempty : job.moves.isEmpty = false :=
    List.isEmpty_eq_false_iff.mpr (List.ne_nil_of_length_pos (Nat.zero_lt_of_lt within))
  have found := List.getElem?_eq_getElem within
  generalize job.moves[job.firstOpen now] = move at found
  let fraction := job.fractionAt (job.firstOpen now) now
  refine ⟨⟨job.firstOpen now, move, move.start.lerp move.stop fraction, fraction⟩, ?_, rfl, found,
    rfl, rfl⟩
  simp only [headAt, nonempty, clock]
  rw [if_neg Bool.false_ne_true]
  exact congrArg (fun found => Except.ok (Option.map _ found)) found

/-- The head at a time that is not a number is at the end of the first move. -/
theorem of_isNaN {job : Job} {time : Float} (isNaN : time.isNaN = true)
    (ordered : 0 ≤ job.totalTime) :
    clamp? 0 job.totalTime time = some time ∧ job.firstOpen time = 0 ∧
      ∀ index, job.fractionAt index time = 1 := by
  refine ⟨?_, ?_, fun index => ?_⟩
  · rw [clamp?, if_pos ordered, if_neg (not_isNaN_lt isNaN 0), if_neg (not_lt_of_isNaN isNaN _)]
  · unfold firstOpen
    cases job.elapsed with
    | nil => rfl
    | cons first rest =>
      rw [List.takeWhile_cons_of_neg (by simpa using not_lt_of_isNaN isNaN first)]
      rfl
  · unfold fractionAt
    dsimp only
    rw [lesser_of_isNaN (isNaN_div_left (isNaN_sub_left isNaN)), ite_self]

/-- The head is where it should be at a time. A time of the job is in the move at the head's index;
the head burns only in a cut, strictly between its ends. -/
structure Locates (job : Job) (time : Float) (head : Playhead) : Prop where
  move : job.moves[head.index]? = some head.move
  position : head.position = head.move.start.lerp head.move.stop head.fraction
  fraction : 0 ≤ head.fraction ∧ head.fraction ≤ 1
  holds : time.isNaN = false →
    ∃ now, clamp? 0 job.totalTime time = some now ∧ 0 ≤ now ∧ now ≤ job.totalTime ∧
      job.Holds now head.index
  burning : head.burning → head.move.isCut ∧
    ∃ now, clamp? 0 job.totalTime time = some now ∧
      job.startTime head.index < now ∧ now < job.elapsed.getD head.index 0

theorem Timed.exists_locates {job : Job} (timed : job.Timed) (moving : job.moves ≠ []) (time : Float) :
    ∃ head, job.headAt time = .ok (some head) ∧ job.Locates time head := by
  have total := timed.totalTime_nonneg
  by_cases number : time.isNaN = false
  · obtain ⟨now, clock, nonneg, high⟩ := clamp?_bounds total number
    have holds := timed.holds_firstOpen moving high
    obtain ⟨head, found, index, move, fraction, position⟩ := headAt_eq clock holds.bound
    rw [← index] at holds
    refine ⟨head, found, move, position, ?_, fun _ => ⟨now, clock, nonneg, high, holds⟩, ?_⟩
    · rw [fraction]
      exact fractionAt_bounds timed holds nonneg
    · intro burning
      simp only [Playhead.burning, Bool.and_eq_true, decide_eq_true_eq, fraction] at burning
      obtain ⟨⟨cut, begun⟩, undone⟩ := burning
      exact ⟨cut, now, clock, within_of_fractionAt timed holds nonneg begun undone⟩
  · rw [Bool.not_eq_false] at number
    obtain ⟨clock, first, whole⟩ := of_isNaN number total
    obtain ⟨head, found, index, move, fraction, position⟩ :=
      headAt_eq clock (first ▸ List.length_pos_iff.mpr moving)
    rw [whole] at fraction
    refine ⟨head, found, move, position, ?_, fun other => ?_, fun burning => ?_⟩
    · rw [fraction]
      exact ⟨by decide, by decide⟩
    · rw [number] at other
      contradiction
    · simp [Playhead.burning, fraction] at burning
      exact absurd burning.2 (by decide)

/-- Of two times of which neither is behind the other, the head is not further at the first. -/
theorem Timed.headAt_mono {job : Job} (timed : job.Timed) {earlier later : Float}
    {first second : Playhead} (le : earlier ≤ later) (found : job.headAt earlier = .ok (some first))
    (found' : job.headAt later = .ok (some second)) :
    first.index ≤ second.index ∧ (first.index = second.index → first.fraction ≤ second.fraction) := by
  have moving : job.moves ≠ [] := by
    intro still
    simp [headAt, still] at found
  have total := timed.totalTime_nonneg
  obtain ⟨number, number'⟩ := numbers_of_float_le le
  obtain ⟨now, clock, nonneg, high⟩ := clamp?_bounds total number
  obtain ⟨now', clock', nonneg', high'⟩ := clamp?_bounds total number'
  have holds := timed.holds_firstOpen moving high
  have holds' := timed.holds_firstOpen moving high'
  obtain ⟨_, known, index, _, fraction, _⟩ := headAt_eq clock holds.bound
  obtain ⟨_, known', index', _, fraction', _⟩ := headAt_eq clock' holds'.bound
  cases found.symm.trans known
  cases found'.symm.trans known'
  rw [← index] at holds
  rw [← index'] at holds'
  have order := clamp?_mono le clock clock'
  refine ⟨holds.mono holds' order, fun same => ?_⟩
  rw [fraction, fraction', ← same]
  exact fractionAt_mono timed holds nonneg (same ▸ holds') order

/-- Playback of a job that takes a finite time, wherever its moves lead and at whatever speeds: the
times after its moves are in order, at every time the head is where it should be, and with the time
the head gets further. -/
theorem headAt_locates (moves : List Move) (moving : moves ≠ [])
    (finite : isFinite (ofMoves moves).totalTime) :
    (ofMoves moves).elapsed.Pairwise (· ≤ ·) ∧
      (∀ time, ∃ head, (ofMoves moves).headAt time = .ok (some head) ∧
        (ofMoves moves).Locates time head) ∧
      ∀ earlier later first second, earlier ≤ later →
        (ofMoves moves).headAt earlier = .ok (some first) →
        (ofMoves moves).headAt later = .ok (some second) →
        first.index ≤ second.index ∧
          (first.index = second.index → first.fraction ≤ second.fraction) := by
  have timed := timed_ofMoves finite
  exact ⟨(List.pairwise_cons.mp timed.ordered).2, timed.exists_locates moving,
    fun _ _ _ _ le => timed.headAt_mono le⟩

/-- Halfway through the cut of a job that starts with a move on the spot. -/
theorem headAt_locates_halfway :
    let rest := Move.home .origin 50
    let cut := Pass.cutMove ⟨"edge", 80, 10, false, 1, 1, 100⟩ 80 .vector ⟨0, 0⟩ ⟨3, 4⟩
    let job := Job.ofMoves [rest, cut]
    job.moves ≠ [] ∧ isFinite job.totalTime ∧ job.elapsed = [0, 0.5] ∧
      ∃ head, job.headAt 0.25 = .ok (some head) ∧ job.Locates 0.25 head ∧
        head.index = 1 ∧ head.burning ∧ head.position = ⟨1.5, 2⟩ := by
  intro rest cut job
  have moving : job.moves ≠ [] := by simp [job, ofMoves]
  have elapsed : job.elapsed = [0, 0.5] := by decide +kernel
  have finite : isFinite job.totalTime := by
    rw [totalTime, elapsed]
    decide
  obtain ⟨_, located, _⟩ := headAt_locates job.moves moving finite
  obtain ⟨head, found, locates⟩ := located 0.25
  have known : job.headAt 0.25 = .ok (some ⟨1, cut, ⟨1.5, 2⟩, 0.5⟩) := by decide +kernel
  cases found.symm.trans known
  exact ⟨moving, finite, elapsed, _, found, locates, rfl, by decide, rfl⟩

end Job

end LaserCutter
