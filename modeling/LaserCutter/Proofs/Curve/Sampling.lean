import LaserCutter.Curve.Sampling
import LaserCutter.Proofs.Number.Binary64
import LaserCutter.Proofs.Number.RunningSums

/-!
# Which paths can be sampled

The tables of a measured path and of a measured curve are never looked up outside. What can go wrong
is the length of the path: no offset lies on a path whose length is not a number, and the steps of a
path that is too long are more than 32 bits count. A length that is not NaN and at most
`longestPath` is sampled, and no other (`samples_isOk_iff`).
-/

namespace LaserCutter

open Number

namespace MeasuredCubic

theorem length_lengthsUpTo (curve : Cubic) (n : Nat) : (lengthsUpTo curve n).length = n + 1 := by
  induction n with
  | zero => rfl
  | succ n ih => rw [lengthsUpTo, List.length_cons, ih]

/-- The interval of the table that is looked up and the one behind it are in the table. -/
theorem interval_lt (curve : Cubic) (s : Float) :
    (ofCubic curve).interval s + 1 < (ofCubic curve).lengths.length := by
  have last : (ofCubic curve).interval s ≤ tableSteps - 1 := Nat.min_le_right _ _
  have steps : tableSteps = 32 := rfl
  rw [ofCubic, List.length_reverse, length_lengthsUpTo]
  change (ofCubic curve).interval s + 1 < tableSteps + 1
  omega

end MeasuredCubic

namespace Path

theorem length_piecesFrom (start : Point) (segments : List Segment) (seen : List Piece) :
    (piecesFrom start segments seen).1.length = seen.length + segments.length := by
  induction segments generalizing start seen with
  | nil => simp [piecesFrom]
  | cons segment rest ih => cases segment <;> simp [piecesFrom, ih] <;> omega

theorem pieces_eq_nil_iff (path : Path) : path.pieces = [] ↔ path.segments = [] := by
  have count := length_piecesFrom path.start path.segments []
  unfold pieces
  dsimp only
  constructor
  · intro noPieces
    split at noPieces
    · simp at noPieces
    · rw [noPieces] at count
      exact List.eq_nil_of_length_eq_zero (by simpa using count.symm)
  · intro noSegments
    rw [noSegments] at count ⊢
    simpa using count

end Path

namespace MeasuredPath

theorem length_ends (path : Path) :
    (ofPath path).ends.length = (ofPath path).pieces.length := by
  rw [ofPath, length_runningSums, List.length_map]

/-- An offset lies on a path exactly if the length of the path is not negative and not NaN. -/
theorem pointAt_isOk_iff (m : MeasuredPath) (offset : Float) :
    (m.pointAt offset).isOk ↔ 0 ≤ m.length := by
  unfold pointAt clamp?
  by_cases measured : 0 ≤ m.length
  · simp [measured, Except.isOk, Except.toBool]
  · simp [measured, Except.isOk, Except.toBool]

/-- A path that has a segment has a point at every offset that lies on it. -/
theorem pointAt_eq_none_iff (path : Path) (offset : Float) :
    (ofPath path).pointAt offset = .ok none ↔ path.segments = [] := by
  rw [← Path.pieces_eq_nil_iff]
  constructor
  · intro missed
    have pieces : (ofPath path).pieces = path.pieces := rfl
    unfold pointAt at missed
    split at missed
    · contradiction
    · rw [← pieces]
      have outside :=
        List.getElem?_eq_none_iff.mp (Option.map_eq_none_iff.mp (Except.ok.inj missed))
      exact List.eq_nil_of_length_eq_zero (by omega)
  · intro noSegments
    have empty : ofPath path = ⟨[], []⟩ := by
      unfold ofPath
      rw [noSegments]
      rfl
    have zero : (0 : Float) ≤ 0 := by decide
    rw [empty]
    simp [pointAt, clamp?, length, zero]

/-- Sampling goes on up to the first multiple of the step that reaches the length. -/
theorem sampleFrom_isOk_iff (m : MeasuredPath) (step length : Float) (measured : 0 ≤ m.length)
    (steps k : Nat) (last : Point) (kept : List Point) :
    (m.sampleFrom step length steps k last kept).isOk ↔
      ∃ j, k ≤ j ∧ j < k + steps ∧ length ≤ j.toUInt64.toFloat * step := by
  induction steps generalizing k last kept with
  | zero =>
    constructor
    · intro sampled
      simp [sampleFrom, Except.isOk, Except.toBool] at sampled
    · rintro ⟨j, low, high, _⟩
      omega
  | succ steps ih =>
    unfold sampleFrom
    dsimp only
    split
    · rename_i reached
      exact ⟨fun _ => ⟨k, le_rfl, by omega, reached⟩, fun _ => rfl⟩
    · rename_i before
      have later : (∃ j, k + 1 ≤ j ∧ j < k + 1 + steps ∧ length ≤ j.toUInt64.toFloat * step) ↔
          ∃ j, k ≤ j ∧ j < k + (steps + 1) ∧ length ≤ j.toUInt64.toFloat * step := by
        constructor
        · rintro ⟨j, low, high, reached⟩
          exact ⟨j, by omega, by omega, reached⟩
        · rintro ⟨j, low, high, reached⟩
          have other : j ≠ k := by
            rintro rfl
            exact before reached
          exact ⟨j, by omega, by omega, reached⟩
      have placed := (m.pointAt_isOk_iff (k.toUInt64.toFloat * step)).mpr measured
      split
      · rename_i missed
        rw [missed] at placed
        contradiction
      · rw [ih, later]
      · split <;> rw [ih, later]

end MeasuredPath

/-- The longest path that is sampled, in millimetres. -/
def longestPath : Float := 2147483647.5

theorem longestPath_eq : longestPath = (UInt32.size - 1).toUInt64.toFloat * sampleSpacing := by
  decide

namespace MeasuredPath

/-- The multiples of the spacing grow up to the longest path. -/
theorem le_longestPath {j : Nat} (steps : j < UInt32.size) :
    j.toUInt64.toFloat * sampleSpacing ≤ longestPath := by
  have size : UInt32.size = 2 ^ 32 := rfl
  rw [longestPath_eq]
  have whole (n : Nat) (small : n < 2 ^ 32) : n.toUInt64.toNat = n := by
    simp only [Nat.toUInt64, UInt64.toNat_ofNat']
    omega
  refine mul_half_mono ?_ ?_
  · rw [whole j (by omega), whole _ (by omega)]
    omega
  · rw [whole _ (by omega)]
    omega

/-- The samples at the multiples of the spacing are found exactly if the path is not too long. -/
theorem sampleFrom_start_isOk_iff (m : MeasuredPath) (length : Float) (measured : 0 ≤ m.length)
    (last : Point) (kept : List Point) :
    (m.sampleFrom sampleSpacing length (UInt32.size - 1) 1 last kept).isOk ↔
      length ≤ longestPath := by
  rw [sampleFrom_isOk_iff _ _ _ measured]
  constructor
  · rintro ⟨j, _, high, reached⟩
    exact float_le_trans reached (le_longestPath (by omega))
  · intro short
    exact ⟨UInt32.size - 1, by decide, by decide, longestPath_eq ▸ short⟩

end MeasuredPath

namespace Path

theorem two_le_vertexCount {path : Path} (filled : path.segments ≠ []) :
    ¬ path.vertexCount < 2 := by
  have positive := List.length_pos_iff.mpr filled
  unfold vertexCount
  omega

/-- A measured path with a segment has a point at every offset. -/
theorem exists_pointAt {path : Path} (filled : path.segments ≠ [])
    (measured : 0 ≤ (MeasuredPath.ofPath path).length) (offset : Float) :
    ∃ p, (MeasuredPath.ofPath path).pointAt offset = .ok (some p) := by
  have onPath := ((MeasuredPath.ofPath path).pointAt_isOk_iff offset).mpr measured
  have found := mt (MeasuredPath.pointAt_eq_none_iff path offset).mp filled
  cases known : (MeasuredPath.ofPath path).pointAt offset with
  | error fault =>
    rw [known] at onPath
    contradiction
  | ok point =>
    cases point with
    | none => exact absurd known found
    | some p => exact ⟨p, rfl⟩

/-- On a measured path that is not shorter than the least move, sampling can only run out of steps.
-/
theorem samples_isOk_iff_short {path : Path} (filled : path.segments ≠ [])
    (moves : ¬ (MeasuredPath.ofPath path).length < leastMove)
    (measured : 0 ≤ (MeasuredPath.ofPath path).length) :
    (path.samples sampleSpacing).isOk ↔ (MeasuredPath.ofPath path).length ≤ longestPath := by
  have step : (0 : Float) < sampleSpacing := by decide
  obtain ⟨start, placed⟩ := exists_pointAt filled measured 0
  have stop := ((MeasuredPath.ofPath path).pointAt_isOk_iff
    (MeasuredPath.ofPath path).length).mpr measured
  rw [← (MeasuredPath.ofPath path).sampleFrom_start_isOk_iff _ measured start [start]]
  simp only [samples, two_le_vertexCount filled, step, moves, placed, decide_false, decide_true,
    Bool.not_true, Bool.or_self, Bool.false_eq_true, if_false, bind, Except.bind]
  cases (MeasuredPath.ofPath path).sampleFrom sampleSpacing (MeasuredPath.ofPath path).length
    (UInt32.size - 1) 1 start [start] with
  | error fault => rfl
  | ok sampled =>
    refine iff_of_true ?_ rfl
    dsimp only
    split
    · rfl
    · cases last : (MeasuredPath.ofPath path).pointAt (MeasuredPath.ofPath path).length with
      | error fault =>
        rw [last] at stop
        contradiction
      | ok stop => cases stop <;> rfl

/-- A path is sampled exactly if it has no segment or its length is at most the longest one; in
particular its length is then not NaN. -/
theorem samples_isOk_iff (path : Path) :
    (path.samples sampleSpacing).isOk ↔
      path.segments = [] ∨ (MeasuredPath.ofPath path).length ≤ longestPath := by
  have least : leastMove ≤ longestPath := by decide
  have positive : (0 : Float) ≤ leastMove := by decide
  have step : (0 : Float) < sampleSpacing := by decide
  by_cases empty : path.segments = []
  · have vertices : path.vertexCount < 2 := by simp [vertexCount, empty]
    simp [samples, vertices, empty, Except.isOk, Except.toBool, pure, Except.pure]
  by_cases tiny : (MeasuredPath.ofPath path).length < leastMove
  · have short := float_le_trans (float_le_of_lt tiny) least
    simp [samples, tiny, short, Except.isOk, Except.toBool, pure, Except.pure]
  by_cases measured : 0 ≤ (MeasuredPath.ofPath path).length
  · simp [samples_isOk_iff_short empty tiny measured, empty]
  · -- A length that is neither below the least move nor measured is NaN.
    have long : ¬ (MeasuredPath.ofPath path).length ≤ longestPath := by
      intro short
      rcases float_lt_or_le short least with less | above
      · exact tiny less
      · exact measured (float_le_trans positive above)
    have lost := mt ((MeasuredPath.ofPath path).pointAt_isOk_iff 0).mp measured
    refine iff_of_false ?_ (not_or.mpr ⟨empty, long⟩)
    simp only [samples, two_le_vertexCount empty, step, tiny, decide_false, decide_true,
      Bool.not_true, Bool.or_self, Bool.false_eq_true, if_false, bind, Except.bind]
    cases first : (MeasuredPath.ofPath path).pointAt 0 with
    | error fault => exact Bool.false_ne_true
    | ok start =>
      rw [first] at lost
      exact absurd rfl lost

end Path

end LaserCutter
