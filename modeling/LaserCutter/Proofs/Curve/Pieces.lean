import LaserCutter.Proofs.Curve.Sampling
import LaserCutter.Proofs.Number.Multiples
import LaserCutter.Proofs.Number.Spans

/-!
# Samples lie on pieces

Whatever the lengths of a path are, sampling asks its pieces only for points at lengths that are not
NaN (`Path.onPieces_of_samples`).
-/

namespace LaserCutter

open Number

/-- A point of one of the pieces, at a length that is not NaN. -/
def OnPieces (pieces : List Piece) (p : Point) : Prop :=
  ∃ piece ∈ pieces, ∃ s : Float, s.isNaN = false ∧ p = piece.pointAt s

theorem MeasuredPath.onPieces_of_pointAt {m : MeasuredPath} {offset : Float} {p : Point}
    (number : offset.isNaN = false) (found : m.pointAt offset = .ok (some p)) :
    OnPieces m.pieces p := by
  unfold pointAt at found
  split at found
  · contradiction
  rename_i now clamped
  obtain ⟨piece, known, rfl⟩ := Option.map_eq_some_iff.mp (Except.ok.inj found)
  refine ⟨piece, List.mem_of_getElem? known, _, ?_, rfl⟩
  have number : now.isNaN = false := by
    unfold clamp? at clamped
    split at clamped
    · rename_i ordered
      obtain ⟨_, same, low, _⟩ := clamp?_bounds ordered number
      rw [clamp?, if_pos ordered, clamped] at same
      cases same
      exact (numbers_of_float_le low).2
    · contradiction
  split
  · change (exact (now - 0)).isNaN = false
    rw [exact_sub_zero]
    exact number
  · -- The pieces in front end before the offset.
    exact number_sub_of_lt ((takeWhile_split (· < now) m.ends).1 _ (by omega))

theorem MeasuredPath.onPieces_of_sampleFrom {m : MeasuredPath} {step length : Float}
    (positive : 0 < step) {steps k : Nat} (counted : 1 ≤ k) (small : k + steps ≤ UInt32.size)
    {last final : Point} {earlier kept : List Point} (seen : ∀ p ∈ earlier, OnPieces m.pieces p)
    (sampled : m.sampleFrom step length steps k last earlier = .ok (final, kept)) :
    ∀ p ∈ kept, OnPieces m.pieces p := by
  induction steps generalizing k last earlier with
  | zero => contradiction
  | succ steps ih =>
    have number := (numbers_of_float_le
      (multiple_mono positive counted le_rfl (show k < UInt32.size by omega))).1
    have rest {next : Point} {seen : List Point} (on : ∀ p ∈ seen, OnPieces m.pieces p) :
        m.sampleFrom step length steps (k + 1) next seen = .ok (final, kept) →
          ∀ p ∈ kept, OnPieces m.pieces p := ih (by omega) (by omega) on
    unfold sampleFrom at sampled
    dsimp only at sampled
    split at sampled
    · cases sampled
      exact seen
    · split at sampled
      · contradiction
      · exact rest seen sampled
      · rename_i p found
        split at sampled
        · exact rest seen sampled
        · exact rest (List.forall_mem_cons.mpr ⟨onPieces_of_pointAt number found, seen⟩) sampled

/-- Every sample of a path is a point of one of its pieces, at a length that is not NaN. -/
theorem Path.onPieces_of_samples {path : Path} {step : Float} {points : List Point}
    (sampled : path.samples step = .ok points) : ∀ p ∈ points, OnPieces path.pieces p := by
  by_cases few : path.vertexCount < 2 || !(0 < step)
  · rw [samples, if_pos few] at sampled
    cases sampled
    exact List.forall_mem_nil _
  by_cases tiny : (MeasuredPath.ofPath path).length < leastMove
  · simp only [samples, if_neg few, if_pos tiny] at sampled
    cases sampled
    exact List.forall_mem_nil _
  simp only [samples, if_neg few, if_neg tiny, bind, Except.bind, pure, Except.pure] at sampled
  split at sampled
  · contradiction
  rename_i start? first
  cases start? with
  | none =>
    cases sampled
    exact List.forall_mem_nil _
  | some start =>
    have positive : 0 < step := by
      by_contra backwards
      exact few (by simp [backwards])
    have started := MeasuredPath.onPieces_of_pointAt rfl first
    dsimp only at sampled
    split at sampled
    · contradiction
    rename_i walk walked
    obtain ⟨last, kept⟩ := walk
    have seen := MeasuredPath.onPieces_of_sampleFrom positive le_rfl (by decide)
      (List.forall_mem_singleton.mpr started) walked
    have ended {stop : Point} (on : OnPieces (MeasuredPath.ofPath path).pieces stop) :
        ∀ p ∈ if stop.near last leastMove then kept.reverse else (stop :: kept).reverse,
          OnPieces (MeasuredPath.ofPath path).pieces p := by
      intro p member
      split at member
      · exact seen p (List.mem_reverse.mp member)
      · exact List.forall_mem_cons.mpr ⟨on, seen⟩ p (List.mem_reverse.mp member)
    split at sampled
    · cases sampled
      exact ended started
    · split at sampled
      · contradiction
      rename_i stop? found
      have measured := ((MeasuredPath.ofPath path).pointAt_isOk_iff _).mp (by rw [found]; rfl)
      cases stop? with
      | none =>
        cases sampled
        exact fun p member => seen p (List.mem_reverse.mp member)
      | some stop =>
        cases sampled
        exact ended (MeasuredPath.onPieces_of_pointAt (numbers_of_float_le measured).2 found)

end LaserCutter
