import LaserCutter.Proofs.Curve.Sampling
import LaserCutter.Proofs.Number.GrowingSums
import LaserCutter.Proofs.Number.Multiples

/-!
# Finite lengths

A finite length of a path is a sum of finite lengths, and these are sums of lengths of vectors with
weights that are not negative. So it is not negative either. The parameters of these are exact.
-/

namespace LaserCutter

open Number

section parameters

variable {i j : Nat}

theorem nearest_tableParameter (within : i ≤ tableSteps) :
    nearest .binary64 (i / 32 : ℚ) = i / 32 := by
  have scale : (i / 32 : ℚ) = (i : ℤ) * 2 ^ (-5 : ℤ) := by
    norm_num
    ring
  have bits : |(i : ℤ)| < 2 ^ Float.Model.Format.binary64.mantissaBits := by
    rw [Nat.abs_cast]
    exact_mod_cast (within.trans_lt (by decide : tableSteps < 2 ^ 53))
  rw [scale]
  exact nearest_eq_self .binary64 bits (by decide)

theorem stands_tableParameter (within : i ≤ tableSteps) :
    Stands .binary64 (exact (tableParameter i)) (i / 32) := by
  have steps : Stands .binary64 (exact tableSteps.toUInt64.toFloat) 32 := stands_of_byte 32 rfl
  have fraction := (stands_count (within.trans_lt (by decide))).div steps (by norm_num)
  rw [nearest_tableParameter within] at fraction
  refine fraction.repack (by decide) ?_
  have below : (i : ℚ) ≤ 32 := by exact_mod_cast within
  rw [abs_of_nonneg (by positivity)]
  exact le_trans (by linarith) ((le_abs_self 1).trans (abs_le_largest stands_one))

theorem tableParameter_mono (le : i ≤ j) (within : j ≤ tableSteps) :
    tableParameter i ≤ tableParameter j := by
  have order : (i : ℚ) ≤ j := by exact_mod_cast le
  rw [float_le_iff_of_stands (stands_tableParameter (le.trans within)) (stands_tableParameter within)]
  linarith

theorem tableParameter_bounds (within : i ≤ tableSteps) :
    0 ≤ tableParameter i ∧ tableParameter i ≤ 1 := by
  have first : tableParameter 0 = 0 := by decide
  have last : tableParameter tableSteps = 1 := by decide
  exact ⟨first ▸ tableParameter_mono i.zero_le within, last ▸ tableParameter_mono within le_rfl⟩

end parameters

namespace Cubic

/-- A finite sum of speeds with weights that are not negative. -/
theorem speedSum_nonneg (curve : Cubic) (mid half : Float) (nodes : List (Float × Float))
    (weighted : ∀ node ∈ nodes, 0 ≤ node.2) (sum : Float) (nonneg : isFinite sum → 0 ≤ sum)
    (finite : isFinite (nodes.foldl
      (fun sum (x, w) => sum + w * curve.speed (mid + half * x)) sum)) :
    0 ≤ nodes.foldl (fun sum (x, w) => sum + w * curve.speed (mid + half * x)) sum := by
  induction nodes generalizing sum with
  | nil => exact nonneg finite
  | cons node rest ih =>
    rw [List.forall_mem_cons] at weighted
    refine ih weighted.2 _ (fun finite => ?_) finite
    obtain ⟨before, term⟩ := isFinite_of_add finite
    have speed := hypotenuse_nonneg_of_isFinite (isFinite_of_mul term).2
    exact float_le_trans (nonneg before)
      (float_le_add finite (mul_nonneg_of_isFinite weighted.1 speed term))

/-- The stretches that a curve is measured by have finite lengths that are not negative. -/
theorem arcLength_nonneg (curve : Cubic) {i : Nat} (within : i < tableSteps)
    (finite : isFinite (curve.arcLength (tableParameter i) (tableParameter (i + 1)))) :
    0 ≤ curve.arcLength (tableParameter i) (tableParameter (i + 1)) := by
  have half : 0 ≤ (tableParameter (i + 1) - tableParameter i) / 2 := by
    have all : ∀ i < tableSteps, 0 ≤ (tableParameter (i + 1) - tableParameter i) / 2 := by
      decide +kernel
    exact all i within
  have weighted : ∀ node ∈ gaussNodes, 0 ≤ node.2 := by decide
  have sum := speedSum_nonneg curve ((tableParameter (i + 1) + tableParameter i) / 2)
    ((tableParameter (i + 1) - tableParameter i) / 2) gaussNodes weighted 0 (fun _ => by decide)
    (isFinite_of_mul finite).1
  exact mul_nonneg_of_isFinite sum half finite

end Cubic

namespace MeasuredCubic

theorem head_lengthsUpTo_nonneg (curve : Cubic) {n : Nat} (within : n ≤ tableSteps)
    (finite : isFinite ((lengthsUpTo curve n).headD 0)) : 0 ≤ (lengthsUpTo curve n).headD 0 := by
  induction n with
  | zero => exact float_le_self_of_number rfl
  | succ n ih =>
    rw [lengthsUpTo, List.headD_cons] at finite ⊢
    obtain ⟨shorter, stretch⟩ := isFinite_of_add finite
    exact float_le_trans (ih (by omega) shorter)
      (float_le_add finite (curve.arcLength_nonneg within stretch))

theorem length_ofCubic (curve : Cubic) :
    (ofCubic curve).length = (lengthsUpTo curve tableSteps).headD 0 := by
  have count := length_lengthsUpTo curve tableSteps
  rw [length, ofCubic, List.getD_eq_getElem?_getD,
    List.getElem?_reverse (by rw [count]; exact Nat.lt_succ_self _), count, Nat.add_sub_cancel,
    Nat.sub_self, List.headD_eq_head?_getD, List.head?_eq_getElem?]

theorem length_nonneg (curve : Cubic) (finite : isFinite (ofCubic curve).length) :
    0 ≤ (ofCubic curve).length := by
  rw [length_ofCubic] at finite ⊢
  exact head_lengthsUpTo_nonneg curve le_rfl finite

end MeasuredCubic

/-- A piece that is measured: a line, or a curve with its own table of lengths. -/
def Piece.Measured : Piece → Prop
  | .line _ _ => True
  | .curve c => ∃ curve, c = .ofCubic curve

theorem Piece.Measured.length_nonneg {piece : Piece} (measured : piece.Measured)
    (finite : isFinite piece.length) : 0 ≤ piece.length := by
  cases piece with
  | line start stop => exact hypotenuse_nonneg_of_isFinite finite
  | curve c =>
    obtain ⟨curve, rfl⟩ := measured
    exact MeasuredCubic.length_nonneg curve finite

namespace Path

theorem measured_piecesFrom (start : Point) (segments : List Segment) (seen : List Piece)
    (measured : ∀ piece ∈ seen, piece.Measured) :
    ∀ piece ∈ (piecesFrom start segments seen).1, piece.Measured := by
  induction segments generalizing start seen with
  | nil => simpa [piecesFrom] using measured
  | cons segment rest ih =>
    cases segment with
    | line stop => exact ih stop _ (List.forall_mem_cons.mpr ⟨trivial, measured⟩)
    | bezier c0 c1 stop => exact ih stop _ (List.forall_mem_cons.mpr ⟨⟨_, rfl⟩, measured⟩)

theorem measured_pieces (path : Path) : ∀ piece ∈ path.pieces, piece.Measured := by
  have segments := measured_piecesFrom path.start path.segments [] (by simp)
  unfold pieces
  dsimp only
  split
  · simp only [List.mem_append, List.mem_singleton]
    rintro piece (member | rfl)
    · exact segments piece member
    · trivial
  · exact segments

end Path

/-- A path with a finite length has no negative length. -/
theorem MeasuredPath.length_nonneg {path : Path} (finite : isFinite (ofPath path).length) :
    0 ≤ (ofPath path).length := by
  have grows : ∀ length ∈ path.pieces.map Piece.length, isFinite length → 0 ≤ length := by
    intro length member
    obtain ⟨piece, among, rfl⟩ := List.mem_map.mp member
    exact (path.measured_pieces piece among).length_nonneg
  exact last_nonneg (runningSumsFrom_grow 0 (path.pieces.map Piece.length) finite grows).2

end LaserCutter
