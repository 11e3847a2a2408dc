import LaserCutter.Proofs.Curve.Lengths
import LaserCutter.Proofs.Number.Moderate

/-!
# Curves of moderate size

Where the control points of a curve are, its speed and its lengths cannot be much larger than their
coordinates. So all lengths in the table of a curve are finite as long as the coordinates are at most
`2 ^ 500` in size (`MeasuredCubic.isFinite_of_moderate`).
-/

namespace LaserCutter

open Number

theorem stands_neg_one : Stands .binary64 (exact (-1)) (-1) := by
  have difference : (-1 : Float) = 0 - 1 := by decide
  have stands := stands_zero.sub stands_one
  rw [zero_sub, nearest_neg, nearest_one] at stands
  rw [difference]
  exact stands.repack (by decide) (by rw [abs_neg]; exact abs_le_largest stands_one)

theorem moderate_of_le {x : Float} (low : -1 ≤ x) (high : x ≤ 1) : Number.Moderate 0 x := by
  obtain ⟨q, stands, low, high⟩ := stands_between stands_neg_one stands_one low high
  exact ⟨q, stands, abs_le.mpr ⟨by linarith, by linarith⟩⟩

/-- Both coordinates are at most `2 ^ n` in size. -/
structure Point.Moderate (n : ℕ) (p : Point) : Prop where
  x : Number.Moderate n p.x
  y : Number.Moderate n p.y

/-- All control points have coordinates of size at most `2 ^ n`. -/
structure Cubic.Moderate (n : ℕ) (curve : Cubic) : Prop where
  p0 : curve.p0.Moderate n
  c0 : curve.c0.Moderate n
  c1 : curve.c1.Moderate n
  p1 : curve.p1.Moderate n

namespace Cubic

variable {n : ℕ} (range : n ≤ 500)

include range

theorem moderate_slope {p0 c0 c1 p1 t : Float} (start : Number.Moderate n p0)
    (first : Number.Moderate n c0) (second : Number.Moderate n c1) (stop : Number.Moderate n p1)
    (parameter : Number.Moderate 2 t) : Number.Moderate (n + 11) (slope p0 c0 c1 p1 t) := by
  have three : Number.Moderate 2 3 := ⟨3, stands_of_byte 3 rfl, by norm_num⟩
  have six : Number.Moderate 3 6 := ⟨6, stands_of_byte 6 rfl, by norm_num⟩
  have one : Number.Moderate 2 1 := ⟨1, stands_one, by norm_num⟩
  have rest := one.sub parameter (by omega)
  have before := ((three.mul rest (by omega)).mul rest (by omega)).mul
    (first.sub start (by omega)) (by omega)
  have middle := ((six.mul rest (by omega)).mul parameter (by omega)).mul
    (second.sub first (by omega)) (by omega)
  have after := ((three.mul parameter (by omega)).mul parameter (by omega)).mul
    (stop.sub second (by omega)) (by omega)
  have two := (before.mono (show _ ≤ n + 9 by omega)).add
    (middle.mono (show _ ≤ n + 9 by omega)) (by omega)
  exact two.add (after.mono (show _ ≤ n + 10 by omega)) (by omega)

variable {curve : Cubic} (moderate : curve.Moderate n)

include moderate

theorem moderate_speed {t : Float} (parameter : Number.Moderate 2 t) :
    Number.Moderate (n + 13) (curve.speed t) := by
  obtain ⟨p0, c0, c1, p1⟩ := moderate
  exact (moderate_slope range p0.x c0.x c1.x p1.x parameter).hypotenuse
    (moderate_slope range p0.y c0.y c1.y p1.y parameter) (by omega)

/-- Each node adds no more than the largest speed. -/
theorem moderate_speedSum {mid half : Float} (center : Number.Moderate 1 mid)
    (width : Number.Moderate 1 half) (nodes : List (Float × Float))
    (unit : ∀ node ∈ nodes, Number.Moderate 0 node.1 ∧ Number.Moderate 0 node.2) {k : ℕ} {sum : Float}
    (before : Number.Moderate k sum) (most : n + 13 ≤ k) (few : k + nodes.length ≤ 1023) :
    Number.Moderate (k + nodes.length)
      (nodes.foldl (fun sum (x, w) => sum + w * curve.speed (mid + half * x)) sum) := by
  induction nodes generalizing k sum with
  | nil => exact before
  | cons node rest ih =>
    rw [List.length_cons] at few ⊢
    rw [List.forall_mem_cons] at unit
    have parameter := center.add (width.mul unit.1.1 (by omega)) (by omega)
    have term := (unit.1.2.mul (moderate_speed range moderate parameter) (by omega)).mono
      (show 0 + (n + 13) ≤ k by omega)
    have sum := ih unit.2 (before.add term (by omega)) (by omega) (by omega)
    rwa [Nat.add_assoc, Nat.add_comm 1] at sum

theorem moderate_arcLength {t0 t1 : Float} (first : Number.Moderate 0 t0)
    (second : Number.Moderate 0 t1) : Number.Moderate (n + 19) (curve.arcLength t0 t1) := by
  have unit : ∀ node ∈ gaussNodes, Number.Moderate 0 node.1 ∧ Number.Moderate 0 node.2 := by
    have bounds : ∀ node ∈ gaussNodes,
        (-1 ≤ node.1 ∧ node.1 ≤ 1) ∧ -1 ≤ node.2 ∧ node.2 ≤ 1 := by decide
    exact fun node member =>
      ⟨moderate_of_le (bounds node member).1.1 (bounds node member).1.2,
        moderate_of_le (bounds node member).2.1 (bounds node member).2.2⟩
  have count : gaussNodes.length = 5 := rfl
  have half := (second.sub first (by omega)).half (by omega)
  have mid := (second.add first (by omega)).half (by omega)
  have zero : Number.Moderate (n + 13) 0 := ⟨0, stands_zero, by rw [abs_zero]; positivity⟩
  have sum := moderate_speedSum range moderate mid half gaussNodes unit zero le_rfl (by omega)
  rw [count] at sum
  unfold arcLength
  dsimp only
  exact (sum.mul half (by omega)).mono (by omega)

end Cubic

namespace MeasuredCubic

theorem moderate_tableParameter {i : ℕ} (within : i ≤ tableSteps) :
    Number.Moderate 0 (tableParameter i) := by
  have below : (-1 : Float) ≤ 0 := by decide
  obtain ⟨low, high⟩ := tableParameter_bounds within
  exact moderate_of_le (float_le_trans below low) high

theorem moderate_lengthsUpTo {n : ℕ} (range : n ≤ 500) {curve : Cubic} (moderate : curve.Moderate n)
    {i : ℕ} (within : i ≤ tableSteps) :
    ∀ length ∈ lengthsUpTo curve i, Number.Moderate (n + 19 + i) length := by
  have steps : tableSteps = 32 := rfl
  induction i with
  | zero =>
    rw [lengthsUpTo, List.forall_mem_singleton]
    exact ⟨0, stands_zero, by rw [abs_zero]; positivity⟩
  | succ i ih =>
    have shorter := ih (by omega)
    have last : Number.Moderate (n + 19 + i) ((lengthsUpTo curve i).headD 0) := by
      cases known : lengthsUpTo curve i with
      | nil => exact ⟨0, stands_zero, by rw [abs_zero]; positivity⟩
      | cons longest rest => exact shorter longest (known ▸ List.mem_cons_self)
    have stretch := (Cubic.moderate_arcLength range moderate
      (moderate_tableParameter (show i ≤ tableSteps by omega)) (moderate_tableParameter within)).mono
      (show n + 19 ≤ n + 19 + i by omega)
    rw [lengthsUpTo, List.forall_mem_cons]
    exact ⟨last.add stretch (by omega), fun length member => (shorter length member).mono (by omega)⟩

/-- A curve whose control points have coordinates of moderate size has finite lengths. -/
theorem isFinite_of_moderate {n : ℕ} (range : n ≤ 500) {curve : Cubic} (moderate : curve.Moderate n) :
    ∀ length ∈ (ofCubic curve).lengths, isFinite length := fun length member =>
  (moderate_lengthsUpTo range moderate le_rfl length (List.mem_reverse.mp member)).isFinite

end MeasuredCubic

end LaserCutter
