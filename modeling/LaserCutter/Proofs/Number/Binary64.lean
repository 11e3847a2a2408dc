import LaserCutter.Number.Rounding
import LaserCutter.Proofs.Number.Counts
import LaserCutter.Proofs.Number.Order

/-!
# Order and exact halves of binary64 numbers

Binary64 numbers are ordered like the numbers and infinities that they stand for; NaN is not even
below itself. Halves of whole numbers below `2 ^ 53` are binary64 numbers. The difference of a
number and itself tells whether it is finite.
-/

namespace LaserCutter.Number

open Float.Model (Format UnpackedFloat)
open Float.Model.UnpackedFloat

section order

variable {x y z : Float}

theorem compare_place (x y : Float) : UnpackedFloat.compare x.toModel.unpack y.toModel.unpack =
    (place? (exact x)).bind fun p => (place? (exact y)).map fun q => cmp p q :=
  compare_eq (canonical_unpack .binary64 _) (canonical_unpack .binary64 _)

theorem lt_iff_place :
    x < y ↔ ∃ p ∈ place? (exact x), ∃ q ∈ place? (exact y), p < q := by
  have unfolded : x < y ↔
      (UnpackedFloat.compare x.toModel.unpack y.toModel.unpack == some .lt) = true :=
    decide_eq_true_iff
  rw [unfolded, compare_place]
  cases place? (exact x) <;> cases place? (exact y) <;> simp [cmp_eq_lt_iff]

theorem le_iff_place :
    x ≤ y ↔ ∃ p ∈ place? (exact x), ∃ q ∈ place? (exact y), p ≤ q := by
  have unfolded : x ≤ y ↔
      (UnpackedFloat.compare x.toModel.unpack y.toModel.unpack).any (·.isLE) = true :=
    decide_eq_true_iff
  rw [unfolded, compare_place]
  cases place? (exact x) with
  | none => simp
  | some p =>
    cases place? (exact y) with
    | none => simp
    | some q =>
      rcases lt_trichotomy p q with less | rfl | more
      · simp [(cmp_eq_lt_iff _ _).mpr less, less.le]
      · simp
      · simp [(cmp_eq_gt_iff _ _).mpr more, more]

theorem float_le_of_lt (less : x < y) : x ≤ y := by
  obtain ⟨p, atX, q, atY, less⟩ := lt_iff_place.mp less
  exact le_iff_place.mpr ⟨p, atX, q, atY, less.le⟩

theorem float_le_trans (first : x ≤ y) (second : y ≤ z) : x ≤ z := by
  obtain ⟨p, atX, q, atY, le⟩ := le_iff_place.mp first
  obtain ⟨q', atY', r, atZ, le'⟩ := le_iff_place.mp second
  cases Option.mem_unique atY atY'
  exact le_iff_place.mpr ⟨p, atX, r, atZ, le.trans le'⟩

/-- Two numbers that are below something are not NaN, so one of them is not above the other. -/
theorem float_lt_or_le (boundX : x ≤ z) (boundY : y ≤ z) : x < y ∨ y ≤ x := by
  obtain ⟨p, atX, _, _, _⟩ := le_iff_place.mp boundX
  obtain ⟨q, atY, _, _, _⟩ := le_iff_place.mp boundY
  rcases lt_or_ge p q with less | le
  · exact .inl (lt_iff_place.mpr ⟨p, atX, q, atY, less⟩)
  · exact .inr (le_iff_place.mpr ⟨q, atY, p, atX, le⟩)

end order

/-- Halves of whole numbers below `2 ^ 53` are numbers of the format. -/
theorem nearest_half {n : ℕ} (small : n < 2 ^ 53) :
    nearest .binary64 (n / 2) = n / 2 ∧ |(n / 2 : ℚ)| ≤ largest .binary64 := by
  have scale : (n / 2 : ℚ) = (n : ℤ) * 2 ^ (-1 : ℤ) := by
    norm_num
    ring
  constructor
  · rw [scale]
    refine nearest_eq_self _ ?_ (by decide)
    rw [Nat.abs_cast]
    exact_mod_cast small
  · have top : (2 ^ 53 : ℚ) ≤ largest .binary64 := by
      have scale : (2 : ℚ) ^ (1 : ℤ) ≤ 2 ^ maxExponent .binary64 :=
        zpow_le_zpow_right₀ one_le_two (by decide)
      have mantissa : (2 : ℚ) ^ Format.binary64.mantissaBits = 2 ^ 53 := rfl
      unfold largest
      rw [mantissa]
      linarith
    have size : (n : ℚ) ≤ 2 ^ 53 := by exact_mod_cast small.le
    have nonneg : (0 : ℚ) ≤ n := by positivity
    rw [abs_of_nonneg (by positivity)]
    linarith

theorem stands_toFloat {n : UInt64} (small : n.toNat < 2 ^ 52) :
    Stands .binary64 n.toFloat.toModel.unpack n.toNat := by
  have converted := stands_uint64 n
  rwa [nearest_count (by omega)] at converted

theorem stands_half : Stands .binary64 (0.5 : Float).toModel.unpack (1 / 2) := by
  have scaled : (0.5 : Float) = ofScaled 1 (-1) .positive := by decide
  obtain ⟨exact, range⟩ := nearest_half (n := 1) (by norm_num)
  have converted := stands_normalize .binary64 1 (-1) .positive
  have value : ((1 : ℤ) : ℚ) * 2 ^ (-1 : ℤ) = (1 : ℕ) / 2 := by norm_num
  rw [value, exact] at converted
  rw [scaled]
  have packed := converted.repack (by decide) range
  push_cast at packed
  exact packed

/-- Half of a whole number. -/
theorem stands_mul_half {n : UInt64} (small : n.toNat < 2 ^ 52) :
    Stands .binary64 (n.toFloat * 0.5).toModel.unpack (n.toNat / 2) := by
  obtain ⟨exact, range⟩ := nearest_half (n := n.toNat) (by omega)
  have product := (stands_toFloat small).mul stands_half
  rw [mul_one_div, exact] at product
  exact product.repack (by decide) range

/-- Halves of whole numbers are in the order of the numbers. -/
theorem mul_half_mono {n k : UInt64} (le : n.toNat ≤ k.toNat) (small : k.toNat < 2 ^ 52) :
    n.toFloat * 0.5 ≤ k.toFloat * 0.5 := by
  have first := place?_of_stands (stands_mul_half (le.trans_lt small))
  have second := place?_of_stands (stands_mul_half small)
  refine le_iff_place.mpr ⟨_, first, _, second, ?_⟩
  have order : (n.toNat / 2 : ℚ) ≤ k.toNat / 2 := by gcongr
  exact WithBot.coe_le_coe.mpr (WithTop.coe_le_coe.mpr order)

/-- The difference of a number and itself: zero, or NaN if it is not finite. -/
theorem sub_self_eq (x : Float) :
    x - x = .ofModel (.pack (if isFinite x then .zero .positive else .notANumber)) := by
  change Float.ofModel (.pack (UnpackedFloat.sub .binary64 (exact x) (exact x))) = _
  unfold isFinite
  cases exact x with
  | notANumber => rfl
  | infinity s => cases s <;> rfl
  | zero s => cases s <;> rfl
  | finite s m e positive =>
    simp only [UnpackedFloat.sub, Int.sub_self]
    rfl

/-- A number is near itself exactly if it is finite. -/
theorem abs_sub_self_le (x : Float) : (x - x).abs ≤ 1e-9 ↔ isFinite x := by
  rw [sub_self_eq]
  cases isFinite x <;> decide

end LaserCutter.Number
