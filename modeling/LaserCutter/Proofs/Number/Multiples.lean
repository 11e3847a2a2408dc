import LaserCutter.Proofs.Number.Extremes
import LaserCutter.Proofs.Number.Whole

/-!
# Multiples of a step

The multiples of a positive step that 32 bits count are computed with one rounding, so they are in
order, and one that is below a number is so before the rounding as well. All multiples of an
infinite step are infinite.
-/

namespace LaserCutter.Number

variable {step length : Float} {a b : ℚ} {j k : Nat}

theorem stands_count (small : k < UInt32.size) : Stands .binary64 (exact k.toUInt64.toFloat) k := by
  have size : UInt32.size = 2 ^ 32 := rfl
  have whole : k.toUInt64.toNat = k := by
    simp only [Nat.toUInt64, UInt64.toNat_ofNat']
    omega
  have stands := stands_toFloat (n := k.toUInt64) (by omega)
  rwa [whole] at stands

theorem multiple_mono (positive : 0 < step) (counted : 1 ≤ j) (le : j ≤ k)
    (small : k < UInt32.size) : j.toUInt64.toFloat * step ≤ k.toUInt64.toFloat * step := by
  have first := stands_count (le.trans_lt small)
  have second := stands_count small
  rcases nonneg_cases (float_le_of_lt positive) with ⟨b, stands, nonneg⟩ | infinite
  · exact mul_le_mul_of_stands first second stands j.cast_nonneg (by exact_mod_cast le) nonneg
  · have atJ := exact_mul_infinity first (by exact_mod_cast counted) infinite
    have atK := exact_mul_infinity second (by exact_mod_cast counted.trans le) infinite
    exact le_iff_place.mpr ⟨⊤, by rw [atJ]; rfl, ⊤, by rw [atK]; rfl, le_rfl⟩

/-- A multiple that reaches a number before it is rounded does so afterwards. -/
theorem le_multiple (bound : Stands .binary64 (exact length) a)
    (stands : Stands .binary64 (exact step) b) (nonneg : 0 ≤ a) (small : k < UInt32.size)
    (reached : a ≤ k * b) : length ≤ k.toUInt64.toFloat * step := by
  have product := (stands_count small).mul stands
  have same : Float.ofModel (.pack (exact length)) = length := eq_of_exact_eq (repack_exact length)
  have rounded : Stands .binary64 (exact length) (nearest .binary64 a) := by
    rwa [bound.nearest_eq]
  have le := pack_le_pack rounded product nonneg reached
  rwa [same] at le

theorem lt_of_multiple_lt (bound : Stands .binary64 (exact length) a)
    (stands : Stands .binary64 (exact step) b) (nonneg : 0 ≤ a) (small : k < UInt32.size)
    (less : k.toUInt64.toFloat * step < length) : k * b < a := by
  by_contra reached
  exact float_not_lt_of_le (le_multiple bound stands nonneg small (not_lt.mp reached)) less

/-- A length of less than `2 ^ 32` steps is reached by a multiple that 32 bits count. -/
theorem le_last_multiple (bound : Stands .binary64 (exact length) a)
    (stands : Stands .binary64 (exact step) b) (nonneg : 0 ≤ a) (positive : 0 < b)
    (few : ⌈a / b⌉ < UInt32.size) : length ≤ (UInt32.size - 1).toUInt64.toFloat * step := by
  refine le_multiple bound stands nonneg (by decide) ?_
  rw [← div_le_iff₀ positive]
  have most : ⌈a / b⌉ ≤ ((UInt32.size - 1 : ℕ) : ℤ) := by
    have size : UInt32.size = 2 ^ 32 := rfl
    omega
  calc
    a / b ≤ ⌈a / b⌉ := Int.le_ceil _
    _ ≤ ((UInt32.size - 1 : ℕ) : ℚ) := by exact_mod_cast most

/-- All multiples of an infinite step are beyond any number. -/
theorem not_multiple_lt_of_infinite (positive : 0 < step) (infinite : ¬ isFinite step)
    (counted : 1 ≤ k) (small : k < UInt32.size) : ¬ k.toUInt64.toFloat * step < length := by
  rcases nonneg_cases (float_le_of_lt positive) with ⟨b, stands, _⟩ | infinite
  · exact absurd (isFinite_of_stands stands) infinite
  · have top := exact_mul_infinity (stands_count small) (by exact_mod_cast counted) infinite
    rw [lt_iff_place, top]
    rintro ⟨p, atTop, q, _, less⟩
    cases atTop
    exact not_top_lt less

end LaserCutter.Number
