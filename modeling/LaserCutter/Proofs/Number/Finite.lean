import LaserCutter.Proofs.Number.Equality

/-!
# Finite binary64 numbers

A finite number stands for a rational within the range of the format, and is compared like it. An
operation whose exact result is within that range gives what is nearest to it.
-/

namespace LaserCutter.Number

open Float.Model (Format UnpackedFloat)
open Float.Model.UnpackedFloat

variable {x y : Float} {a b : ℚ}

theorem largest_eq_mul : largest .binary64 = (2 ^ 53 - 1 : ℤ) * 2 ^ (971 : ℤ) := by
  have exponent : maxExponent .binary64 = 971 := by decide
  have mantissa : (2 : ℚ) ^ Format.binary64.mantissaBits = 2 ^ 53 := rfl
  rw [largest, exponent, mantissa]
  norm_num

theorem nearest_largest : nearest .binary64 (largest .binary64) = largest .binary64 := by
  rw [largest_eq_mul]
  exact nearest_eq_self .binary64 (by decide) (by decide)

/-- Rounding keeps within a bound that is in the format itself. -/
theorem abs_nearest_le {q bound : ℚ} (exact : nearest .binary64 bound = bound) (le : |q| ≤ bound) :
    |nearest .binary64 q| ≤ bound := by
  obtain ⟨low, high⟩ := abs_le.mp le
  have above := nearest_mono .binary64 high
  have below := nearest_mono .binary64 low
  rw [nearest_neg, exact] at below
  rw [exact] at above
  exact abs_le.mpr ⟨below, above⟩

theorem isFinite_of_stands (stands : Stands .binary64 (exact x) a) : isFinite x := by
  unfold isFinite
  obtain ⟨s, zero, _⟩ | ⟨s, m, e, positive, finite, _⟩ := stands.zero_or_finite
  · rw [zero]
  · rw [finite]

theorem repack_exact (x : Float) : unpack .binary64 (pack .binary64 (exact x)) = exact x := by
  change unpack .binary64 (pack .binary64 (unpack .binary64 x.toModel.toBits.toBitVec)) = _
  rw [pack_unpack (by decide) x.toModel.valid]
  rfl

/-- What is too large for the format becomes infinite. -/
theorem unpack_pack_large {spec : Format} (s : Sign) {m : ℕ} {e : ℤ} (positive : 0 < m)
    (large : maxExponent spec < e) :
    unpack spec (pack spec (.finite s m e positive)) = .infinity s := by
  have exponents := two_pow_exponentBits spec
  have beyond : 2 ^ spec.exponentBits ≤
      (e + spec.exponentBias + spec.mantissaBitsWithoutImplicit).toNat + 1 := by
    unfold maxExponent at large
    omega
  unfold pack
  dsimp only
  rw [if_pos beyond]
  exact (unpack_packComponents spec s _ _).trans ((if_pos rfl).trans (if_pos rfl))

/-- Within the range of the format packing keeps a number, and beyond it the result is not finite. -/
theorem stands_pack {u : UnpackedFloat} (stands : Stands .binary64 u a)
    (finite : isFinite (.ofModel (.pack u))) :
    Stands .binary64 (exact (.ofModel (.pack u))) a ∧ |a| ≤ largest .binary64 := by
  change Stands .binary64 (unpack .binary64 (pack .binary64 u)) a ∧ _
  obtain ⟨s, rfl, rfl⟩ | ⟨s, m, e, positive, rfl, rfl, room, least, full⟩ := stands.zero_or_finite
  · rw [pack, unpack_packedZero, abs_zero, largest_eq_mul]
    exact ⟨stands, by positivity⟩
  · have bounded : e ≤ maxExponent .binary64 := by
      by_contra beyond
      unfold isFinite at finite
      rw [show exact (.ofModel (.pack (.finite s m e positive))) = .infinity s from
        unpack_pack_large s positive (not_le.mp beyond)] at finite
      contradiction
    rw [unpack_pack_finite .binary64 stands.canonical bounded]
    refine ⟨stands, ?_⟩
    have size : |signed s (m * 2 ^ e)| = m * 2 ^ e := abs_signed s (by positivity)
    have mantissa : (m : ℚ) ≤ 2 ^ Format.binary64.mantissaBits - 1 := by
      have below : (m : ℚ) + 1 ≤ (2 ^ Format.binary64.mantissaBits : ℕ) := by exact_mod_cast room
      push_cast at below
      linarith
    rw [size, largest]
    exact mul_le_mul mantissa (zpow_le_zpow_right₀ one_le_two bounded) (by positivity)
      (le_trans (by positivity) mantissa)

/-- A finite number stands for one within the range of the format. -/
theorem exists_stands (finite : isFinite x) :
    ∃ a, Stands .binary64 (exact x) a ∧ |a| ≤ largest .binary64 := by
  have canonical : Canonical .binary64 (exact x) := canonical_unpack .binary64 _
  have value : ∃ a, value? (exact x) = some a := by
    unfold isFinite at finite
    cases known : exact x <;> simp_all [value?]
  obtain ⟨a, value⟩ := value
  have packed : Float.ofModel (.pack (exact x)) = x := eq_of_exact_eq (repack_exact x)
  have stands := stands_pack ⟨value, canonical⟩ (by rwa [packed])
  rw [packed] at stands
  exact ⟨a, stands⟩

section compare

variable (first : Stands .binary64 (exact x) a) (second : Stands .binary64 (exact y) b)

include first second

theorem float_lt_iff_of_stands : x < y ↔ a < b := by
  rw [lt_iff_place, place?_of_stands first, place?_of_stands second]
  simp

theorem float_le_iff_of_stands : x ≤ y ↔ a ≤ b := by
  rw [le_iff_place, place?_of_stands first, place?_of_stands second]
  simp

end compare

section arithmetic

variable (first : Stands .binary64 (exact x) a) (second : Stands .binary64 (exact y) b)

include first second

/-- The sum, if it is within the range of the format. -/
theorem stands_add (range : |a + b| ≤ largest .binary64) :
    Stands .binary64 (exact (x + y)) (nearest .binary64 (a + b)) :=
  (first.add second).repack (by decide) (abs_nearest_le nearest_largest range)

theorem stands_mul (range : |a * b| ≤ largest .binary64) :
    Stands .binary64 (exact (x * y)) (nearest .binary64 (a * b)) :=
  (first.mul second).repack (by decide) (abs_nearest_le nearest_largest range)

theorem stands_div (nonzero : b ≠ 0) (range : |a / b| ≤ largest .binary64) :
    Stands .binary64 (exact (x / y)) (nearest .binary64 (a / b)) :=
  (first.div second nonzero).repack (by decide) (abs_nearest_le nearest_largest range)

/-- The difference, if it is finite. -/
theorem stands_sub_of_isFinite (finite : isFinite (x - y)) :
    Stands .binary64 (exact (x - y)) (nearest .binary64 (a - b)) ∧
      |nearest .binary64 (a - b)| ≤ largest .binary64 :=
  stands_pack (first.sub second) finite

end arithmetic

end LaserCutter.Number
