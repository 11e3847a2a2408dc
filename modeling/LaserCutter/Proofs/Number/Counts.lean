import LaserCutter.Proofs.Number.Arithmetic

/-!
# Counts as binary64 numbers

A count is converted to the nearest binary64 number, and a binary64 number back to the count below
it. In between, an operation is off by at most half of the last bit, which is a `2 ^ -53` of the
result as long as that is not too close to zero.
-/

namespace LaserCutter.Number

open Float.Model (Format UnpackedFloat)
open Float.Model.UnpackedFloat

section error

variable (spec : Format) {q : ℚ}

theorem abs_nearest_sub_le_ulp : |nearest spec q - q| ≤ 2 ^ ulpExponent spec q / 2 := by
  have scale : (0 : ℚ) < 2 ^ ulpExponent spec q := by positivity
  have rounded := isNearest_nearestInt (q / 2 ^ ulpExponent spec q)
  have above := rounded.above
  have below := rounded.below
  rw [le_div_iff₀ scale] at above
  rw [div_le_iff₀ scale] at below
  unfold nearest
  rw [abs_le]
  constructor <;> linarith

/-- Rounding to binary64 changes a number that is not subnormal by a `2 ^ -53` of it at most. -/
theorem abs_nearest_sub_le (normal : 2 ^ (-1022 : ℤ) ≤ |q|) :
    |nearest .binary64 q - q| ≤ |q| * 2 ^ (-53 : ℤ) := by
  have positive : 0 < |q| := lt_of_lt_of_le (by positivity) normal
  have log : -1022 ≤ Int.log 2 |q| := by
    rw [← Int.zpow_le_iff_le_log one_lt_two positive]
    exact_mod_cast normal
  have bits : Format.binary64.mantissaBits = 53 := rfl
  have least : Format.binary64.minExponent = -1074 := by decide
  have exponent : ulpExponent .binary64 q = Int.log 2 |q| - 52 := by
    unfold ulpExponent
    omega
  have size : (2 : ℚ) ^ Int.log 2 |q| ≤ |q| := by
    exact_mod_cast Int.zpow_log_le_self one_lt_two positive
  calc
    |nearest .binary64 q - q| ≤ 2 ^ ulpExponent .binary64 q / 2 := abs_nearest_sub_le_ulp _
    _ = 2 ^ Int.log 2 |q| * 2 ^ (-53 : ℤ) := by
      rw [exponent, zpow_sub₀ two_ne_zero]
      norm_num
      ring
    _ ≤ |q| * 2 ^ (-53 : ℤ) := by gcongr

/-- Rounding moves a positive number that is not subnormal into a narrow window around it. -/
theorem nearest_window (normal : 2 ^ (-1022 : ℤ) ≤ q) :
    q * (1 - 2 ^ (-53 : ℤ)) ≤ nearest .binary64 q ∧
      nearest .binary64 q ≤ q * (1 + 2 ^ (-53 : ℤ)) := by
  have positive : 0 < q := lt_of_lt_of_le (by positivity) normal
  have error := abs_nearest_sub_le (q := q) (by rwa [abs_of_pos positive])
  rw [abs_of_pos positive, abs_le] at error
  constructor <;> linarith [error.1, error.2]

end error

theorem nearest_two_pow_64 : nearest .binary64 (2 ^ 64) = 2 ^ 64 := by
  have self := nearest_eq_self .binary64 (n := 1) (k := 64) (by decide) (by decide)
  norm_num at self
  exact self

theorem two_pow_64_le_largest : (2 ^ 64 : ℚ) ≤ largest .binary64 := by
  have scale : (2 : ℚ) ^ (12 : ℤ) ≤ 2 ^ maxExponent .binary64 :=
    zpow_le_zpow_right₀ one_le_two (by decide)
  have mantissa : (2 : ℚ) ^ Format.binary64.mantissaBits = 2 ^ 53 := rfl
  unfold largest
  rw [mantissa]
  calc
    (2 ^ 64 : ℚ) ≤ (2 ^ 53 - 1) * 2 ^ (12 : ℤ) := by norm_num
    _ ≤ (2 ^ 53 - 1) * 2 ^ maxExponent .binary64 :=
      mul_le_mul_of_nonneg_left scale (by norm_num)

/-- What is nearest to a number between zero and `2 ^ 64` lies there too, so it has a bit pattern. -/
theorem nearest_range {q : ℚ} (nonneg : 0 ≤ q) (le : q ≤ 2 ^ 64) :
    0 ≤ nearest .binary64 q ∧ nearest .binary64 q ≤ 2 ^ 64 ∧
      |nearest .binary64 q| ≤ largest .binary64 := by
  have low := nearest_nonneg .binary64 nonneg
  have high : nearest .binary64 q ≤ 2 ^ 64 := nearest_two_pow_64 ▸ nearest_mono .binary64 le
  exact ⟨low, high, (abs_of_nonneg low).le.trans (high.trans two_pow_64_le_largest)⟩

/-- A count is converted to the number nearest to it. -/
theorem stands_ofNat {n : ℕ} (le : n ≤ 2 ^ 64) :
    Stands .binary64 (Float.Model.pack (UnpackedFloat.ofNat .binary64 n)).unpack
      (nearest .binary64 n) := by
  have converted := stands_normalize .binary64 n 0 .positive
  push_cast at converted
  rw [mul_one] at converted
  exact converted.repack (by decide)
    (nearest_range (q := n) (by positivity) (by exact_mod_cast le)).2.2

theorem nearest_count {n : ℕ} (small : n < 2 ^ 53) : nearest .binary64 n = n := by
  have self := nearest_eq_self .binary64 (n := n) (k := 0)
    (by rw [Nat.abs_cast]; exact_mod_cast small) (by decide)
  push_cast at self
  rwa [mul_one] at self

theorem nearest_one : nearest .binary64 1 = 1 := by
  simpa using nearest_count (n := 1) (by norm_num)

theorem one_le_nearest {n : ℕ} (positive : 0 < n) : 1 ≤ nearest .binary64 n := by
  calc
    (1 : ℚ) = nearest .binary64 1 := nearest_one.symm
    _ ≤ nearest .binary64 n := nearest_mono .binary64 (by exact_mod_cast positive)

theorem stands_uint64 (n : UInt64) :
    Stands .binary64 n.toFloat.toModel.unpack (nearest .binary64 n.toNat) :=
  stands_ofNat n.toNat_lt.le

theorem stands_uint8 (n : UInt8) : Stands .binary64 n.toFloat.toModel.unpack n.toNat := by
  have small := n.toNat_lt
  have converted : Stands .binary64 n.toFloat.toModel.unpack (nearest .binary64 n.toNat) :=
    stands_ofNat (by omega)
  rwa [nearest_count (by omega)] at converted

/-- A float that stands for a positive number is finite. -/
theorem Stands.finite_of_pos {spec : Format} {x : UnpackedFloat} {a : ℚ}
    (stands : Stands spec x a) (positive : 0 < a) :
    ∃ m e h, x = .finite .positive m e h := by
  obtain ⟨s, rfl, rfl⟩ | ⟨s, m, e, h, rfl, rfl, -⟩ := stands.zero_or_finite
  · exact absurd positive (lt_irrefl 0)
  · have value : (0 : ℚ) < m * 2 ^ e := by positivity
    cases s with
    | negative =>
      simp only [signed] at positive
      linarith
    | positive => exact ⟨m, e, h, rfl⟩

/-- Cutting the fraction off a number that is not negative. -/
theorem roundToInt_eq_floor (m : ℕ) (e : ℤ) :
    UnpackedFloat.roundToInt .positive m e = ⌊(m * 2 ^ e : ℚ)⌋ := by
  have value := decreaseExponent_value m e 0
  have low : (decreaseExponent m e 0).2 ≤ 0 := by
    simp only [decreaseExponent]
    omega
  have described := (Describes.exact (decreaseExponent m e 0).1).shiftRight
    (-(decreaseExponent m e 0).2).toNat
  have scaled : ((decreaseExponent m e 0).1 : ℚ) / 2 ^ (-(decreaseExponent m e 0).2).toNat =
      m * 2 ^ e := by
    rw [← value, div_eq_mul_inv, ← zpow_natCast, ← zpow_neg]
    congr 2
    omega
  rw [scaled] at described
  obtain ⟨above, below⟩ := described.bounds
  unfold UnpackedFloat.roundToInt shiftToExponent
  simp only [Sign.apply, Int.zero_sub]
  exact (Int.floor_eq_iff.mpr ⟨by exact_mod_cast above, by exact_mod_cast below⟩).symm

/-- The count below a number that fits into 32 bits. -/
theorem toUInt32_of_stands {x : Float} {a : ℚ} (stands : Stands .binary64 x.toModel.unpack a)
    (nonneg : 0 ≤ a) (below : a < 2 ^ 32) : x.toUInt32.toNat = ⌊a⌋₊ := by
  have whole : (UnpackedFloat.toInt 0 (UInt32.size - 1) x.toModel.unpack).toNat = ⌊a⌋₊ := by
    obtain ⟨s, zero, rfl⟩ | ⟨s, m, e, positive, finite, rfl, -⟩ := stands.zero_or_finite
    · rw [zero]
      simp [UnpackedFloat.toInt]
    · have value : (0 : ℚ) < m * 2 ^ e := by positivity
      cases s with
      | negative =>
        simp only [signed] at nonneg
        linarith
      | positive =>
        rw [finite]
        change (UnpackedFloat.roundToInt .positive m e).toNat = _
        rw [roundToInt_eq_floor]
        rfl
  have small : ⌊a⌋₊ < UInt32.size := by
    rw [Nat.floor_lt nonneg]
    exact_mod_cast below
  change (UInt32.ofNatClamp _).toNat = _
  rw [whole, UInt32.ofNatClamp, dif_pos small, UInt32.toNat_ofNatLT]

end LaserCutter.Number
