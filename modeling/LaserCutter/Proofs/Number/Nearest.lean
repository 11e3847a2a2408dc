import Mathlib

/-!
# The nearest number of a format

Exact numbers are rationals here. `nearest` rounds one to a format as if the format had no largest
number: to a multiple of the last bit that the format keeps of it (`ulpExponent`), the nearest one,
and of two that are equally near the even one. Rounding is monotone and odd, and a number that has
few enough bits stays as it is.
-/

namespace LaserCutter.Number

open Float.Model (Format)

/-- The integer nearest to `x`; of two that are equally near the even one. -/
def nearestInt (x : ℚ) : ℤ :=
  if x < ⌊x⌋ + 1 / 2 ∨ x = ⌊x⌋ + 1 / 2 ∧ ⌊x⌋ % 2 = 0 then ⌊x⌋ else ⌊x⌋ + 1

/-- `n` is nearest to `x`: less than a half away, or a half away and even. -/
structure IsNearest (x : ℚ) (n : ℤ) : Prop where
  above : (n : ℚ) - 1 / 2 ≤ x
  below : x ≤ n + 1 / 2
  tie : (n : ℚ) - 1 / 2 = x ∨ x = n + 1 / 2 → n % 2 = 0

theorem isNearest_nearestInt (x : ℚ) : IsNearest x (nearestInt x) := by
  have floor := Int.floor_le x
  have next := Int.lt_floor_add_one x
  unfold nearestInt
  split
  · rename_i near
    refine ⟨by linarith, ?_, ?_⟩
    · rcases near with near | ⟨near, _⟩ <;> linarith
    · rintro (low | high)
      · linarith
      · rcases near with near | ⟨_, even⟩
        · linarith
        · exact even
  · rename_i far
    obtain ⟨beyond, odd⟩ := not_or.mp far
    refine ⟨by push_cast; linarith, by push_cast; linarith, ?_⟩
    rintro (low | high)
    · have tie : x = ⌊x⌋ + 1 / 2 := by push_cast at low; linarith
      have odd : ¬ ⌊x⌋ % 2 = 0 := fun even => odd ⟨tie, even⟩
      omega
    · push_cast at high
      linarith

theorem IsNearest.unique {x : ℚ} {n k : ℤ} (first : IsNearest x n) (second : IsNearest x k) :
    n = k := by
  have close : |(n : ℚ) - k| ≤ 1 := by
    rw [abs_le]
    constructor <;> linarith [first.above, first.below, second.above, second.below]
  have close : |n - k| ≤ 1 := by exact_mod_cast close
  rcases lt_trichotomy n k with less | same | more
  · have next : k = n + 1 := by rw [abs_le] at close; omega
    have low := second.above
    have high := first.below
    rw [next] at low
    push_cast at low
    have even := first.tie (.inr (by linarith))
    have odd := second.tie (.inl (by rw [next]; push_cast; linarith))
    omega
  · exact same
  · have next : n = k + 1 := by rw [abs_le] at close; omega
    have low := first.above
    have high := second.below
    rw [next] at low
    push_cast at low
    have even := second.tie (.inr (by linarith))
    have odd := first.tie (.inl (by rw [next]; push_cast; linarith))
    omega

theorem nearestInt_eq {x : ℚ} {n : ℤ} (nearest : IsNearest x n) : nearestInt x = n :=
  (isNearest_nearestInt x).unique nearest

@[simp] theorem nearestInt_intCast (n : ℤ) : nearestInt n = n := by
  apply nearestInt_eq
  refine ⟨by linarith, by linarith, ?_⟩
  rintro (low | high) <;> linarith

theorem nearestInt_neg (x : ℚ) : nearestInt (-x) = -nearestInt x := by
  obtain ⟨above, below, tie⟩ := isNearest_nearestInt x
  apply nearestInt_eq
  refine ⟨by push_cast; linarith, by push_cast; linarith, ?_⟩
  push_cast
  rintro (low | high)
  · have even := tie (.inr (by linarith))
    omega
  · have even := tie (.inl (by linarith))
    omega

theorem nearestInt_mono {x y : ℚ} (le : x ≤ y) : nearestInt x ≤ nearestInt y := by
  by_contra less
  have least : (nearestInt y : ℚ) + 1 ≤ nearestInt x := by exact_mod_cast not_le.mp less
  have same : x = y := by
    linarith [(isNearest_nearestInt x).above, (isNearest_nearestInt y).below]
  exact less (by rw [same])

section nearest

variable (spec : Format)

/-- The exponent of the last bit that is kept of a number of the size of `q`. -/
def ulpExponent (q : ℚ) : ℤ := max (Int.log 2 |q| + 1 - spec.mantissaBits) spec.minExponent

/-- The number of the format that is nearest to `q`, as if the format had no largest number. -/
def nearest (q : ℚ) : ℚ := nearestInt (q / 2 ^ ulpExponent spec q) * 2 ^ ulpExponent spec q

variable {q r : ℚ}

theorem mantissaBits_pos : 0 < spec.mantissaBits := by
  unfold Format.mantissaBits
  omega

theorem lt_zpow_ulpExponent (positive : 0 < q) :
    q < 2 ^ (ulpExponent spec q + spec.mantissaBits) := by
  calc
    q < (2 : ℕ) ^ (Int.log 2 q + 1) := Int.lt_zpow_succ_log_self one_lt_two q
    _ ≤ 2 ^ (ulpExponent spec q + spec.mantissaBits) := by
      push_cast
      apply zpow_le_zpow_right₀ one_le_two
      unfold ulpExponent
      rw [abs_of_pos positive]
      omega

theorem zpow_le_of_ulpExponent (positive : 0 < q) (normal : ulpExponent spec q ≠ spec.minExponent) :
    2 ^ (ulpExponent spec q + spec.mantissaBits - 1) ≤ q := by
  have exponent : ulpExponent spec q + spec.mantissaBits - 1 = Int.log 2 q := by
    unfold ulpExponent at normal ⊢
    rw [abs_of_pos positive] at normal ⊢
    omega
  rw [exponent]
  exact_mod_cast Int.zpow_log_le_self one_lt_two positive

theorem ulpExponent_neg : ulpExponent spec (-q) = ulpExponent spec q := by
  unfold ulpExponent
  rw [abs_neg]

theorem ulpExponent_mono (positive : 0 < q) (le : q ≤ r) :
    ulpExponent spec q ≤ ulpExponent spec r := by
  have log := Int.log_mono_right (b := 2) positive le
  unfold ulpExponent
  rw [abs_of_pos positive, abs_of_pos (positive.trans_le le)]
  omega

theorem nearest_neg : nearest spec (-q) = -nearest spec q := by
  unfold nearest
  rw [ulpExponent_neg, neg_div, nearestInt_neg]
  push_cast
  ring

@[simp] theorem nearest_zero : nearest spec 0 = 0 := by
  have zero : nearestInt 0 = 0 := nearestInt_intCast 0
  simp [nearest, zero]

/-- A whole multiple of the last bit that is kept bounds the nearest number if it bounds the number.
-/
theorem nearest_le_of_le_mul {n : ℤ} (le : q ≤ n * 2 ^ ulpExponent spec q) :
    nearest spec q ≤ n * 2 ^ ulpExponent spec q := by
  have positive : (0 : ℚ) < 2 ^ ulpExponent spec q := by positivity
  have whole := nearestInt_mono ((div_le_iff₀ positive).mpr le)
  rw [nearestInt_intCast] at whole
  exact mul_le_mul_of_nonneg_right (by exact_mod_cast whole) positive.le

theorem le_nearest_of_mul_le {n : ℤ} (le : n * 2 ^ ulpExponent spec q ≤ q) :
    n * 2 ^ ulpExponent spec q ≤ nearest spec q := by
  have negated := nearest_le_of_le_mul spec (q := -q) (n := -n)
    (by rw [ulpExponent_neg]; push_cast; linarith)
  rw [ulpExponent_neg, nearest_neg] at negated
  push_cast at negated
  linarith

theorem two_zpow_eq_mul {e k : ℤ} (le : e ≤ k) : (2 : ℚ) ^ k = (2 ^ (k - e).toNat : ℤ) * 2 ^ e := by
  push_cast
  rw [← zpow_natCast, ← zpow_add₀ two_ne_zero, Int.toNat_of_nonneg (by omega), sub_add_cancel]

theorem nearest_nonneg (nonneg : 0 ≤ q) : 0 ≤ nearest spec q := by
  have bound := le_nearest_of_mul_le spec (q := q) (n := 0) (by simpa using nonneg)
  simpa using bound

private theorem nearest_mono_of_pos (positive : 0 < q) (le : q ≤ r) :
    nearest spec q ≤ nearest spec r := by
  rcases (ulpExponent_mono spec positive le).eq_or_lt with same | finer
  · unfold nearest
    rw [same]
    have order : q / 2 ^ ulpExponent spec r ≤ r / 2 ^ ulpExponent spec r := by gcongr
    exact mul_le_mul_of_nonneg_right (by exact_mod_cast nearestInt_mono order) (by positivity)
  · -- A power of two lies between the two numbers, and it is a multiple of both last bits.
    have bits : 0 < spec.mantissaBits := mantissaBits_pos spec
    have normal : ulpExponent spec r ≠ spec.minExponent := by
      have least : spec.minExponent ≤ ulpExponent spec q := le_max_right _ _
      omega
    have above : (2 : ℚ) ^ (ulpExponent spec r + spec.mantissaBits - 1) ≤ r :=
      zpow_le_of_ulpExponent spec (positive.trans_le le) normal
    have below : q ≤ 2 ^ (ulpExponent spec r + spec.mantissaBits - 1) :=
      (lt_zpow_ulpExponent spec positive).le.trans
        (zpow_le_zpow_right₀ one_le_two (by omega))
    calc
      nearest spec q ≤ 2 ^ (ulpExponent spec r + spec.mantissaBits - 1) := by
        rw [two_zpow_eq_mul (e := ulpExponent spec q) (by omega)] at below ⊢
        exact nearest_le_of_le_mul spec below
      _ ≤ nearest spec r := by
        rw [two_zpow_eq_mul (e := ulpExponent spec r) (by omega)] at above ⊢
        exact le_nearest_of_mul_le spec above

theorem nearest_mono (le : q ≤ r) : nearest spec q ≤ nearest spec r := by
  rcases lt_or_ge 0 q with positive | nonpos
  · exact nearest_mono_of_pos spec positive le
  · rcases lt_or_ge r 0 with negative | nonneg
    · have negated := nearest_mono_of_pos spec (neg_pos.mpr negative) (neg_le_neg le)
      rw [nearest_neg, nearest_neg] at negated
      linarith
    · have low := nearest_nonneg spec (neg_nonneg.mpr nonpos)
      rw [nearest_neg] at low
      linarith [nearest_nonneg spec nonneg]

/-- A number with few enough bits is in the format, so it is nearest to itself. -/
theorem nearest_eq_self {n k : ℤ} (bits : |n| < 2 ^ spec.mantissaBits) (least : spec.minExponent ≤ k) :
    nearest spec (n * 2 ^ k) = n * 2 ^ k := by
  by_cases zero : n = 0
  · simp [zero]
  have size : |(n : ℚ) * 2 ^ k| = |n| * 2 ^ k := by
    rw [abs_mul, abs_of_pos (by positivity : (0 : ℚ) < 2 ^ k), Int.cast_abs]
  have positive : 0 < |(n : ℚ) * 2 ^ k| := by positivity
  have log : Int.log 2 |(n : ℚ) * 2 ^ k| < spec.mantissaBits + k := by
    rw [← Int.lt_zpow_iff_log_lt one_lt_two positive, size, zpow_add₀ (by norm_num)]
    push_cast
    gcongr
    exact_mod_cast bits
  have fine : ulpExponent spec (n * 2 ^ k) ≤ k := by
    unfold ulpExponent
    omega
  have multiple : (n : ℚ) * 2 ^ k =
      (n * 2 ^ (k - ulpExponent spec (n * 2 ^ k)).toNat : ℤ) * 2 ^ ulpExponent spec (n * 2 ^ k) := by
    conv_lhs => rw [two_zpow_eq_mul fine]
    push_cast
    ring
  apply le_antisymm
  · conv_rhs => rw [multiple]
    exact nearest_le_of_le_mul spec multiple.le
  · conv_lhs => rw [multiple]
    exact le_nearest_of_mul_le spec multiple.ge

end nearest

end LaserCutter.Number
