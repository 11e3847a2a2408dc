import LaserCutter.Proofs.Number.Operands

/-!
# Numbers of moderate size

Numbers whose size is at most a power of two keep to a power of two in each operation. As long as its
exponent stays below that of the largest number, nothing is lost to an infinity.
-/

namespace LaserCutter.Number

open Float.Model (UnpackedFloat)
open Float.Model.UnpackedFloat

/-- A finite number of size at most `2 ^ n`. -/
def Moderate (n : ℕ) (x : Float) : Prop := ∃ q, Stands .binary64 (exact x) q ∧ |q| ≤ 2 ^ n

theorem two_pow_le_largest {n : ℕ} (range : n ≤ 1023) : (2 : ℚ) ^ n ≤ largest .binary64 := by
  calc
    (2 : ℚ) ^ n ≤ 2 ^ (1023 : ℤ) := pow_le_pow_right₀ one_le_two range
    _ ≤ 2 ^ (1023 : ℤ) * (1 + 2 ^ (-53 : ℤ)) := le_mul_of_one_le_right (by positivity) (by norm_num)
    _ ≤ largest .binary64 := two_zpow_1023_le

theorem nearest_two_pow (n : ℕ) : nearest .binary64 (2 ^ n) = 2 ^ n := by
  rw [← zpow_natCast]
  exact nearest_two_zpow (by omega)

section operations

variable {m n : ℕ} {x y : Float}

theorem moderate_pack {u : UnpackedFloat} {q : ℚ}
    (stands : Stands .binary64 u (nearest .binary64 q)) (size : |q| ≤ 2 ^ n) (range : n ≤ 1023) :
    Moderate n (.ofModel (.pack u)) := by
  have kept := abs_nearest_le (nearest_two_pow n) size
  exact ⟨_, stands.repack (by decide) (kept.trans (two_pow_le_largest range)), kept⟩

namespace Moderate

theorem isFinite (moderate : Moderate n x) : Number.isFinite x :=
  have ⟨_, stands, _⟩ := moderate
  isFinite_of_stands stands

theorem mono (moderate : Moderate m x) (le : m ≤ n) : Moderate n x := by
  obtain ⟨q, stands, size⟩ := moderate
  exact ⟨q, stands, size.trans (pow_le_pow_right₀ one_le_two le)⟩

theorem add (first : Moderate n x) (second : Moderate n y) (range : n < 1023) :
    Moderate (n + 1) (x + y) := by
  obtain ⟨p, standsX, sizeX⟩ := first
  obtain ⟨q, standsY, sizeY⟩ := second
  refine moderate_pack (standsX.add standsY) ((abs_add_le p q).trans ?_) range
  rw [pow_succ]
  linarith

theorem sub (first : Moderate n x) (second : Moderate n y) (range : n < 1023) :
    Moderate (n + 1) (x - y) := by
  obtain ⟨p, standsX, sizeX⟩ := first
  obtain ⟨q, standsY, sizeY⟩ := second
  refine moderate_pack (standsX.sub standsY) ((abs_sub p q).trans ?_) range
  rw [pow_succ]
  linarith

theorem mul (first : Moderate m x) (second : Moderate n y) (range : m + n ≤ 1023) :
    Moderate (m + n) (x * y) := by
  obtain ⟨p, standsX, sizeX⟩ := first
  obtain ⟨q, standsY, sizeY⟩ := second
  refine moderate_pack (standsX.mul standsY) ?_ range
  rw [abs_mul, pow_add]
  exact mul_le_mul sizeX sizeY (abs_nonneg q) (by positivity)

theorem half (moderate : Moderate n x) (range : n ≤ 1023) : Moderate n (x / 2) := by
  obtain ⟨q, stands, size⟩ := moderate
  refine moderate_pack (stands.div stands_two two_ne_zero) ?_ range
  rw [abs_div, abs_two]
  linarith [abs_nonneg q]

end Moderate

end operations

section sides

variable {l s x y : Float} {long short : ℚ} {n : ℕ}
  (standsL : Stands .binary64 (exact l) long) (standsS : Stands .binary64 (exact s) short)
  (ordered : short ≤ long)

include standsL standsS ordered

theorem moderate_hypotenuseOf (nonneg : 0 ≤ short) (size : long ≤ 2 ^ n) (range : n ≤ 511) :
    Moderate (n + 2) (hypotenuseOf l s) := by
  have positive := nonneg.trans ordered
  have sum : Moderate (n + 2) (l + s) := by
    have first : Moderate n l := ⟨long, standsL, by rwa [abs_of_nonneg positive]⟩
    have second : Moderate n s := ⟨short, standsS, by
      rw [abs_of_nonneg nonneg]
      exact ordered.trans size⟩
    exact (first.add second (by omega)).mono (Nat.le_succ _)
  obtain ⟨tiny, down, up, large, small⟩ := stands_limits
  have most : long ≤ 2 ^ (511 : ℤ) := size.trans (pow_le_pow_right₀ one_le_two range)
  unfold hypotenuseOf
  dsimp only
  rw [if_neg (mt (float_lt_iff_of_stands large standsL).mp (not_lt.mpr most))]
  split
  · rename_i low
    split
    · exact sum
    · rename_i matters
      have below := (float_lt_iff_of_stands standsS small).mp low
      obtain ⟨least, most⟩ := bounds_of_small standsL standsS ordered nonneg below.le tiny matters
      obtain ⟨a, stands, nonneg, high⟩ := exists_scaledRoot standsL standsS ordered up least most
        (by norm_num) (by norm_num)
      have four : (2 : ℚ) ^ (2 : ℤ) = 4 := by norm_num
      have size : |a * 2 ^ (-600 : ℤ)| ≤ 2 ^ (n + 2) := by
        rw [abs_of_nonneg (by positivity)]
        calc
          a * 2 ^ (-600 : ℤ) ≤ 4 * 2 ^ (-405 + 600 : ℤ) * 2 ^ (-600 : ℤ) := by gcongr
          _ = 2 ^ (2 : ℤ) * 2 ^ (-405 + 600 : ℤ) * 2 ^ (-600 : ℤ) := by rw [four]
          _ = 2 ^ (-403 : ℤ) := by
            rw [← zpow_add₀ two_ne_zero, ← zpow_add₀ two_ne_zero]
            rfl
          _ ≤ 1 := zpow_le_one_of_nonpos₀ one_le_two (by norm_num)
          _ ≤ 2 ^ (n + 2) := one_le_pow₀ one_le_two
      exact moderate_pack (stands.mul down) size (by omega)
  · rename_i low
    have least := not_lt.mp (mt (float_lt_iff_of_stands standsS small).mpr low)
    split
    · exact sum
    · obtain ⟨a, stands, nonneg, high⟩ := exists_correctedRoot standsL standsS ordered
        ((zpow_le_zpow_right₀ one_le_two (by norm_num)).trans least) most
      refine ⟨a, stands, ?_⟩
      rw [abs_of_nonneg nonneg, pow_add]
      linarith

end sides

theorem stands_abs {x : Float} {q : ℚ} (stands : Stands .binary64 (exact x) q) :
    Stands .binary64 (exact x.abs) |q| := by
  have sized : Stands .binary64 (UnpackedFloat.abs (exact x)) |q| := by
    obtain ⟨s, known, rfl⟩ | ⟨s, m, e, _, known, rfl, _⟩ := stands.zero_or_finite
    · rw [known, abs_zero]
      exact .zero .positive
    · have canonical := stands.canonical
      rw [known] at canonical ⊢
      rw [abs_signed s (by positivity)]
      exact ⟨rfl, canonical⟩
  exact sized.repack (by decide) (by rw [abs_abs]; exact abs_le_largest stands)

/-- Sides of moderate size have a length of moderate size. -/
theorem Moderate.hypotenuse {x y : Float} {n : ℕ} (first : Moderate n x) (second : Moderate n y)
    (range : n ≤ 511) : Moderate (n + 2) (Number.hypotenuse x y) := by
  obtain ⟨p, standsX, sizeX⟩ := first
  obtain ⟨q, standsY, sizeY⟩ := second
  have sideX := stands_abs standsX
  have sideY := stands_abs standsY
  have bounded {z : Float} {r : ℚ} (stands : Stands .binary64 (exact z) r) : z.isInf = false := by
    change (exact z).isInf = false
    obtain ⟨s, known, _⟩ | ⟨s, m, e, _, known, _⟩ := stands.zero_or_finite <;> rw [known] <;> rfl
  have order := float_lt_iff_of_stands sideX sideY
  unfold Number.hypotenuse
  dsimp only
  rw [bounded sideX, bounded sideY, Bool.or_self, if_neg Bool.false_ne_true]
  split
  · rename_i less
    exact moderate_hypotenuseOf sideY sideX (order.mp less).le (abs_nonneg p) sizeY range
  · rename_i notLess
    exact moderate_hypotenuseOf sideX sideY (not_lt.mp (mt order.mpr notLess)) (abs_nonneg q) sizeX
      range

end LaserCutter.Number
