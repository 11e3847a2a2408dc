import LaserCutter.Proofs.Number.Shares
import LaserCutter.Proofs.Scan.Rows

/-!
# Scan lines and pixels lie inside the image

Each scan line and each pixel lies half a part behind its number of equal parts of an extent. The
centres of pixels keep between the edges of the image, and scan lines cross it at finite places.
-/

namespace LaserCutter

open Number

/-- The coordinate across of scan line `i` of `count`. -/
def RasterSettings.lineAcross (settings : RasterSettings) (box : Box) (count i : Nat) : Float :=
  let (first, last) := settings.scanDirection.across box
  first + (i.toUInt64.toFloat + 0.5) * ((last - first) / count.toUInt64.toFloat)

section parts

variable {i count : Nat} (inside : i < count) (early : i < 2 ^ 50)

include early

/-- Half a part behind a number of parts is exact. -/
theorem stands_half_behind :
    Stands .binary64 (exact (i.toUInt64.toFloat + 0.5)) (i + 1 / 2) := by
  have whole : Stands .binary64 (exact i.toUInt64.toFloat) i := by
    have converted := stands_count (n := i) (by omega)
    rwa [nearest_count (by omega)] at converted
  have scale : (i + 1 / 2 : ℚ) = (2 * i + 1 : ℕ) / 2 := by
    push_cast
    ring
  obtain ⟨exact, range⟩ := nearest_half (n := 2 * i + 1) (by omega)
  have sum := stands_add whole stands_half (by rwa [scale])
  rwa [scale, exact, ← scale] at sum

include inside

/-- Half a part is missing at least. -/
theorem parts_short : (i + 1 / 2 : ℚ) ≤ nearest .binary64 count * (1 - 2 ^ (-51 : ℤ)) := by
  have next : nearest .binary64 (i + 1 : ℕ) ≤ nearest .binary64 count :=
    nearest_mono .binary64 (by exact_mod_cast inside)
  rw [nearest_count (by omega)] at next
  push_cast at next
  have few : (i : ℚ) + 1 ≤ 2 ^ 50 := by exact_mod_cast early
  have gap : (0 : ℚ) ≤ 1 - 2 ^ (-51 : ℤ) := by norm_num
  calc
    (i + 1 / 2 : ℚ) ≤ (i + 1) * (1 - 2 ^ (-51 : ℤ)) := by
      norm_num at few ⊢
      linarith
    _ ≤ nearest .binary64 count * (1 - 2 ^ (-51 : ℤ)) := mul_le_mul_of_nonneg_right next gap

/-- The share up to the middle of part `i` is rounded to less than the whole. -/
theorem share_short : 0 ≤ nearest .binary64 ((i + 1 / 2) / nearest .binary64 count) ∧
    nearest .binary64 ((i + 1 / 2) / nearest .binary64 count) ≤ 1 - 2 ^ (-51 : ℤ) := by
  have counted := one_le_nearest (Nat.zero_lt_of_lt inside)
  have parts := parts_short inside early
  constructor
  · exact nearest_nonneg _ (div_nonneg (by positivity) (by linarith))
  · have share : (i + 1 / 2) / nearest .binary64 count ≤ 1 - 2 ^ (-51 : ℤ) := by
      rw [div_le_iff₀ (by linarith)]
      linarith
    have self := nearest_eq_self .binary64 (n := 2 ^ 51 - 1) (k := -51) (by decide) (by decide)
    have value : ((2 ^ 51 - 1 : ℤ) : ℚ) * 2 ^ (-51 : ℤ) = 1 - 2 ^ (-51 : ℤ) := by norm_num
    rw [value] at self
    exact self ▸ nearest_mono _ share

/-- A pixel's centre lies between the edges of the image. -/
theorem pixelCentre_between (counts : count < 2 ^ 64) {low high : Float} (finiteLow : isFinite low)
    (finiteHigh : isFinite high) (finite : isFinite (high - low)) :
    low ≤ pixelCentre count low high i ∧ pixelCentre count low high i ≤ high ∨
      high ≤ pixelCentre count low high i ∧ pixelCentre count low high i ≤ low := by
  have counted := one_le_nearest (Nat.zero_lt_of_lt inside)
  have few : (i + 1 / 2 : ℚ) ≤ 2 ^ 64 := by
    have bound : (i : ℚ) ≤ 2 ^ 50 := by exact_mod_cast early.le
    linarith
  have share := stands_div (stands_half_behind early) (stands_count counts) (by linarith) (by
    rw [abs_of_nonneg (div_nonneg (by positivity) (by linarith))]
    exact (div_le_self (by positivity) counted).trans (few.trans two_pow_64_le_largest))
  obtain ⟨nonnegShare, short⟩ := share_short inside early
  exact between_add_share finiteLow finiteHigh finite share nonnegShare short

end parts

/-- The sides of the box and its extents are finite. -/
def Box.isFinite (b : Box) : Bool :=
  Number.isFinite b.minX && Number.isFinite b.minY && Number.isFinite b.maxX &&
    Number.isFinite b.maxY && Number.isFinite b.width && Number.isFinite b.height

theorem ScanDirection.isFinite_along (direction : ScanDirection) {box : Box} (finite : box.isFinite) :
    isFinite (direction.along box).1 ∧ isFinite (direction.along box).2 ∧
      isFinite ((direction.along box).2 - (direction.along box).1) := by
  simp only [Box.isFinite, Box.width, Box.height, Bool.and_eq_true] at finite
  cases direction <;> simp_all [along]

theorem ScanDirection.isFinite_across (direction : ScanDirection) {box : Box} (finite : box.isFinite) :
    isFinite (direction.across box).1 ∧ isFinite (direction.across box).2 ∧
      isFinite ((direction.across box).2 - (direction.across box).1) := by
  simp only [Box.isFinite, Box.width, Box.height, Bool.and_eq_true] at finite
  cases direction <;> simp_all [across]

/-- Scan lines cross a finite box at finite places. -/
theorem RasterSettings.isFinite_lineAcross (settings : RasterSettings) {box : Box}
    (finite : box.isFinite) {count i : Nat} (counts : count < 2 ^ 64) (inside : i < count)
    (early : i < 2 ^ 50) : isFinite (settings.lineAcross box count i) := by
  obtain ⟨first, last, extent⟩ := settings.scanDirection.isFinite_across finite
  have few : (i + 1 / 2 : ℚ) ≤ 2 ^ 50 := by
    have bound : (i + 1 : ℚ) ≤ 2 ^ 50 := by exact_mod_cast early
    linarith
  exact isFinite_add_parts first last extent (stands_half_behind early) (stands_count counts)
    (by positivity) few (one_le_nearest (Nat.zero_lt_of_lt inside)) (parts_short inside early)

end LaserCutter
