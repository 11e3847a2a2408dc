import LaserCutter.Proofs.Number.Binary64
import LaserCutter.Scan.Field

/-!
# The rows that scan lines sample

Scan line `line` of `count` falls on the place `line / count * size` of an image of `size` rows. The
place is computed with four roundings, so it is off by less than a `2 ^ -50` of it, and a line that
falls inside a row samples that row. A line that falls exactly on the edge between two rows may be
rounded back to the row before its own.
-/

namespace LaserCutter

open Number

/-- Where scan line `line` of `count` falls on an image of `size` rows, in binary64 numbers. -/
def fieldPlace (line count size : Nat) : Float :=
  line.toUInt64.toFloat / count.toUInt64.toFloat * size.toUInt64.toFloat

/-- The row that scan line `line` of `count` falls on. -/
def fieldRow (line count size : Nat) : Nat := min (line * size / count) (size - 1)

/-- The line falls inside a row: the edges of the row are further away than a `2 ^ -50` of the place
of the line. -/
def FallsInside (line count size : Nat) : Prop :=
  line * size ≤ 2 ^ 50 * (line * size % count) ∧
    line * size < 2 ^ 50 * (count - line * size % count)

instance (line count size : Nat) : Decidable (FallsInside line count size) :=
  inferInstanceAs (Decidable (_ ∧ _))

/-- The place with each of its roundings. -/
def roundedPlace (line count size : Nat) : ℚ :=
  nearest .binary64
    (nearest .binary64 (nearest .binary64 line / nearest .binary64 count) * size)

section rounding

variable {line next count size : Nat}

theorem stands_count {n : Nat} (small : n < 2 ^ 64) :
    Stands .binary64 n.toUInt64.toFloat.toModel.unpack (nearest .binary64 n) := by
  have same : n.toUInt64.toNat = n := UInt64.toNat_ofNat_of_lt' small
  have converted := stands_uint64 n.toUInt64
  rwa [same] at converted

/-- The share of the lines that lie before one of them is at most the whole. -/
theorem share_range (inside : line < count) :
    0 ≤ nearest .binary64 line / nearest .binary64 count ∧
      nearest .binary64 line / nearest .binary64 count ≤ 1 := by
  have positive := one_le_nearest (Nat.zero_lt_of_lt inside)
  have less : nearest .binary64 line ≤ nearest .binary64 count :=
    nearest_mono .binary64 (by exact_mod_cast inside.le)
  have nonneg : 0 ≤ nearest .binary64 line := nearest_nonneg .binary64 (by positivity)
  exact ⟨div_nonneg nonneg (by linarith), (div_le_one (by linarith)).mpr less⟩

theorem roundedPlace_range (inside : line < count) (small : size < 2 ^ 32) :
    0 ≤ roundedPlace line count size ∧ roundedPlace line count size ≤ size := by
  obtain ⟨nonneg, whole⟩ := share_range inside
  have share := nearest_nonneg .binary64 nonneg
  have least : nearest .binary64 (nearest .binary64 line / nearest .binary64 count) ≤ 1 :=
    nearest_one ▸ nearest_mono .binary64 whole
  have rows : (0 : ℚ) ≤ size := by positivity
  refine ⟨nearest_nonneg .binary64 (by positivity), ?_⟩
  calc
    roundedPlace line count size ≤ nearest .binary64 size :=
      nearest_mono .binary64 (mul_le_of_le_one_left rows least)
    _ = size := nearest_count (by omega)

theorem stands_fieldPlace (lines : count < 2 ^ 64) (small : size < 2 ^ 32)
    (inside : line < count) :
    Stands .binary64 (fieldPlace line count size).toModel.unpack
      (roundedPlace line count size) := by
  obtain ⟨nonneg, whole⟩ := share_range inside
  have positive := one_le_nearest (Nat.zero_lt_of_lt inside)
  have rows : (size : ℚ) ≤ 2 ^ 32 := by exact_mod_cast small.le
  have quotient := ((stands_count (by omega)).div (stands_count lines) (by linarith)).repack
    (by decide) (nearest_range nonneg (by linarith)).2.2
  have count := stands_count (n := size) (by omega)
  rw [nearest_count (by omega)] at count
  have range := roundedPlace_range inside small
  refine (quotient.mul count).repack (by decide) ?_
  rw [← roundedPlace, abs_of_nonneg range.1]
  linarith [two_pow_64_le_largest]

/-- The row that is sampled is the floor of the rounded place. -/
theorem fieldIndex_eq (lines : count < 2 ^ 64) (small : size < 2 ^ 32) (inside : line < count) :
    fieldIndex line count size = min ⌊roundedPlace line count size⌋₊ (size - 1) := by
  have range := roundedPlace_range inside small
  have below : roundedPlace line count size < 2 ^ 32 :=
    range.2.trans_lt (by exact_mod_cast small)
  have floor := toUInt32_of_stands (stands_fieldPlace lines small inside) range.1 below
  rw [← floor]
  rfl

theorem roundedPlace_mono (le : line ≤ next) (filled : 0 < count) :
    roundedPlace line count size ≤ roundedPlace next count size := by
  have positive := one_le_nearest filled
  have order : nearest .binary64 line ≤ nearest .binary64 next :=
    nearest_mono .binary64 (by exact_mod_cast le)
  have share : nearest .binary64 line / nearest .binary64 count ≤
      nearest .binary64 next / nearest .binary64 count :=
    div_le_div_of_nonneg_right order (by linarith)
  exact nearest_mono .binary64
    (mul_le_mul_of_nonneg_right (nearest_mono .binary64 share) (by positivity))

end rounding

section error

variable {line count size : Nat}

theorem roundedPlace_zero : roundedPlace 0 count size = 0 := by
  simp [roundedPlace]

/-- The quotient of two rounded counts is off by about two roundings. -/
theorem quotient_window (lines : count < 2 ^ 64) (beyond : 0 < line) (inside : line < count) :
    2 ^ (-64 : ℤ) ≤ nearest .binary64 line / nearest .binary64 count ∧
      (line / count : ℚ) * ((1 - 2 ^ (-53 : ℤ)) / (1 + 2 ^ (-53 : ℤ))) ≤
        nearest .binary64 line / nearest .binary64 count ∧
      nearest .binary64 line / nearest .binary64 count ≤
        (line / count : ℚ) * ((1 + 2 ^ (-53 : ℤ)) / (1 - 2 ^ (-53 : ℤ))) := by
  have normal {n : ℕ} (positive : 0 < n) : (2 : ℚ) ^ (-1022 : ℤ) ≤ n :=
    (zpow_le_one_of_nonpos₀ one_le_two (by norm_num)).trans (by exact_mod_cast positive)
  have filled := beyond.trans inside
  have atLine := nearest_window (normal beyond)
  have atCount := nearest_window (normal filled)
  have one := one_le_nearest beyond
  have one' := one_le_nearest filled
  have top := (nearest_range (q := count) (by positivity) (by exact_mod_cast lines.le)).2.1
  have numbers : (0 : ℚ) < line ∧ (0 : ℚ) < count := by exact_mod_cast And.intro beyond filled
  have least : (0 : ℚ) < 1 - 2 ^ (-53 : ℤ) := by norm_num
  refine ⟨?_, ?_, ?_⟩
  · rw [zpow_neg, ← one_div]
    exact div_le_div₀ (by linarith) one (by linarith) top
  · rw [div_mul_div_comm]
    exact div_le_div₀ (by linarith) atLine.1 (by linarith) atCount.2
  · rw [div_mul_div_comm]
    exact div_le_div₀ (mul_nonneg numbers.1.le (by norm_num)) atLine.2
      (mul_pos numbers.2 least) atCount.1

/-- Four roundings move the place by less than a `2 ^ -50` of it. -/
theorem roundedPlace_window (lines : count < 2 ^ 64) (rows : 0 < size) (inside : line < count) :
    (line * size / count : ℚ) * (1 - 2 ^ (-50 : ℤ)) ≤ roundedPlace line count size ∧
      roundedPlace line count size ≤ (line * size / count : ℚ) * (1 + 2 ^ (-50 : ℤ)) := by
  rcases line.eq_zero_or_pos with rfl | beyond
  · simp [roundedPlace_zero]
  obtain ⟨normal, low, high⟩ := quotient_window lines beyond inside
  have one : (1 : ℚ) ≤ size := by exact_mod_cast rows
  set q := nearest .binary64 line / nearest .binary64 count with quotient
  have share := nearest_window (q := q)
    ((zpow_le_zpow_right₀ one_le_two (by norm_num)).trans normal)
  have place := nearest_window (q := nearest .binary64 q * size) <| by
    calc
      (2 : ℚ) ^ (-1022 : ℤ) ≤ 2 ^ (-65 : ℤ) := zpow_le_zpow_right₀ one_le_two (by norm_num)
      _ ≤ 2 ^ (-64 : ℤ) * (1 - 2 ^ (-53 : ℤ)) := by norm_num
      _ ≤ q * (1 - 2 ^ (-53 : ℤ)) := by gcongr
      _ ≤ nearest .binary64 q := share.1
      _ ≤ nearest .binary64 q * size := le_mul_of_one_le_right
        (nearest_nonneg .binary64 (le_trans (by positivity) normal)) one
  have nonneg : (0 : ℚ) ≤ line * size / count := by positivity
  constructor
  · calc
      (line * size / count : ℚ) * (1 - 2 ^ (-50 : ℤ)) ≤ line * size / count *
          ((1 - 2 ^ (-53 : ℤ)) / (1 + 2 ^ (-53 : ℤ)) * (1 - 2 ^ (-53 : ℤ)) ^ 2) := by
        gcongr
        norm_num
      _ = line / count * ((1 - 2 ^ (-53 : ℤ)) / (1 + 2 ^ (-53 : ℤ))) * (1 - 2 ^ (-53 : ℤ)) * size *
          (1 - 2 ^ (-53 : ℤ)) := by ring
      _ ≤ q * (1 - 2 ^ (-53 : ℤ)) * size * (1 - 2 ^ (-53 : ℤ)) := by gcongr
      _ ≤ nearest .binary64 q * size * (1 - 2 ^ (-53 : ℤ)) := by
        gcongr
        exact share.1
      _ ≤ roundedPlace line count size := place.1
  · calc
      roundedPlace line count size ≤ nearest .binary64 q * size * (1 + 2 ^ (-53 : ℤ)) := place.2
      _ ≤ q * (1 + 2 ^ (-53 : ℤ)) * size * (1 + 2 ^ (-53 : ℤ)) := by
        gcongr
        exact share.2
      _ ≤ line / count * ((1 + 2 ^ (-53 : ℤ)) / (1 - 2 ^ (-53 : ℤ))) * (1 + 2 ^ (-53 : ℤ)) * size *
          (1 + 2 ^ (-53 : ℤ)) := by gcongr
      _ = line * size / count *
          ((1 + 2 ^ (-53 : ℤ)) / (1 - 2 ^ (-53 : ℤ)) * (1 + 2 ^ (-53 : ℤ)) ^ 2) := by ring
      _ ≤ (line * size / count : ℚ) * (1 + 2 ^ (-50 : ℤ)) := by
        gcongr
        norm_num

end error

section rows

variable {line count size : Nat}

theorem quotient_lt (rows : 0 < size) (inside : line < count) : line * size / count < size :=
  Nat.div_lt_of_lt_mul (Nat.mul_lt_mul_of_pos_right inside rows)

theorem fieldRow_eq (rows : 0 < size) (inside : line < count) :
    fieldRow line count size = line * size / count := by
  have below := quotient_lt rows inside
  unfold fieldRow
  omega

/-- The exact place, as the row that the line falls on and how far it is into that row. -/
theorem place_eq (line size : Nat) {count : Nat} (filled : 0 < count) : (line * size / count : ℚ) =
    (line * size / count : ℕ) + (line * size % count : ℕ) / count := by
  have parts : (count * (line * size / count) + line * size % count : ℕ) = line * size :=
    Nat.div_add_mod _ _
  have parts' : (count : ℚ) * (line * size / count : ℕ) + (line * size % count : ℕ) =
      line * size := by
    exact_mod_cast parts
  have nonzero : (count : ℚ) ≠ 0 := by positivity
  rw [← parts']
  field_simp

theorem fieldIndex_eq_of_floor (lines : count < 2 ^ 64) (small : size < 2 ^ 32)
    (inside : line < count) {row : ℕ} (below : row < size)
    (above : row ≤ roundedPlace line count size) (less : roundedPlace line count size < row + 1) :
    fieldIndex line count size = row := by
  have floor : ⌊roundedPlace line count size⌋₊ = row :=
    (Nat.floor_eq_iff (roundedPlace_range inside small).1).mpr ⟨above, less⟩
  rw [fieldIndex_eq lines small inside, floor]
  omega

/-- A line that falls inside a row samples that row. -/
theorem fieldIndex_of_fallsInside (lines : count < 2 ^ 64) (rows : 0 < size) (small : size < 2 ^ 32)
    (inside : line < count) (clear : FallsInside line count size) :
    fieldIndex line count size = fieldRow line count size := by
  have positive : (0 : ℚ) < count := by exact_mod_cast Nat.zero_lt_of_lt inside
  have left := Nat.mod_lt (line * size) (Nat.zero_lt_of_lt inside)
  obtain ⟨low, high⟩ := roundedPlace_window lines rows inside
  have place := place_eq line size (Nat.zero_lt_of_lt inside)
  have start : (line * size / count : ℚ) * 2 ^ (-50 : ℤ) ≤ (line * size % count : ℕ) / count := by
    have clear : (line * size : ℚ) ≤ 2 ^ 50 * (line * size % count : ℕ) := by
      exact_mod_cast clear.1
    rw [div_mul_eq_mul_div]
    gcongr
    norm_num
    linarith
  have stop : (line * size / count : ℚ) * 2 ^ (-50 : ℤ) <
      1 - (line * size % count : ℕ) / count := by
    have clear : (line * size : ℚ) < 2 ^ 50 * ((count : ℚ) - (line * size % count : ℕ)) := by
      have clear := clear.2
      rw [← Nat.cast_sub left.le]
      exact_mod_cast clear
    rw [one_sub_div positive.ne', div_mul_eq_mul_div]
    gcongr
    norm_num
    linarith
  rw [fieldRow_eq rows inside]
  exact fieldIndex_eq_of_floor lines small inside (quotient_lt rows inside) (by linarith)
    (by linarith)

/-- The rounding errors of a place are together less than a row. -/
theorem abs_roundedPlace_sub_lt (lines : count < 2 ^ 64) (rows : 0 < size) (small : size < 2 ^ 32)
    (inside : line < count) :
    |roundedPlace line count size - line * size / count| < 1 := by
  have positive : (0 : ℚ) < count := by exact_mod_cast Nat.zero_lt_of_lt inside
  obtain ⟨low, high⟩ := roundedPlace_window lines rows inside
  have least : (line * size / count : ℚ) ≤ 2 ^ 32 := by
    have share : (line : ℚ) ≤ count := by exact_mod_cast inside.le
    have rows : (size : ℚ) ≤ 2 ^ 32 := by exact_mod_cast small.le
    rw [div_le_iff₀ positive, mul_comm]
    gcongr
  rw [abs_lt]
  norm_num at low high least ⊢
  constructor <;> linarith

theorem fieldIndex_within_one (lines : count < 2 ^ 64) (rows : 0 < size) (small : size < 2 ^ 32)
    (inside : line < count) :
    fieldIndex line count size ≤ fieldRow line count size + 1 ∧
      fieldRow line count size ≤ fieldIndex line count size + 1 := by
  have near := abs_lt.mp (abs_roundedPlace_sub_lt lines rows small inside)
  have floor := Nat.floor_le (roundedPlace_range inside small).1
  have floor' := Nat.lt_floor_add_one (roundedPlace line count size)
  have below := quotient_lt rows inside
  have place := place_eq line size (Nat.zero_lt_of_lt inside)
  have nonneg : (0 : ℚ) ≤ (line * size % count : ℕ) / count := by positivity
  have proper : ((line * size % count : ℕ) / count : ℚ) < 1 := by
    have left := Nat.mod_lt (line * size) (Nat.zero_lt_of_lt inside)
    rw [div_lt_one (by exact_mod_cast Nat.zero_lt_of_lt inside)]
    exact_mod_cast left
  have least : ⌊roundedPlace line count size⌋₊ < line * size / count + 2 := by
    have least : (⌊roundedPlace line count size⌋₊ : ℚ) < (line * size / count : ℕ) + 2 := by
      linarith
    exact_mod_cast least
  have most : line * size / count < ⌊roundedPlace line count size⌋₊ + 2 := by
    have most : ((line * size / count : ℕ) : ℚ) < ⌊roundedPlace line count size⌋₊ + 2 := by
      linarith
    exact_mod_cast most
  rw [fieldIndex_eq lines small inside, fieldRow_eq rows inside]
  omega

theorem fieldPlace_lt_iff (lines : count < 2 ^ 64) (small : size < 2 ^ 32) (inside : line < count)
    {row : ℕ} (below : row < size) :
    fieldPlace line count size < row.toUInt64.toFloat ↔ roundedPlace line count size < row := by
  have place := place?_of_stands (stands_fieldPlace lines small inside)
  have edge := stands_count (n := row) (by omega)
  rw [nearest_count (by omega)] at edge
  rw [lt_iff_place]
  unfold Number.exact
  rw [place, place?_of_stands edge]
  simp only [Option.mem_def, Option.some.injEq, exists_eq_left', WithBot.coe_lt_coe,
    WithTop.coe_lt_coe]

/-- A line on the edge of a row samples that row, or the row before if its place is rounded down. -/
theorem fieldIndex_of_dvd (lines : count < 2 ^ 64) (rows : 0 < size) (small : size < 2 ^ 32)
    (inside : line < count) (edge : count ∣ line * size) :
    fieldIndex line count size =
      if fieldPlace line count size < (fieldRow line count size).toUInt64.toFloat then
        fieldRow line count size - 1
      else fieldRow line count size := by
  have near := abs_lt.mp (abs_roundedPlace_sub_lt lines rows small inside)
  have below := quotient_lt rows inside
  have range := roundedPlace_range inside small
  have exact : (line * size / count : ℚ) = (line * size / count : ℕ) := by
    have nonzero : (count : ℚ) ≠ 0 := by exact_mod_cast (Nat.zero_lt_of_lt inside).ne'
    rw [Nat.cast_div edge nonzero, Nat.cast_mul]
  rw [exact] at near
  rw [fieldRow_eq rows inside]
  split
  · rename_i early
    rw [fieldPlace_lt_iff lines small inside below] at early
    have beyond : 0 < line * size / count := by
      have positive := range.1.trans_lt early
      exact_mod_cast positive
    have before : ((line * size / count - 1 : ℕ) : ℚ) = (line * size / count : ℕ) - 1 :=
      Nat.cast_pred beyond
    refine fieldIndex_eq_of_floor lines small inside (by omega) ?_ ?_
    · linarith
    · linarith
  · rename_i reached
    rw [fieldPlace_lt_iff lines small inside below, not_lt] at reached
    exact fieldIndex_eq_of_floor lines small inside below reached (by linarith)

/-- Where the image is not huge, a line falls inside a row or exactly on the edge of one. -/
theorem fallsInside_or_dvd (moderate : count * size ≤ 2 ^ 50) (rows : 0 < size)
    (inside : line < count) : FallsInside line count size ∨ count ∣ line * size := by
  rcases (line * size % count).eq_zero_or_pos with edge | within
  · exact .inr (Nat.dvd_of_mod_eq_zero edge)
  · have less := Nat.mul_lt_mul_of_pos_right inside rows
    have left := Nat.mod_lt (line * size) (Nat.zero_lt_of_lt inside)
    unfold FallsInside
    omega

theorem fieldIndex_mono {next : ℕ} (lines : count < 2 ^ 64) (small : size < 2 ^ 32)
    (le : line ≤ next) (inside : next < count) :
    fieldIndex line count size ≤ fieldIndex next count size := by
  rw [fieldIndex_eq lines small (le.trans_lt inside), fieldIndex_eq lines small inside]
  exact min_le_min_right _
    (Nat.floor_mono (roundedPlace_mono le (Nat.zero_lt_of_lt inside)))

/-- A line that lies `into` lines' shares into a row falls on that row. -/
theorem row_of_split {row into : ℕ} (split : line * size = row * count + into) (less : into < count)
    (below : row < size) :
    line < count ∧ line * size / count = row ∧ line * size % count = into := by
  have quotient : line * size / count = row := by
    rw [split, Nat.mul_comm, Nat.mul_add_div (Nat.zero_lt_of_lt less), Nat.div_eq_of_lt less,
      Nat.add_zero]
  have remainder : line * size % count = into := by
    rw [split, Nat.mul_comm, Nat.mul_add_mod, Nat.mod_eq_of_lt less]
  refine ⟨?_, quotient, remainder⟩
  rw [← quotient, Nat.div_lt_iff_lt_mul (Nat.zero_lt_of_lt less), Nat.mul_comm size] at below
  exact Nat.lt_of_mul_lt_mul_right below

/-- With more lines than rows the first line behind the upper edge of a row falls on the row, off
its edges. -/
theorem exists_line_inside {row : ℕ} (more : size < count) (below : row < size) :
    ∃ line < count, line * size / count = row ∧ ¬ count ∣ line * size := by
  have parts := Nat.div_add_mod (row * count) size
  have left := Nat.mod_lt (row * count) (Nat.zero_lt_of_lt below)
  have split : (row * count / size + 1) * size = row * count + (size - row * count % size) := by
    rw [Nat.add_mul, Nat.mul_comm (row * count / size)]
    omega
  obtain ⟨inside, quotient, remainder⟩ := row_of_split split (by omega) below
  refine ⟨_, inside, quotient, fun edge => ?_⟩
  rw [Nat.mod_eq_zero_of_dvd edge] at remainder
  omega

/-- With two lines for each row one of them falls into the middle half of the row. -/
theorem exists_line_fallsInside {row : ℕ} (double : 2 * size ≤ count) (small : size < 2 ^ 32)
    (below : row < size) :
    ∃ line < count, line * size / count = row ∧ FallsInside line count size := by
  have parts := Nat.div_add_mod ((4 * row + 1) * count) (4 * size)
  have left := Nat.mod_lt ((4 * row + 1) * count) (y := 4 * size) (by omega)
  set line := (4 * row + 1) * count / (4 * size) + 1 with chosen
  set ahead := 4 * size - (4 * row + 1) * count % (4 * size) with rest
  have split : 4 * (line * size) = 4 * (row * count) + (count + ahead) := by
    have whole : 4 * (line * size) =
        4 * size * ((4 * row + 1) * count / (4 * size)) + 4 * size := by
      rw [chosen]
      ring
    have shares : (4 * row + 1) * count = 4 * (row * count) + count := by ring
    omega
  have placed : line * size = row * count + (line * size - row * count) := by omega
  obtain ⟨inside, quotient, remainder⟩ := row_of_split placed (by omega) below
  have least : line * size < 2 ^ 32 * count := by
    calc
      line * size < count * size := Nat.mul_lt_mul_of_pos_right inside (Nat.zero_lt_of_lt below)
      _ ≤ count * 2 ^ 32 := Nat.mul_le_mul_left count small.le
      _ = 2 ^ 32 * count := Nat.mul_comm _ _
  refine ⟨line, inside, quotient, ?_, ?_⟩
  · omega
  · omega

/-- With more lines than rows each row is sampled. -/
theorem exists_fieldIndex_eq (lines : count < 2 ^ 64) (small : size < 2 ^ 32) (more : size < count)
    (moderate : count * size ≤ 2 ^ 50 ∨ 2 * size ≤ count) {row : ℕ} (below : row < size) :
    ∃ line < count, fieldIndex line count size = row := by
  have rows := Nat.zero_lt_of_lt below
  obtain ⟨line, inside, quotient, clear⟩ :
      ∃ line < count, line * size / count = row ∧ FallsInside line count size := by
    rcases moderate with moderate | double
    · obtain ⟨line, inside, quotient, off⟩ := exists_line_inside more below
      exact ⟨line, inside, quotient, (fallsInside_or_dvd moderate rows inside).resolve_right off⟩
    · exact exists_line_fallsInside double small below
  refine ⟨line, inside, ?_⟩
  rw [fieldIndex_of_fallsInside lines rows small inside clear, fieldRow_eq rows inside, quotient]

end rows

/-- The rows that scan lines sample follow each other in the order of the lines, and each is the row
that its line falls on or one beside it. It is the row itself if the line falls inside it; on its
edge it is so unless the binary64 place lies before the edge, and then the row before is sampled.
These are all cases as long as `count * size` is at most `2 ^ 50`. With more lines than rows each
row is sampled; with as many, every line lies on an edge. -/
theorem lines_sample_rows {count size : Nat} (lines : count < 2 ^ 64) (rows : 0 < size)
    (small : size < 2 ^ 32) :
    (∀ line next, line ≤ next → next < count →
      fieldIndex line count size ≤ fieldIndex next count size) ∧
    (∀ line < count,
      fieldIndex line count size ≤ fieldRow line count size + 1 ∧
      fieldRow line count size ≤ fieldIndex line count size + 1 ∧
      (FallsInside line count size → fieldIndex line count size = fieldRow line count size) ∧
      (count ∣ line * size → fieldIndex line count size =
        if fieldPlace line count size < (fieldRow line count size).toUInt64.toFloat then
          fieldRow line count size - 1
        else fieldRow line count size) ∧
      (count * size ≤ 2 ^ 50 → FallsInside line count size ∨ count ∣ line * size)) ∧
    (size < count → count * size ≤ 2 ^ 50 ∨ 2 * size ≤ count →
      ∀ row < size, ∃ line < count, fieldIndex line count size = row) := by
  refine ⟨fun line next le inside => fieldIndex_mono lines small le inside,
    fun line inside => ?_, fun more moderate row below =>
      exists_fieldIndex_eq lines small more moderate below⟩
  obtain ⟨high, low⟩ := fieldIndex_within_one lines rows small inside
  exact ⟨high, low, fieldIndex_of_fallsInside lines rows small inside,
    fieldIndex_of_dvd lines rows small inside,
    fun moderate => fallsInside_or_dvd moderate rows inside⟩

/-- Twenty rows under twenty-two lines: line ten falls inside row nine, line eleven on the edge of
row ten, and no row is left out. -/
theorem lines_sample_rows_twenty :
    22 < 2 ^ 64 ∧ 0 < 20 ∧ 20 < 2 ^ 32 ∧ 22 * 20 ≤ 2 ^ 50 ∧
      fieldIndex 9 22 20 ≤ fieldIndex 10 22 20 ∧ fieldIndex 10 22 20 = 9 ∧
      fieldIndex 11 22 20 = 10 ∧ ∃ line < 22, fieldIndex line 22 20 = 15 := by
  have lines : 22 < 2 ^ 64 := by decide
  have rows : 0 < 20 := by decide
  have small : 20 < 2 ^ 32 := by decide
  obtain ⟨ordered, sampled, covered⟩ := lines_sample_rows lines rows small
  refine ⟨lines, rows, small, by decide, ordered 9 10 (by decide) (by decide), ?_, ?_,
    covered (by decide) (.inl (by decide)) 15 (by decide)⟩
  · exact (sampled 10 (by decide)).2.2.1 (by decide)
  · exact ((sampled 11 (by decide)).2.2.2.1 (by decide)).trans (by decide)

/-- Twenty-two lines over as many rows: row fourteen is sampled twice and row fifteen never. -/
theorem row_skipped :
    fieldIndex 14 22 22 = 14 ∧ fieldIndex 15 22 22 = 14 ∧ fieldRow 15 22 22 = 15 ∧
      ∀ line < 22, fieldIndex line 22 22 ≠ 15 := by
  decide

end LaserCutter
