import LaserCutter.Proofs.Number.Finite

/-!
# Shares of an extent

The way from one side of an extent to another is computed, divided into equal parts, and some of them
are gone from the first side. Each step is rounded. The share gone is short of the whole by at least a
`2 ^ -51` if it leaves half a part and there are not too many of them, and that makes up for the
roundings: what is reached lies between the two sides.
-/

namespace LaserCutter.Number

open Float.Model (Format UnpackedFloat)
open Float.Model.UnpackedFloat

/-- A whole multiple of the least positive number of the format. -/
def OnGrid (q : ℚ) : Prop := ∃ n : ℤ, q = n * 2 ^ Format.binary64.minExponent

theorem Stands.onGrid {u : UnpackedFloat} {a : ℚ} (stands : Stands .binary64 u a) : OnGrid a := by
  obtain ⟨s, rfl, rfl⟩ | ⟨s, m, e, positive, rfl, rfl, _, low, _⟩ := stands.zero_or_finite
  · exact ⟨0, by simp⟩
  · obtain ⟨n, value⟩ : OnGrid (m * 2 ^ e) := by
      refine ⟨m * (2 ^ (e - Format.binary64.minExponent).toNat : ℤ), ?_⟩
      rw [two_zpow_eq_mul low]
      push_cast
      ring
    cases s with
    | positive => exact ⟨n, value⟩
    | negative => exact ⟨-n, by rw [signed, value]; push_cast; ring⟩

theorem OnGrid.sub {a b : ℚ} (first : OnGrid a) (second : OnGrid b) : OnGrid (a - b) := by
  obtain ⟨n, rfl⟩ := first
  obtain ⟨k, rfl⟩ := second
  exact ⟨n - k, by push_cast; ring⟩

section extent

variable {d y : ℚ}

/-- A small difference of two numbers is exact. -/
theorem OnGrid.nearest_eq (grid : OnGrid d) (small : |d| < 2 ^ (-1021 : ℤ)) :
    nearest .binary64 d = d := by
  obtain ⟨n, rfl⟩ := grid
  refine nearest_eq_self .binary64 ?_ (by decide)
  have scale : (0 : ℚ) < 2 ^ Format.binary64.minExponent := by positivity
  have bits : (2 : ℚ) ^ (-1021 : ℤ) =
      2 ^ Format.binary64.mantissaBits * 2 ^ Format.binary64.minExponent := by
    rw [← zpow_natCast, ← zpow_add₀ two_ne_zero]
    rfl
  rw [abs_mul, abs_of_pos scale, bits] at small
  have room := lt_of_mul_lt_mul_right small scale.le
  exact_mod_cast room

/-- A difference of two numbers is rounded by a `2 ^ -53` of it at most, also if it is subnormal. -/
theorem OnGrid.nearest_le (grid : OnGrid d) (nonneg : 0 ≤ d) :
    nearest .binary64 d ≤ d * (1 + 2 ^ (-53 : ℤ)) := by
  rcases lt_or_ge d (2 ^ (-1021 : ℤ)) with small | normal
  · rw [grid.nearest_eq (by rwa [abs_of_nonneg nonneg])]
    exact le_mul_of_one_le_right nonneg (by norm_num)
  · exact (nearest_window ((zpow_le_zpow_right₀ one_le_two (by norm_num)).trans normal)).2

theorem nearest_two_zpow {k : ℤ} (least : -1074 ≤ k) : nearest .binary64 (2 ^ k) = 2 ^ k := by
  have self := nearest_eq_self .binary64 (n := 1) (k := k) (by decide) least
  rwa [Int.cast_one, one_mul] at self

/-- What is short of a difference by a little is so after rounding too. -/
theorem OnGrid.nearest_le_of_le (grid : OnGrid d) (nonneg : 0 ≤ d)
    (short : y ≤ d * (1 - 2 ^ (-52 : ℤ))) : nearest .binary64 y ≤ d := by
  have less : y ≤ d := short.trans (mul_le_of_le_one_right nonneg (by norm_num))
  rcases lt_or_ge d (2 ^ (-1021 : ℤ)) with small | large
  · exact grid.nearest_eq (by rwa [abs_of_nonneg nonneg]) ▸ nearest_mono _ less
  · rcases lt_or_ge y (2 ^ (-1022 : ℤ)) with subnormal | normal
    · calc
        nearest .binary64 y ≤ nearest .binary64 (2 ^ (-1022 : ℤ)) := nearest_mono _ subnormal.le
        _ = 2 ^ (-1022 : ℤ) := nearest_two_zpow (by norm_num)
        _ ≤ d := (zpow_le_zpow_right₀ one_le_two (by norm_num)).trans large
    · calc
        nearest .binary64 y ≤ y * (1 + 2 ^ (-53 : ℤ)) := (nearest_window normal).2
        _ ≤ d * (1 - 2 ^ (-52 : ℤ)) * (1 + 2 ^ (-53 : ℤ)) := by gcongr
        _ = d * ((1 - 2 ^ (-52 : ℤ)) * (1 + 2 ^ (-53 : ℤ))) := by ring
        _ ≤ d := mul_le_of_le_one_right nonneg (by norm_num)

end extent

/-- The number lies between two others, in whichever order these are. -/
def Within (a b q : ℚ) : Prop := a ≤ q ∧ q ≤ b ∨ b ≤ q ∧ q ≤ a

theorem Within.neg {a b q : ℚ} (within : Within a b q) : Within (-a) (-b) (-q) := by
  rcases within with ⟨low, high⟩ | ⟨low, high⟩
  · exact .inr ⟨neg_le_neg high, neg_le_neg low⟩
  · exact .inl ⟨neg_le_neg high, neg_le_neg low⟩

theorem Within.bounded {a b q bound : ℚ} (within : Within a b q) (first : |a| ≤ bound)
    (second : |b| ≤ bound) : |q| ≤ bound := by
  rw [abs_le] at first second ⊢
  rcases within with ⟨low, high⟩ | ⟨low, high⟩ <;> constructor <;> linarith

/-- A share of the way, with its roundings. -/
def shareGone (share d : ℚ) : ℚ := nearest .binary64 (share * nearest .binary64 d)

/-- Some of `count` equal parts of the way, with their roundings. -/
def partsGone (parts count d : ℚ) : ℚ :=
  nearest .binary64 (parts * nearest .binary64 (nearest .binary64 d / count))

section gone

variable {d share parts count : ℚ}

theorem shareGone_neg : shareGone share (-d) = -shareGone share d := by
  rw [shareGone, nearest_neg, mul_neg, nearest_neg, shareGone]

theorem partsGone_neg : partsGone parts count (-d) = -partsGone parts count d := by
  rw [partsGone, nearest_neg, neg_div, nearest_neg, mul_neg, nearest_neg, partsGone]

theorem within_shareGone (grid : OnGrid d) (nonnegShare : 0 ≤ share)
    (short : share ≤ 1 - 2 ^ (-51 : ℤ)) : Within 0 d (shareGone share d) := by
  have forward {d : ℚ} (grid : OnGrid d) (nonneg : 0 ≤ d) :
      0 ≤ shareGone share d ∧ shareGone share d ≤ d := by
    refine ⟨nearest_nonneg _ (mul_nonneg nonnegShare (nearest_nonneg _ nonneg)), ?_⟩
    refine grid.nearest_le_of_le nonneg ?_
    calc
      share * nearest .binary64 d ≤ (1 - 2 ^ (-51 : ℤ)) * (d * (1 + 2 ^ (-53 : ℤ))) := by
        gcongr
        · exact nearest_nonneg _ nonneg
        · exact grid.nearest_le nonneg
      _ = d * ((1 - 2 ^ (-51 : ℤ)) * (1 + 2 ^ (-53 : ℤ))) := by ring
      _ ≤ d * (1 - 2 ^ (-52 : ℤ)) := by
        gcongr
        norm_num
  rcases le_total 0 d with nonneg | nonpos
  · exact .inl (forward grid nonneg)
  · have back := forward (OnGrid.sub ⟨0, by simp⟩ grid) (by linarith : 0 ≤ 0 - d)
    rw [zero_sub, shareGone_neg] at back
    exact .inr ⟨by linarith, by linarith⟩

/-- Parts of a subnormal size do not come to much. -/
theorem parts_of_tiny (few : parts ≤ 2 ^ 50) {part : ℚ} (nonneg : 0 ≤ part)
    (tiny : part < 2 ^ (-1022 : ℤ)) : parts * nearest .binary64 part ≤ 2 ^ (-972 : ℤ) := by
  have least := nearest_two_zpow (k := -1022) (by norm_num)
  calc
    parts * nearest .binary64 part ≤ 2 ^ 50 * nearest .binary64 (2 ^ (-1022 : ℤ)) := by
      gcongr
      · exact nearest_nonneg _ nonneg
      · exact nearest_mono _ tiny.le
    _ = 2 ^ (-972 : ℤ) := by
      rw [least, ← zpow_natCast, ← zpow_add₀ two_ne_zero]
      norm_num

/-- The roundings of the parts come to less than what is missing. -/
theorem parts_of_normal (positive : 0 < parts) (counted : 1 ≤ count)
    (short : parts ≤ count * (1 - 2 ^ (-51 : ℤ))) {whole : ℚ} (nonneg : 0 ≤ whole)
    (normal : 2 ^ (-1022 : ℤ) ≤ whole / count) :
    parts * nearest .binary64 (whole / count) ≤
      (1 - 2 ^ (-51 : ℤ)) * (1 + 2 ^ (-53 : ℤ)) * whole := by
  have share : parts / count ≤ 1 - 2 ^ (-51 : ℤ) := by
    rw [div_le_iff₀ (by linarith)]
    linarith
  calc
    parts * nearest .binary64 (whole / count) ≤ parts * (whole / count * (1 + 2 ^ (-53 : ℤ))) := by
      gcongr
      exact (nearest_window normal).2
    _ = parts / count * (1 + 2 ^ (-53 : ℤ)) * whole := by ring
    _ ≤ (1 - 2 ^ (-51 : ℤ)) * (1 + 2 ^ (-53 : ℤ)) * whole := by gcongr

/-- The parts gone are not more than the way, unless they are tiny. No step is larger than the way
either. -/
theorem partsGone_le (grid : OnGrid d) (nonneg : 0 ≤ d) (positive : 0 < parts)
    (few : parts ≤ 2 ^ 50) (counted : 1 ≤ count) (short : parts ≤ count * (1 - 2 ^ (-51 : ℤ))) :
    0 ≤ parts * nearest .binary64 (nearest .binary64 d / count) ∧
      (parts * nearest .binary64 (nearest .binary64 d / count) ≤ 2 ^ (-972 : ℤ) ∨
        parts * nearest .binary64 (nearest .binary64 d / count) ≤ nearest .binary64 d ∧
          partsGone parts count d ≤ d) := by
  have rounded := nearest_nonneg .binary64 nonneg
  have part : 0 ≤ nearest .binary64 d / count := div_nonneg rounded (by linarith)
  refine ⟨mul_nonneg positive.le (nearest_nonneg _ part), ?_⟩
  rcases lt_or_ge (nearest .binary64 d / count) (2 ^ (-1022 : ℤ)) with tiny | normal
  · exact .inl (parts_of_tiny few part tiny)
  · have product := parts_of_normal positive counted short rounded normal
    refine .inr ⟨product.trans (mul_le_of_le_one_left rounded (by norm_num)), ?_⟩
    refine grid.nearest_le_of_le nonneg (product.trans ?_)
    calc
      (1 - 2 ^ (-51 : ℤ)) * (1 + 2 ^ (-53 : ℤ)) * nearest .binary64 d ≤
          (1 - 2 ^ (-51 : ℤ)) * (1 + 2 ^ (-53 : ℤ)) * (d * (1 + 2 ^ (-53 : ℤ))) := by
        gcongr
        exact grid.nearest_le nonneg
      _ = d * ((1 - 2 ^ (-51 : ℤ)) * (1 + 2 ^ (-53 : ℤ)) ^ 2) := by ring
      _ ≤ d * (1 - 2 ^ (-52 : ℤ)) := by
        gcongr
        norm_num

/-- Either way the parts gone are within the way, or tiny. -/
theorem partsGone_cases (grid : OnGrid d) (positive : 0 < parts) (few : parts ≤ 2 ^ 50)
    (counted : 1 ≤ count) (short : parts ≤ count * (1 - 2 ^ (-51 : ℤ))) :
    |parts * nearest .binary64 (nearest .binary64 d / count)| ≤ 2 ^ (-972 : ℤ) ∨
      |parts * nearest .binary64 (nearest .binary64 d / count)| ≤ |nearest .binary64 d| ∧
        Within 0 d (partsGone parts count d) := by
  have forward {d : ℚ} (grid : OnGrid d) (nonneg : 0 ≤ d) :
      |parts * nearest .binary64 (nearest .binary64 d / count)| ≤ 2 ^ (-972 : ℤ) ∨
        |parts * nearest .binary64 (nearest .binary64 d / count)| ≤ |nearest .binary64 d| ∧
          Within 0 d (partsGone parts count d) := by
    obtain ⟨nonnegGone, cases⟩ := partsGone_le grid nonneg positive few counted short
    rw [abs_of_nonneg nonnegGone, abs_of_nonneg (nearest_nonneg _ nonneg)]
    exact cases.imp_right fun ⟨size, within⟩ => ⟨size, .inl ⟨nearest_nonneg _ nonnegGone, within⟩⟩
  rcases le_total 0 d with nonneg | nonpos
  · exact forward grid nonneg
  · have back := forward (OnGrid.sub ⟨0, by simp⟩ grid) (by linarith : 0 ≤ 0 - d)
    rw [zero_sub, partsGone_neg, nearest_neg, neg_div, nearest_neg, mul_neg, abs_neg, abs_neg] at back
    refine back.imp_right fun ⟨size, within⟩ => ⟨size, ?_⟩
    simpa using within.neg

end gone

section reached

variable {a b gone : ℚ}

/-- Between the sides before rounding is between the sides after it. -/
theorem within_nearest_add (exactA : nearest .binary64 a = a) (exactB : nearest .binary64 b = b)
    (within : Within 0 (b - a) gone) : Within a b (nearest .binary64 (a + gone)) := by
  rcases within with ⟨low, high⟩ | ⟨low, high⟩
  · refine .inl ⟨?_, ?_⟩
    · exact exactA ▸ nearest_mono _ (by linarith)
    · exact exactB ▸ nearest_mono _ (by linarith)
  · refine .inr ⟨?_, ?_⟩
    · exact exactB ▸ nearest_mono _ (by linarith)
    · exact exactA ▸ nearest_mono _ (by linarith)

/-- What is beyond the range of the format by less than half of its last bit is rounded into the
range. -/
theorem nearest_le_largest {q : ℚ} (below : q < largest .binary64 + 2 ^ (970 : ℤ)) :
    nearest .binary64 q ≤ largest .binary64 := by
  rcases le_or_gt q (largest .binary64) with inside | beyond
  · exact nearest_largest ▸ nearest_mono _ inside
  have half : (2 : ℚ) ^ (971 : ℤ) = 2 * 2 ^ (970 : ℤ) := zpow_one_add₀ two_ne_zero 970
  have low : (2 : ℚ) ^ (1023 : ℤ) = 2 ^ 52 * 2 ^ (971 : ℤ) := by
    rw [← zpow_natCast, ← zpow_add₀ two_ne_zero]
    rfl
  have high : (2 : ℚ) ^ (1024 : ℤ) = 2 ^ 53 * 2 ^ (971 : ℤ) := by
    rw [← zpow_natCast, ← zpow_add₀ two_ne_zero]
    rfl
  have scale : (0 : ℚ) < 2 ^ (971 : ℤ) := by positivity
  rw [largest_eq_mul] at below beyond ⊢
  generalize (2 : ℚ) ^ (970 : ℤ) = h at below half
  generalize last : (2 : ℚ) ^ (971 : ℤ) = u at below beyond half low high scale ⊢
  push_cast at below beyond ⊢
  have positive : 0 < q := by linarith only [beyond, scale]
  have log : Int.log 2 |q| = 1023 := by
    have least : (1023 : ℤ) ≤ Int.log 2 q :=
      (Int.zpow_le_iff_le_log one_lt_two positive).mp
        (by rw [Nat.cast_ofNat, low]; linarith only [beyond, scale])
    have most : Int.log 2 q < 1024 :=
      (Int.lt_zpow_iff_log_lt one_lt_two positive).mp
        (by rw [Nat.cast_ofNat, high]; linarith only [below, half, scale])
    rw [abs_of_pos positive]
    omega
  have exponent : ulpExponent .binary64 q = 971 := by
    rw [ulpExponent, log]
    rfl
  have rounded := (isNearest_nearestInt (q / u)).above
  rw [le_div_iff₀ scale] at rounded
  rw [nearest, exponent, last]
  have whole : nearestInt (q / u) < 2 ^ 53 := by
    by_contra more
    have more : (2 ^ 53 : ℚ) ≤ nearestInt (q / u) := by exact_mod_cast not_lt.mp more
    have product := mul_le_mul_of_nonneg_right more scale.le
    linarith only [product, rounded, below, half, scale]
  have whole : (nearestInt (q / u) : ℚ) ≤ 9007199254740991 := by
    have bound : nearestInt (q / u) ≤ 9007199254740991 := by omega
    exact_mod_cast bound
  exact mul_le_mul_of_nonneg_right whole scale.le

/-- A tiny step does not lead out of the range of the format. -/
theorem abs_nearest_add_tiny (range : |a| ≤ largest .binary64) (tiny : |gone| ≤ 2 ^ (-972 : ℤ)) :
    |nearest .binary64 (a + gone)| ≤ largest .binary64 := by
  have less : (2 : ℚ) ^ (-972 : ℤ) < 2 ^ (970 : ℤ) := zpow_lt_zpow_right₀ one_lt_two (by norm_num)
  obtain ⟨low, high⟩ := abs_le.mp range
  obtain ⟨low', high'⟩ := abs_le.mp tiny
  rw [abs_le]
  constructor
  · have back := nearest_le_largest (q := -(a + gone)) (by linarith)
    rw [nearest_neg] at back
    linarith
  · exact nearest_le_largest (by linarith)

end reached

section floats

variable {a b x c : Float} (finiteA : isFinite a) (finiteB : isFinite b)
  (finite : isFinite (b - a))

include finiteA finiteB finite

/-- What is reached after some of equally many parts of the way is finite. -/
theorem isFinite_add_parts {parts count : ℚ} (standsX : Stands .binary64 (exact x) parts)
    (standsC : Stands .binary64 (exact c) count) (positive : 0 < parts) (few : parts ≤ 2 ^ 50)
    (counted : 1 ≤ count) (short : parts ≤ count * (1 - 2 ^ (-51 : ℤ))) :
    isFinite (a + x * ((b - a) / c)) := by
  obtain ⟨p, standsA, rangeA⟩ := exists_stands finiteA
  obtain ⟨q, standsB, rangeB⟩ := exists_stands finiteB
  obtain ⟨standsD, rangeD⟩ := stands_sub_of_isFinite standsB standsA finite
  have grid : OnGrid (q - p) := standsB.onGrid.sub standsA.onGrid
  have least : (2 : ℚ) ^ (-972 : ℤ) ≤ largest .binary64 :=
    (zpow_le_one_of_nonpos₀ one_le_two (by norm_num)).trans
      (le_trans (by norm_num) two_pow_64_le_largest)
  have part := stands_div standsD standsC (by linarith) (by
    rw [abs_div, abs_of_pos (by linarith : 0 < count)]
    exact (div_le_self (abs_nonneg _) counted).trans rangeD)
  have cases := partsGone_cases grid positive few counted short
  have range : |parts * nearest .binary64 (nearest .binary64 (q - p) / count)| ≤
      largest .binary64 := by
    rcases cases with tiny | ⟨size, _⟩
    · exact tiny.trans least
    · exact size.trans rangeD
  have gone := stands_mul standsX part range
  refine isFinite_of_stands ((standsA.add gone).repack (by decide) ?_)
  rcases cases with tiny | ⟨_, within⟩
  · exact abs_nearest_add_tiny rangeA
      (abs_nearest_le (nearest_two_zpow (by norm_num)) tiny)
  · exact (within_nearest_add standsA.nearest_eq standsB.nearest_eq within).bounded rangeA rangeB

/-- What is reached after a share of the way that is short of the whole lies between the sides. -/
theorem between_add_share {share : ℚ} (standsX : Stands .binary64 (exact x) share)
    (nonnegShare : 0 ≤ share) (short : share ≤ 1 - 2 ^ (-51 : ℤ)) :
    a ≤ a + x * (b - a) ∧ a + x * (b - a) ≤ b ∨ b ≤ a + x * (b - a) ∧ a + x * (b - a) ≤ a := by
  obtain ⟨p, standsA, rangeA⟩ := exists_stands finiteA
  obtain ⟨q, standsB, rangeB⟩ := exists_stands finiteB
  obtain ⟨standsD, rangeD⟩ := stands_sub_of_isFinite standsB standsA finite
  have grid : OnGrid (q - p) := standsB.onGrid.sub standsA.onGrid
  have gone := stands_mul standsX standsD (by
    rw [abs_mul, abs_of_nonneg nonnegShare]
    exact (mul_le_of_le_one_left (abs_nonneg _) (short.trans (by norm_num))).trans rangeD)
  have within := within_nearest_add standsA.nearest_eq standsB.nearest_eq
    (within_shareGone grid nonnegShare short)
  have reached : Stands .binary64 (exact (a + x * (b - a)))
      (nearest .binary64 (p + shareGone share (q - p))) :=
    (standsA.add gone).repack (by decide) (within.bounded rangeA rangeB)
  rw [float_le_iff_of_stands standsA reached, float_le_iff_of_stands reached standsB,
    float_le_iff_of_stands standsB reached, float_le_iff_of_stands reached standsA]
  exact within

end floats

end LaserCutter.Number
