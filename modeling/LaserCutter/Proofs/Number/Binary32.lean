import LaserCutter.Proofs.Number.Order

/-!
# Bounds of binary32 arithmetic

An operation keeps to the bounds that hold for the exact result, if the bounds are binary32 numbers
themselves: rounding is monotone and leaves them where they are.
-/

namespace LaserCutter.Number

open Float.Model (Format UnpackedFloat)
open Float.Model.UnpackedFloat

/-- The number is one of the format. -/
structure Exact32 (q : ℚ) : Prop where
  nearest : nearest .binary32 q = q
  range : |q| ≤ largest .binary32

/-- `x` stands for a number between two others. -/
def Between (low high : ℚ) (x : Float32) : Prop :=
  ∃ q, Stands .binary32 x.toModel.unpack q ∧ low ≤ q ∧ q ≤ high

/-- Multiples of a sixteenth that are small enough are exact. -/
theorem exact32_of_sixteenths {q : ℚ} {n : ℤ} (value : 16 * q = n) (small : |n| < 2 ^ 24) :
    Exact32 q := by
  have scale : q = n * 2 ^ (-4 : ℤ) := by
    rw [← value]
    norm_num
    ring
  constructor
  · rw [scale]
    exact nearest_eq_self _ small (by decide)
  · have top : (2 ^ 24 : ℚ) ≤ largest .binary32 := by
      norm_num [largest, maxExponent, Format.exponentBias, Format.mantissaBits]
    have size : |(n : ℚ)| ≤ 2 ^ 24 := by exact_mod_cast small.le
    rw [← value, abs_mul, abs_of_pos (by norm_num : (0 : ℚ) < 16)] at size
    linarith [abs_nonneg q]

namespace Between

variable {x y : Float32} {low high low' high' : ℚ}

theorem mono (between : Between low high x) (lower : low' ≤ low) (higher : high ≤ high') :
    Between low' high' x := by
  obtain ⟨q, stands, above, below⟩ := between
  exact ⟨q, stands, lower.trans above, below.trans higher⟩

/-- A result that is rounded to the nearest number keeps to exact bounds. -/
theorem of_nearest {u : UnpackedFloat} {q : ℚ} (stands : Stands .binary32 u (nearest .binary32 q))
    (above : low ≤ q) (below : q ≤ high) (exactLow : Exact32 low) (exactHigh : Exact32 high) :
    Between low high (.ofModel (.pack u)) := by
  have above : low ≤ nearest .binary32 q := exactLow.nearest ▸ nearest_mono _ above
  have below : nearest .binary32 q ≤ high := exactHigh.nearest ▸ nearest_mono _ below
  refine ⟨_, stands.repack (by decide) ?_, above, below⟩
  rw [abs_le]
  constructor
  · linarith [(abs_le.mp exactLow.range).1]
  · linarith [(abs_le.mp exactHigh.range).2]

theorem add (first : Between low high x) (second : Between low' high' y)
    (exactLow : Exact32 (low + low')) (exactHigh : Exact32 (high + high')) :
    Between (low + low') (high + high') (x + y) := by
  obtain ⟨p, standsX, aboveX, belowX⟩ := first
  obtain ⟨q, standsY, aboveY, belowY⟩ := second
  exact of_nearest (standsX.add standsY) (add_le_add aboveX aboveY) (add_le_add belowX belowY)
    exactLow exactHigh

theorem sub_const {c : Float32} {r : ℚ} (between : Between low high x)
    (const : Stands .binary32 c.toModel.unpack r) (exactLow : Exact32 (low - r))
    (exactHigh : Exact32 (high - r)) : Between (low - r) (high - r) (x - c) := by
  obtain ⟨p, stands, above, below⟩ := between
  exact of_nearest (stands.sub const) (sub_le_sub_right above r) (sub_le_sub_right below r)
    exactLow exactHigh

theorem mul_const {c : Float32} {r : ℚ} (between : Between low high x)
    (const : Stands .binary32 c.toModel.unpack r) (nonneg : 0 ≤ r) (exactLow : Exact32 (low * r))
    (exactHigh : Exact32 (high * r)) : Between (low * r) (high * r) (x * c) := by
  obtain ⟨p, stands, above, below⟩ := between
  exact of_nearest (stands.mul const) (mul_le_mul_of_nonneg_right above nonneg)
    (mul_le_mul_of_nonneg_right below nonneg) exactLow exactHigh

theorem div_const {c : Float32} {r : ℚ} (between : Between low high x)
    (const : Stands .binary32 c.toModel.unpack r) (positive : 0 < r)
    (exactLow : Exact32 (low / r)) (exactHigh : Exact32 (high / r)) :
    Between (low / r) (high / r) (x / c) := by
  obtain ⟨p, stands, above, below⟩ := between
  exact of_nearest (stands.div const positive.ne') (div_le_div_of_nonneg_right above positive.le)
    (div_le_div_of_nonneg_right below positive.le) exactLow exactHigh

end Between

/-- A byte is converted without an error. -/
theorem stands_toFloat32 (n : UInt8) : Stands .binary32 n.toFloat32.toModel.unpack n.toNat := by
  have byte := n.toNat_lt
  have exact : Exact32 n.toNat := exact32_of_sixteenths (n := 16 * n.toNat) (by push_cast; ring)
    (by rw [abs_of_nonneg (by positivity)]; omega)
  have converted := stands_normalize .binary32 n.toNat 0 .positive
  push_cast at converted
  rw [mul_one, exact.nearest] at converted
  exact converted.repack (by decide) exact.range

/-- Numbers compare like what they stand for. -/
theorem lt_iff_of_stands {x y : Float32} {a b : ℚ} (first : Stands .binary32 x.toModel.unpack a)
    (second : Stands .binary32 y.toModel.unpack b) : x < y ↔ a < b := by
  have compared := compare_eq first.canonical second.canonical
  rw [place?_of_stands first, place?_of_stands second, Option.bind_some, Option.map_some,
    cmp_place] at compared
  have unfolded : x < y ↔
      (UnpackedFloat.compare x.toModel.unpack y.toModel.unpack == some .lt) = true :=
    decide_eq_true_iff
  rw [unfolded, compared, ← cmp_eq_lt_iff]
  simp

end LaserCutter.Number
