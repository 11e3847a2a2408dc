import LaserCutter.Number.Hypotenuse
import LaserCutter.Proofs.Number.SquareRoot
import LaserCutter.Proofs.Number.Whole

/-!
# Lengths are not negative

The correction of the square root is far smaller than the root itself, whatever is lost on the way to
it: its residue is a sum of products whose factors are at most about the root, as long as nothing
overflows and the squares are no subnormal numbers (`lies_correctedRoot`). The sides are scaled so
that this is so. Hence the length of a vector is never negative (`hypotenuse_nonneg`).
-/

namespace LaserCutter.Number

open Float.Model (Format UnpackedFloat)
open Float.Model.UnpackedFloat

/-- The float stands for a number from `low` to `high`. -/
def Lies (low high : ℚ) (x : Float) : Prop :=
  ∃ a, Stands .binary64 (exact x) a ∧ low ≤ a ∧ a ≤ high

/-- A size such that a little more than a thousandth of it is no subnormal number, and a little less
than its double is within range. -/
structure Scale (size : ℚ) : Prop where
  least : 2 ^ (-1000 : ℤ) ≤ size
  most : size ≤ 1001 / 1000 * 2 ^ (1023 : ℤ)

section sizes

variable {size q c c' k k' : ℚ} {x y : Float} {u : UnpackedFloat}

theorem Scale.pos (scale : Scale size) : 0 < size := lt_of_lt_of_le (by positivity) scale.least

theorem Scale.mul_le_largest (scale : Scale size) (most : c ≤ 19 / 10) :
    c * size ≤ largest .binary64 := by
  have top : (2 : ℚ) ^ (1023 : ℤ) = 2 ^ 52 * 2 ^ (971 : ℤ) := by
    rw [← zpow_natCast, ← zpow_add₀ two_ne_zero]
    rfl
  have bound := scale.most
  have positive := scale.pos
  rw [top] at bound
  calc
    c * size ≤ 19 / 10 * (1001 / 1000 * (2 ^ 52 * 2 ^ (971 : ℤ))) := by gcongr
    _ = 19 / 10 * (1001 / 1000 * 2 ^ 52) * 2 ^ (971 : ℤ) := by ring
    _ ≤ (2 ^ 53 - 1) * 2 ^ (971 : ℤ) := by
      gcongr
      norm_num
    _ = largest .binary64 := by
      rw [largest_eq_mul]
      norm_num

/-- Rounding adds less than a thousandth. -/
theorem nearest_le_of_scale (scale : Scale size) (high : q ≤ c * size) (least : 1 / 1000 ≤ c)
    (room : c * (1001 / 1000) ≤ c') : nearest .binary64 q ≤ c' * size := by
  have positive := scale.pos
  have normal : 2 ^ (-1022 : ℤ) ≤ c * size := by
    calc
      (2 : ℚ) ^ (-1022 : ℤ) = 2 ^ (-22 : ℤ) * 2 ^ (-1000 : ℤ) := by
        rw [← zpow_add₀ two_ne_zero]
        rfl
      _ ≤ c * size := by
        gcongr
        · exact le_trans (by norm_num) least
        · exact scale.least
  calc
    nearest .binary64 q ≤ nearest .binary64 (c * size) := nearest_mono _ high
    _ ≤ c * size * (1 + 2 ^ (-53 : ℤ)) := (nearest_window normal).2
    _ ≤ c * size * (1001 / 1000) := by
      gcongr
      norm_num
    _ = c * (1001 / 1000) * size := by ring
    _ ≤ c' * size := by gcongr

variable (scale : Scale size) (least : 1 / 1000 ≤ c) (room : c * (1001 / 1000) ≤ c')
  (most : c' ≤ 19 / 10)

include scale least room most

/-- What comes out of an operation of a certain size. -/
theorem lies_pack (stands : Stands .binary64 u (nearest .binary64 q)) (low : -(c * size) ≤ q)
    (high : q ≤ c * size) : Lies (-(c' * size)) (c' * size) (.ofModel (.pack u)) := by
  have above := nearest_le_of_scale scale high least room
  have below := nearest_le_of_scale scale (neg_le.mp low) least room
  rw [nearest_neg] at below
  exact ⟨nearest .binary64 q, stands.repack (by decide)
    (abs_le.mpr ⟨by linarith [scale.mul_le_largest most], above.trans (scale.mul_le_largest most)⟩),
    neg_le.mp below, above⟩

theorem lies_pack_nonneg (stands : Stands .binary64 u (nearest .binary64 q)) (nonneg : 0 ≤ q)
    (high : q ≤ c * size) : Lies 0 (c' * size) (.ofModel (.pack u)) := by
  have above := nearest_le_of_scale scale high least room
  have below := nearest_nonneg .binary64 nonneg
  exact ⟨nearest .binary64 q, stands.repack (by decide)
    ((abs_of_nonneg below).le.trans (above.trans (scale.mul_le_largest most))), below, above⟩

variable {a b : ℚ}

theorem Lies.add (first : Lies (-a) a x) (second : Lies (-b) b y) (sum : a + b ≤ c * size) :
    Lies (-(c' * size)) (c' * size) (x + y) := by
  obtain ⟨p, standsX, lowX, highX⟩ := first
  obtain ⟨q, standsY, lowY, highY⟩ := second
  exact lies_pack scale least room most (standsX.add standsY) (by linarith) (by linarith)

theorem Lies.sub (first : Lies (-a) a x) (second : Lies (-b) b y) (sum : a + b ≤ c * size) :
    Lies (-(c' * size)) (c' * size) (x - y) := by
  obtain ⟨p, standsX, lowX, highX⟩ := first
  obtain ⟨q, standsY, lowY, highY⟩ := second
  exact lies_pack scale least room most (standsX.sub standsY) (by linarith) (by linarith)

/-- The difference of two numbers that are not negative is not larger than either. -/
theorem Lies.sub_nonneg (first : Lies 0 a x) (second : Lies 0 b y) (left : a ≤ c * size)
    (right : b ≤ c * size) : Lies (-(c' * size)) (c' * size) (x - y) := by
  obtain ⟨p, standsX, lowX, highX⟩ := first
  obtain ⟨q, standsY, lowY, highY⟩ := second
  exact lies_pack scale least room most (standsX.sub standsY) (by linarith) (by linarith)

theorem Lies.mul (first : Lies (-a) a x) (second : Lies (-b) b y) (product : a * b ≤ c * size) :
    Lies (-(c' * size)) (c' * size) (x * y) := by
  obtain ⟨p, standsX, sizeX⟩ := first
  obtain ⟨q, standsY, sizeY⟩ := second
  rw [← abs_le] at sizeX sizeY
  have bound : |p * q| ≤ c * size := by
    rw [abs_mul]
    exact (mul_le_mul sizeX sizeY (abs_nonneg q) ((abs_nonneg p).trans sizeX)).trans product
  exact lies_pack scale least room most (standsX.mul standsY) (abs_le.mp bound).1 (abs_le.mp bound).2

theorem Lies.mul_nonneg (first : Lies 0 a x) (second : Lies 0 b y) (product : a * b ≤ c * size) :
    Lies 0 (c' * size) (x * y) := by
  obtain ⟨p, standsX, lowX, highX⟩ := first
  obtain ⟨q, standsY, lowY, highY⟩ := second
  exact lies_pack_nonneg scale least room most (standsX.mul standsY) (by positivity)
    ((mul_le_mul highX highY lowY (lowX.trans highX)).trans product)

end sizes

/-- A number that is not negative keeps its bound. -/
theorem Lies.symmetric {bound : ℚ} {x : Float} (lies : Lies 0 bound x) : Lies (-bound) bound x := by
  obtain ⟨a, stands, low, high⟩ := lies
  exact ⟨a, stands, by linarith, high⟩

theorem stands_one : Stands .binary64 (exact 1) 1 := stands_of_byte 1 rfl

theorem stands_two : Stands .binary64 (exact 2) 2 := stands_of_byte 2 rfl

theorem stands_four : Stands .binary64 (exact 4) 4 := stands_of_byte 4 rfl

/-- `root` is about the length of a vector with the given sides, and so large that its square is no
subnormal number and so small that its square is within range. -/
structure IsRoot (long short root : ℚ) : Prop where
  nonneg : 0 ≤ short
  ordered : short ≤ long
  least : 999 / 1000 * (long ^ 2 + short ^ 2) ≤ root ^ 2
  most : root ^ 2 ≤ 1001 / 1000 * (long ^ 2 + short ^ 2)
  scale : Scale root
  square : Scale (root ^ 2)

namespace IsRoot

variable {long short root : ℚ} (isRoot : IsRoot long short root)

include isRoot

theorem long_le : long ≤ 1001 / 1000 * root := by
  have positive := isRoot.scale.pos
  refine le_of_sq_le_sq ?_ (by positivity)
  nlinarith [isRoot.least, sq_nonneg short]

theorem short_le : short ≤ 71 / 100 * root := by
  have positive := isRoot.scale.pos
  have order := pow_le_pow_left₀ isRoot.nonneg isRoot.ordered 2
  refine le_of_sq_le_sq ?_ (by positivity)
  nlinarith [isRoot.least]

theorem le_long (small : 2 * short ≤ root) : 865 / 1000 * root ≤ long := by
  have positive := isRoot.scale.pos
  have short := pow_le_pow_left₀ isRoot.nonneg (show short ≤ root / 2 by linarith) 2
  refine le_of_sq_le_sq ?_ (isRoot.nonneg.trans isRoot.ordered)
  nlinarith [isRoot.most]

/-- The double of the root is within range. -/
theorem two_mul_le_largest : 2 * root ≤ largest .binary64 := by
  have range := isRoot.square.mul_le_largest (c := 19 / 10) le_rfl
  have top : (4 : ℚ) ≤ largest .binary64 := le_trans (by norm_num) two_pow_64_le_largest
  refine le_of_sq_le_sq ?_ (by linarith)
  nlinarith

end IsRoot

section residue

variable {h l s : Float} {long short root : ℚ} (isRoot : IsRoot long short root)
  (standsH : Stands .binary64 (exact h) root) (standsL : Stands .binary64 (exact l) long)
  (standsS : Stands .binary64 (exact s) short)

include isRoot standsH standsL standsS

/-- The residue where the short side matters. -/
theorem lies_residue_of_le (near : root ≤ 2 * short) :
    Lies (-(152 / 100 * root ^ 2)) (152 / 100 * root ^ 2)
      (l * (2 * (h - s) - l) + (h - s - 2 * (l - s)) * (h - s)) := by
  have scale := isRoot.scale
  have square := isRoot.square
  have positive := scale.pos
  have nonneg := isRoot.nonneg
  have ordered := isRoot.ordered
  have longest := isRoot.long_le
  have shortest := isRoot.short_le
  have two : Lies 0 2 2 := ⟨2, stands_two, by norm_num, le_rfl⟩
  have side : Lies 0 (1001 / 1000 * root) l := ⟨long, standsL, nonneg.trans ordered, longest⟩
  have d : Lies 0 (501 / 1000 * root) (h - s) :=
    lies_pack_nonneg (c := 1 / 2) scale (by norm_num) (by norm_num) (by norm_num)
      (standsH.sub standsS) (by linarith) (by linarith)
  have twice : Lies 0 (1004 / 1000 * root) (2 * (h - s)) :=
    two.mul_nonneg (c := 1002 / 1000) scale (by norm_num) (by norm_num) (by norm_num) d
      (by linarith)
  have left : Lies (-(1006 / 1000 * root)) (1006 / 1000 * root) (2 * (h - s) - l) :=
    twice.sub_nonneg (c := 1004 / 1000) scale (by norm_num) (by norm_num) (by norm_num) side
      (by linarith) (by linarith)
  have first : Lies (-(1009 / 1000 * root ^ 2)) (1009 / 1000 * root ^ 2)
      (l * (2 * (h - s) - l)) :=
    side.symmetric.mul (c := 10071 / 10000) square (by norm_num) (by norm_num) (by norm_num) left
      (by nlinarith)
  have apart : Lies 0 (502 / 1000 * root) (l - s) :=
    lies_pack_nonneg (c := 501 / 1000) scale (by norm_num) (by norm_num) (by norm_num)
      (standsL.sub standsS) (by linarith) (by linarith)
  have twiceApart : Lies 0 (1006 / 1000 * root) (2 * (l - s)) :=
    two.mul_nonneg (c := 1004 / 1000) scale (by norm_num) (by norm_num) (by norm_num) apart
      (by linarith)
  have right : Lies (-(1008 / 1000 * root)) (1008 / 1000 * root) (h - s - 2 * (l - s)) :=
    d.sub_nonneg (c := 1006 / 1000) scale (by norm_num) (by norm_num) (by norm_num) twiceApart
      (by linarith) (by linarith)
  have second : Lies (-(507 / 1000 * root ^ 2)) (507 / 1000 * root ^ 2)
      ((h - s - 2 * (l - s)) * (h - s)) :=
    right.mul (c := 506 / 1000) square (by norm_num) (by norm_num) (by norm_num) d.symmetric
      (by nlinarith)
  exact first.add (c := 1516 / 1000) square (by norm_num) (by norm_num) (by norm_num) second
    (by linarith)

/-- The residue where the short side hardly matters. -/
theorem lies_residue_of_lt (far : 2 * short ≤ root) :
    Lies (-(152 / 100 * root ^ 2)) (152 / 100 * root ^ 2)
      (2 * (h - l) * (l - 2 * s) + ((4 * (h - l) - s) * s + (h - l) * (h - l))) := by
  have scale := isRoot.scale
  have square := isRoot.square
  have positive := scale.pos
  have nonneg := isRoot.nonneg
  have ordered := isRoot.ordered
  have longest := isRoot.long_le
  have shortest := isRoot.le_long far
  have two : Lies 0 2 2 := ⟨2, stands_two, by norm_num, le_rfl⟩
  have four : Lies 0 4 4 := ⟨4, stands_four, by norm_num, le_rfl⟩
  have side : Lies 0 (1001 / 1000 * root) l := ⟨long, standsL, nonneg.trans ordered, longest⟩
  have other : Lies 0 (1 / 2 * root) s := ⟨short, standsS, nonneg, by linarith⟩
  have d : Lies (-(136 / 1000 * root)) (136 / 1000 * root) (h - l) :=
    lies_pack (c := 135 / 1000) scale (by norm_num) (by norm_num) (by norm_num)
      (standsH.sub standsL) (by linarith) (by linarith)
  have twice : Lies (-(273 / 1000 * root)) (273 / 1000 * root) (2 * (h - l)) :=
    two.symmetric.mul (c := 272 / 1000) scale (by norm_num) (by norm_num) (by norm_num) d
      (by linarith)
  have twiceOther : Lies 0 (1001 / 1000 * root) (2 * s) :=
    two.mul_nonneg (c := 1) scale (by norm_num) (by norm_num) (by norm_num) other (by linarith)
  have left : Lies (-(1003 / 1000 * root)) (1003 / 1000 * root) (l - 2 * s) :=
    side.sub_nonneg (c := 1001 / 1000) scale (by norm_num) (by norm_num) (by norm_num) twiceOther
      (by linarith) (by linarith)
  have first : Lies (-(275 / 1000 * root ^ 2)) (275 / 1000 * root ^ 2)
      (2 * (h - l) * (l - 2 * s)) :=
    twice.mul (c := 274 / 1000) square (by norm_num) (by norm_num) (by norm_num) left
      (by nlinarith)
  have fourfold : Lies (-(545 / 1000 * root)) (545 / 1000 * root) (4 * (h - l)) :=
    four.symmetric.mul (c := 544 / 1000) scale (by norm_num) (by norm_num) (by norm_num) d
      (by linarith)
  have right : Lies (-(1047 / 1000 * root)) (1047 / 1000 * root) (4 * (h - l) - s) :=
    fourfold.sub (c := 1045 / 1000) scale (by norm_num) (by norm_num) (by norm_num)
      other.symmetric (by linarith)
  have second : Lies (-(525 / 1000 * root ^ 2)) (525 / 1000 * root ^ 2) ((4 * (h - l) - s) * s) :=
    right.mul (c := 524 / 1000) square (by norm_num) (by norm_num) (by norm_num) other.symmetric
      (by nlinarith)
  have third : Lies (-(19 / 1000 * root ^ 2)) (19 / 1000 * root ^ 2) ((h - l) * (h - l)) :=
    d.mul (c := 186 / 10000) square (by norm_num) (by norm_num) (by norm_num) d (by nlinarith)
  have rest : Lies (-(546 / 1000 * root ^ 2)) (546 / 1000 * root ^ 2)
      ((4 * (h - l) - s) * s + (h - l) * (h - l)) :=
    second.add (c := 544 / 1000) square (by norm_num) (by norm_num) (by norm_num) third
      (by linarith)
  exact first.add (c := 151 / 100) square (by norm_num) (by norm_num) (by norm_num) rest
    (by nlinarith)

end residue

/-- Doubling is exact. -/
theorem nearest_two_mul {u : UnpackedFloat} {a : ℚ} (stands : Stands .binary64 u a) :
    nearest .binary64 (2 * a) = 2 * a := by
  obtain ⟨s, rfl, rfl⟩ | ⟨s, m, e, positive, rfl, rfl, room, least, _⟩ := stands.zero_or_finite
  · simp
  · have bits : |(m : ℤ)| < 2 ^ Format.binary64.mantissaBits := by
      rw [Nat.abs_cast]
      exact_mod_cast room
    have double : 2 * signed s (m * 2 ^ e) = signed s ((m : ℤ) * 2 ^ (e + 1)) := by
      rw [zpow_add_one₀ two_ne_zero]
      cases s <;> simp only [signed, Int.cast_natCast] <;> ring
    rw [double, nearest_signed, nearest_eq_self .binary64 bits (by omega)]

/-- What is within these bounds is a scale, and so is its square. -/
theorem scale_of_sq {root : ℚ} (positive : 0 < root) (least : 2 ^ (-1000 : ℤ) ≤ root ^ 2)
    (most : root ^ 2 ≤ 1001 / 1000 * 2 ^ (1023 : ℤ)) : Scale root ∧ Scale (root ^ 2) := by
  refine ⟨⟨?_, ?_⟩, ⟨least, most⟩⟩
  · refine le_of_sq_le_sq (le_trans ?_ least) positive.le
    exact pow_le_of_le_one (by positivity) (zpow_le_one_of_nonpos₀ one_le_two (by norm_num)) two_ne_zero
  · refine le_of_sq_le_sq (most.trans ?_) (by positivity)
    have one : (1 : ℚ) ≤ 1001 / 1000 * 2 ^ (1023 : ℤ) :=
      one_le_mul_of_one_le_of_one_le (by norm_num) (one_le_zpow₀ one_le_two (by norm_num))
    exact le_self_pow₀ one two_ne_zero

/-- Powers of two in the range of the format, with a margin. -/
theorem two_zpow_1023_le : 2 ^ (1023 : ℤ) * (1 + 2 ^ (-53 : ℤ)) ≤ largest .binary64 := by
  have top : (2 : ℚ) ^ (1023 : ℤ) = 2 ^ 52 * 2 ^ (971 : ℤ) := by
    rw [← zpow_natCast, ← zpow_add₀ two_ne_zero]
    rfl
  rw [top, mul_right_comm, largest_eq_mul]
  gcongr
  norm_num

theorem largest_le_two_zpow : largest .binary64 ≤ 2 ^ (1024 : ℤ) := by
  have top : (2 : ℚ) ^ (1024 : ℤ) = 2 ^ 53 * 2 ^ (971 : ℤ) := by
    rw [← zpow_natCast, ← zpow_add₀ two_ne_zero]
    rfl
  rw [top, largest_eq_mul]
  gcongr
  norm_num

/-- The square of a side of moderate size. -/
theorem stands_sq {x : Float} {a : ℚ} (stands : Stands .binary64 (exact x) a)
    (least : 2 ^ (-474 : ℤ) ≤ a) (most : a ≤ 2 ^ (511 : ℤ)) :
    ∃ q, Stands .binary64 (exact (x * x)) q ∧ a ^ 2 * (1 - 2 ^ (-53 : ℤ)) ≤ q ∧
      q ≤ a ^ 2 * (1 + 2 ^ (-53 : ℤ)) ∧ 2 ^ (-948 : ℤ) ≤ a ^ 2 ∧ a ^ 2 ≤ 2 ^ (1022 : ℤ) := by
  have positive : 0 < a := lt_of_lt_of_le (by positivity) least
  have low : (2 : ℚ) ^ (-948 : ℤ) ≤ a ^ 2 := by
    have square := pow_le_pow_left₀ (by positivity) least 2
    rwa [← zpow_natCast, ← zpow_mul] at square
  have high : a ^ 2 ≤ 2 ^ (1022 : ℤ) := by
    have square := pow_le_pow_left₀ positive.le most 2
    rwa [← zpow_natCast (2 ^ (511 : ℤ)), ← zpow_mul] at square
  have range : a ^ 2 ≤ largest .binary64 :=
    calc
      a ^ 2 ≤ 2 ^ (1023 : ℤ) := high.trans (zpow_le_zpow_right₀ one_le_two (by norm_num))
      _ ≤ 2 ^ (1023 : ℤ) * (1 + 2 ^ (-53 : ℤ)) :=
        le_mul_of_one_le_right (by positivity) (by norm_num)
      _ ≤ largest .binary64 := two_zpow_1023_le
  have product := stands_mul stands stands (by rwa [← sq, abs_of_pos (by positivity)])
  obtain ⟨lower, upper⟩ := nearest_window (q := a ^ 2)
    ((zpow_le_zpow_right₀ one_le_two (by norm_num)).trans low)
  rw [← sq] at product
  exact ⟨nearest .binary64 (a ^ 2), product, lower, upper, low, high⟩

section root

variable {l s : Float} {long short : ℚ} (standsL : Stands .binary64 (exact l) long)
  (standsS : Stands .binary64 (exact s) short)

include standsL standsS

/-- The rounded sum of the rounded squares. -/
theorem stands_squares (ordered : short ≤ long) (least : 2 ^ (-474 : ℤ) ≤ short)
    (most : long ≤ 2 ^ (511 : ℤ)) :
    ∃ a, Stands .binary64 (exact (l * l + s * s)) a ∧
      (long ^ 2 + short ^ 2) * (1 - 2 ^ (-53 : ℤ)) ^ 2 ≤ a ∧
      a ≤ (long ^ 2 + short ^ 2) * (1 + 2 ^ (-53 : ℤ)) ^ 2 ∧
      2 ^ (-948 : ℤ) ≤ long ^ 2 + short ^ 2 ∧ long ^ 2 + short ^ 2 ≤ 2 ^ (1023 : ℤ) := by
  obtain ⟨p, standsP, lowP, highP, leastP, mostP⟩ := stands_sq standsL (least.trans ordered) most
  obtain ⟨q, standsQ, lowQ, highQ, leastQ, mostQ⟩ := stands_sq standsS least (ordered.trans most)
  have size : (2 : ℚ) ^ (-948 : ℤ) ≤ long ^ 2 + short ^ 2 :=
    leastP.trans (le_add_of_nonneg_right (sq_nonneg short))
  have bound : long ^ 2 + short ^ 2 ≤ 2 ^ (1023 : ℤ) := by
    have double : (2 : ℚ) ^ (1023 : ℤ) = 2 * 2 ^ (1022 : ℤ) := zpow_one_add₀ two_ne_zero 1022
    rw [double, two_mul]
    exact add_le_add mostP mostQ
  have low : (long ^ 2 + short ^ 2) * (1 - 2 ^ (-53 : ℤ)) ≤ p + q := by
    rw [add_mul]
    exact add_le_add lowP lowQ
  have high : p + q ≤ (long ^ 2 + short ^ 2) * (1 + 2 ^ (-53 : ℤ)) := by
    rw [add_mul]
    exact add_le_add highP highQ
  generalize long ^ 2 + short ^ 2 = w at low high size bound ⊢
  have normal : (2 : ℚ) ^ (-1022 : ℤ) ≤ p + q := by
    refine le_trans ?_ low
    calc
      (2 : ℚ) ^ (-1022 : ℤ) = 2 ^ (-948 : ℤ) * 2 ^ (-74 : ℤ) := by
        rw [← zpow_add₀ two_ne_zero]
        rfl
      _ ≤ w * (1 - 2 ^ (-53 : ℤ)) :=
        mul_le_mul size (by norm_num) (by positivity) (le_trans (by positivity) size)
  have range : p + q ≤ largest .binary64 :=
    high.trans (le_trans (mul_le_mul_of_nonneg_right bound (by norm_num)) two_zpow_1023_le)
  have nonneg : 0 ≤ p + q := le_trans (by positivity) normal
  obtain ⟨lower, upper⟩ := nearest_window normal
  refine ⟨nearest .binary64 (p + q), stands_add standsP standsQ (by rwa [abs_of_nonneg nonneg]), ?_,
    ?_, size, bound⟩
  · rw [sq, ← mul_assoc]
    exact (mul_le_mul_of_nonneg_right low (by norm_num)).trans lower
  · rw [sq, ← mul_assoc]
    exact upper.trans (mul_le_mul_of_nonneg_right high (by norm_num))

/-- Sides whose squares are within range and no subnormal numbers have a root. -/
theorem exists_isRoot (ordered : short ≤ long) (least : 2 ^ (-474 : ℤ) ≤ short)
    (most : long ≤ 2 ^ (511 : ℤ)) :
    ∃ root, Stands .binary64 (exact (l * l + s * s).sqrt) root ∧ IsRoot long short root := by
  obtain ⟨a, stands, low, high, size, bound⟩ := stands_squares standsL standsS ordered least most
  have nonneg : 0 ≤ short := le_trans (by positivity) least
  have positiveSum : 0 < long ^ 2 + short ^ 2 := lt_of_lt_of_le (by positivity) size
  have positive : 0 < a := lt_of_lt_of_le (mul_pos positiveSum (by norm_num)) low
  obtain ⟨root, standsR, positiveR, lowR, highR⟩ := stands_sqrt stands positive
  have lower : 999 / 1000 * (long ^ 2 + short ^ 2) ≤ root ^ 2 := by
    calc
      999 / 1000 * (long ^ 2 + short ^ 2) ≤
          (1 - 2 ^ (-53 : ℤ)) ^ 2 * (1 - 2 ^ (-50 : ℤ)) * (long ^ 2 + short ^ 2) :=
        mul_le_mul_of_nonneg_right (by norm_num) positiveSum.le
      _ = (long ^ 2 + short ^ 2) * (1 - 2 ^ (-53 : ℤ)) ^ 2 * (1 - 2 ^ (-50 : ℤ)) := by ring
      _ ≤ a * (1 - 2 ^ (-50 : ℤ)) := mul_le_mul_of_nonneg_right low (by norm_num)
      _ ≤ root ^ 2 := lowR
  have upper : root ^ 2 ≤ 1001 / 1000 * (long ^ 2 + short ^ 2) := by
    calc
      root ^ 2 ≤ a * (1 + 2 ^ (-50 : ℤ)) := highR
      _ ≤ (long ^ 2 + short ^ 2) * (1 + 2 ^ (-53 : ℤ)) ^ 2 * (1 + 2 ^ (-50 : ℤ)) :=
        mul_le_mul_of_nonneg_right high (by norm_num)
      _ = (1 + 2 ^ (-53 : ℤ)) ^ 2 * (1 + 2 ^ (-50 : ℤ)) * (long ^ 2 + short ^ 2) := by ring
      _ ≤ 1001 / 1000 * (long ^ 2 + short ^ 2) :=
        mul_le_mul_of_nonneg_right (by norm_num) positiveSum.le
  have above : (2 : ℚ) ^ (-1000 : ℤ) ≤ root ^ 2 := by
    calc
      (2 : ℚ) ^ (-1000 : ℤ) = 2 ^ (-52 : ℤ) * 2 ^ (-948 : ℤ) := by
        rw [← zpow_add₀ two_ne_zero]
        rfl
      _ ≤ 999 / 1000 * (long ^ 2 + short ^ 2) := by
        gcongr
        norm_num
      _ ≤ root ^ 2 := lower
  have below : root ^ 2 ≤ 1001 / 1000 * 2 ^ (1023 : ℤ) :=
    upper.trans (mul_le_mul_of_nonneg_left bound (by norm_num))
  obtain ⟨scale, square⟩ := scale_of_sq positiveR above below
  exact ⟨root, standsR, nonneg, ordered, lower, upper, scale, square⟩

/-- The corrected root is not negative. -/
theorem lies_correctedRoot {root : ℚ} (isRoot : IsRoot long short root)
    (standsH : Stands .binary64 (exact (l * l + s * s).sqrt) root) :
    Lies 0 (19 / 10 * root) (correctedRoot l s) := by
  have scale := isRoot.scale
  have positive := scale.pos
  have shortest := isRoot.short_le
  have nonneg := isRoot.nonneg
  have range := isRoot.two_mul_le_largest
  unfold correctedRoot
  dsimp only
  generalize (l * l + s * s).sqrt = h at standsH ⊢
  have doubled {x : Float} {a : ℚ} (stands : Stands .binary64 (exact x) a) (nonneg : 0 ≤ a)
      (le : a ≤ root) : Stands .binary64 (exact (2 * x)) (2 * a) := by
    have product := stands_mul stands_two stands (by
      rw [abs_of_nonneg (by linarith)]
      linarith)
    rwa [nearest_two_mul stands] at product
  have twice := doubled standsH positive.le le_rfl
  have compared := float_le_iff_of_stands standsH (doubled standsS nonneg (by linarith))
  have residue : Lies (-(152 / 100 * root ^ 2)) (152 / 100 * root ^ 2) (rootResidue h l s) := by
    unfold rootResidue
    split
    · rename_i near
      exact lies_residue_of_le isRoot standsH standsL standsS (compared.mp near)
    · rename_i far
      exact lies_residue_of_lt isRoot standsH standsL standsS (not_le.mp (mt compared.mpr far)).le
  obtain ⟨r, standsR, lowR, highR⟩ := residue
  have correction : Lies (-(77 / 100 * root)) (77 / 100 * root) (rootResidue h l s / (2 * h)) := by
    refine lies_pack (c := 76 / 100) scale (by norm_num) (by norm_num) (by norm_num)
      (standsR.div twice (by positivity)) ?_ ?_
    · rw [le_div_iff₀ (by positivity)]
      linarith
    · rw [div_le_iff₀ (by positivity)]
      linarith
  obtain ⟨q, standsQ, lowQ, highQ⟩ := correction
  exact lies_pack_nonneg (c := 177 / 100) scale (by norm_num) (by norm_num) (by norm_num)
    (standsH.sub standsQ) (by linarith) (by linarith)

end root

section sides

variable {x y l s c : Float} {a long short : ℚ}

/-- A size is never negative. -/
theorem float_abs_nonneg (number : x.isNaN = false) : 0 ≤ x.abs := by
  change (exact x).isNaN = false at number
  change 0 ≤ Float.ofModel (.pack (UnpackedFloat.abs (exact x)))
  have canonical : Canonical .binary64 (exact x) := canonical_unpack .binary64 _
  generalize exact x = u at number canonical ⊢
  rcases u with s | _ | s | ⟨s, m, e, positive⟩
  · have top : exact (.ofModel (.pack (UnpackedFloat.abs (.infinity s)))) = .infinity .positive :=
      unpack_pack_infinity .binary64 .positive
    exact le_iff_place.mpr ⟨_, place?_of_stands stands_zero, ⊤, by rw [top]; rfl, le_top⟩
  · contradiction
  · exact pack_nonneg (.zero .positive) le_rfl
  · have stands : Stands .binary64 (.finite .positive m e positive) (m * 2 ^ e) := ⟨rfl, canonical⟩
    exact pack_nonneg stands (by positivity)

theorem stands_twoPower {k : ℤ} (positive : 0 < 2 ^ 52)
    (known : exact (twoPower k) = .finite .positive (2 ^ 52) (k - 52) positive) :
    Stands .binary64 (exact (twoPower k)) (2 ^ k) := by
  have canonical : Canonical .binary64 (exact (twoPower k)) := canonical_unpack .binary64 _
  refine ⟨?_, canonical⟩
  have value : ((2 ^ 52 : ℕ) : ℚ) * 2 ^ (k - 52) = 2 ^ k := by
    rw [Nat.cast_pow, Nat.cast_ofNat, ← zpow_natCast, ← zpow_add₀ two_ne_zero]
    congr 1
    omega
  rw [known, value?, signed, value]

/-- The powers of two that decide how a length is taken. -/
theorem stands_limits : Stands .binary64 (exact (twoPower (-54))) (2 ^ (-54 : ℤ)) ∧
    Stands .binary64 (exact (twoPower (-600))) (2 ^ (-600 : ℤ)) ∧
    Stands .binary64 (exact (twoPower 600)) (2 ^ (600 : ℤ)) ∧
    Stands .binary64 (exact (twoPower 511)) (2 ^ (511 : ℤ)) ∧
    Stands .binary64 (exact (twoPower (-459))) (2 ^ (-459 : ℤ)) :=
  ⟨stands_twoPower (by decide) rfl, stands_twoPower (by decide) rfl, stands_twoPower (by decide) rfl,
    stands_twoPower (by decide) rfl, stands_twoPower (by decide) rfl⟩

/-- Sides whose squares are within range and no subnormal numbers have a length that is not negative,
and not much longer than the longer side. -/
theorem exists_correctedRoot (standsL : Stands .binary64 (exact l) long)
    (standsS : Stands .binary64 (exact s) short) (ordered : short ≤ long)
    (least : 2 ^ (-474 : ℤ) ≤ short) (most : long ≤ 2 ^ (511 : ℤ)) :
    ∃ a, Stands .binary64 (exact (correctedRoot l s)) a ∧ 0 ≤ a ∧ a ≤ 4 * long := by
  obtain ⟨root, standsH, isRoot⟩ := exists_isRoot standsL standsS ordered least most
  obtain ⟨a, stands, nonneg, high⟩ := lies_correctedRoot standsL standsS isRoot standsH
  have squares := pow_le_pow_left₀ isRoot.nonneg ordered 2
  have bound : root ≤ 2 * long := by
    refine le_of_sq_le_sq ?_ (by linarith [isRoot.nonneg])
    nlinarith [isRoot.most]
  exact ⟨a, stands, nonneg, by linarith⟩

/-- Scaling a number by a power of two, within the range of the format. -/
theorem stands_scaled {i j k : ℤ} (stands : Stands .binary64 (exact x) a)
    (scale : Stands .binary64 (exact c) (2 ^ k)) (low : 2 ^ i ≤ a) (high : a ≤ 2 ^ j)
    (least : -1074 ≤ i + k) (most : j + k ≤ 1023) :
    Stands .binary64 (exact (x * c)) (nearest .binary64 (a * 2 ^ k)) ∧
      2 ^ (i + k) ≤ nearest .binary64 (a * 2 ^ k) ∧ nearest .binary64 (a * 2 ^ k) ≤ 2 ^ (j + k) := by
  have unit : (0 : ℚ) < 2 ^ k := by positivity
  have positive : 0 < a := lt_of_lt_of_le (by positivity) low
  have lower : (2 : ℚ) ^ (i + k) ≤ a * 2 ^ k := by
    rw [zpow_add₀ two_ne_zero]
    gcongr
  have upper : a * 2 ^ k ≤ 2 ^ (j + k) := by
    rw [zpow_add₀ two_ne_zero]
    gcongr
  have order : i + k ≤ j + k :=
    (zpow_le_zpow_iff_right₀ one_lt_two).mp (lower.trans upper)
  have range : a * 2 ^ k ≤ largest .binary64 :=
    calc
      a * 2 ^ k ≤ 2 ^ (1023 : ℤ) := upper.trans (zpow_le_zpow_right₀ one_le_two most)
      _ ≤ 2 ^ (1023 : ℤ) * (1 + 2 ^ (-53 : ℤ)) :=
        le_mul_of_one_le_right (by positivity) (by norm_num)
      _ ≤ largest .binary64 := two_zpow_1023_le
  refine ⟨stands_mul stands scale (by rwa [abs_of_pos (by positivity)]), ?_, ?_⟩
  · exact nearest_two_zpow least ▸ nearest_mono _ lower
  · exact nearest_two_zpow (least.trans order) ▸ nearest_mono _ upper

section scaled

variable (standsL : Stands .binary64 (exact l) long) (standsS : Stands .binary64 (exact s) short)
  (ordered : short ≤ long)

include standsL standsS ordered

/-- Scaling both sides keeps their order. -/
theorem exists_scaledRoot {scale : Float} {i j k : ℤ}
    (factor : Stands .binary64 (exact scale) (2 ^ k)) (low : 2 ^ i ≤ short) (high : long ≤ 2 ^ j)
    (least : -474 ≤ i + k) (most : j + k ≤ 511) :
    ∃ a, Stands .binary64 (exact (correctedRoot (l * scale) (s * scale))) a ∧ 0 ≤ a ∧
      a ≤ 4 * 2 ^ (j + k) := by
  obtain ⟨scaledL, _, highL⟩ := stands_scaled standsL factor (low.trans ordered) high (by omega)
    (by omega)
  obtain ⟨scaledS, lowS, _⟩ := stands_scaled standsS factor low (ordered.trans high) (by omega)
    (by omega)
  have order : nearest .binary64 (short * 2 ^ k) ≤ nearest .binary64 (long * 2 ^ k) :=
    nearest_mono _ (mul_le_mul_of_nonneg_right ordered (by positivity))
  obtain ⟨a, stands, nonneg, bound⟩ := exists_correctedRoot scaledL scaledS order
    ((zpow_le_zpow_right₀ one_le_two least).trans lowS)
    (highL.trans (zpow_le_zpow_right₀ one_le_two most))
  exact ⟨a, stands, nonneg, by linarith⟩

theorem scaledRoot_nonneg {down up : Float} {i j k : ℤ} {factor : ℚ}
    (scale : Stands .binary64 (exact down) (2 ^ k)) (back : Stands .binary64 (exact up) factor)
    (positive : 0 ≤ factor) (low : 2 ^ i ≤ short) (high : long ≤ 2 ^ j) (least : -474 ≤ i + k)
    (most : j + k ≤ 511) : 0 ≤ correctedRoot (l * down) (s * down) * up := by
  obtain ⟨a, stands, nonneg, _⟩ :=
    exists_scaledRoot standsL standsS ordered scale low high least most
  exact pack_nonneg (stands.mul back) (nearest_nonneg _ (mul_nonneg nonneg positive))

/-- A small side that matters is positive, and the other one is small too. -/
theorem bounds_of_small {tiny : Float} (nonneg : 0 ≤ short) (small : short ≤ 2 ^ (-459 : ℤ))
    (scale : Stands .binary64 (exact tiny) (2 ^ (-54 : ℤ))) (matters : ¬ s / tiny ≤ l) :
    2 ^ (-1074 : ℤ) ≤ short ∧ long ≤ 2 ^ (-405 : ℤ) := by
  have unit : (0 : ℚ) < 2 ^ (-54 : ℤ) := by positivity
  have upper : short / 2 ^ (-54 : ℤ) ≤ 2 ^ (-405 : ℤ) := by
    rw [div_le_iff₀ unit, ← zpow_add₀ two_ne_zero]
    exact small
  have quotient := stands_div standsS scale unit.ne' (by
    rw [abs_of_nonneg (by positivity)]
    refine upper.trans (le_trans ?_ two_pow_64_le_largest)
    exact (zpow_le_one_of_nonpos₀ one_le_two (by norm_num)).trans (by norm_num))
  have less := not_le.mp (mt (float_le_iff_of_stands quotient standsL).mpr matters)
  constructor
  · refine least_le_of_stands standsS (lt_of_le_of_ne nonneg ?_)
    rintro rfl
    rw [zero_div, nearest_zero] at less
    exact absurd ordered (not_le.mpr less)
  · exact less.le.trans (nearest_two_zpow (k := -405) (by norm_num) ▸ nearest_mono _ upper)

theorem hypotenuseOf_nonneg (nonneg : 0 ≤ short) : 0 ≤ hypotenuseOf l s := by
  have sum : 0 ≤ l + s :=
    pack_nonneg (standsL.add standsS) (nearest_nonneg _ (add_nonneg (nonneg.trans ordered) nonneg))
  obtain ⟨tiny, down, up, large, small⟩ := stands_limits
  unfold hypotenuseOf
  dsimp only
  split
  · rename_i high
    split
    · exact sum
    · rename_i matters
      have above := (float_lt_iff_of_stands large standsL).mp high
      have top : long ≤ 2 ^ (1024 : ℤ) :=
        ((le_abs_self long).trans (abs_le_largest standsL)).trans largest_le_two_zpow
      obtain ⟨standsT, lowT, _⟩ := stands_scaled standsL tiny above.le top (by norm_num)
        (by norm_num)
      have low := lowT.trans (not_le.mp (mt (float_le_iff_of_stands standsS standsT).mpr matters)).le
      exact scaledRoot_nonneg standsL standsS ordered down up (by positivity) low top (by norm_num)
        (by norm_num)
  · rename_i high
    have most := not_lt.mp (mt (float_lt_iff_of_stands large standsL).mpr high)
    split
    · rename_i low
      split
      · exact sum
      · rename_i matters
        have below := (float_lt_iff_of_stands standsS small).mp low
        obtain ⟨least, most⟩ := bounds_of_small standsL standsS ordered nonneg below.le tiny matters
        exact scaledRoot_nonneg standsL standsS ordered up down (by positivity) least most
          (by norm_num) (by norm_num)
    · rename_i low
      have least := not_lt.mp (mt (float_lt_iff_of_stands standsS small).mpr low)
      split
      · exact sum
      · obtain ⟨a, stands, nonneg, _⟩ := exists_correctedRoot standsL standsS ordered
          ((zpow_le_zpow_right₀ one_le_two (by norm_num)).trans least) most
        exact (float_le_iff_of_stands stands_zero stands).mpr nonneg

end scaled

/-- The length of a vector is a number and not negative, also where it is too large for the format. -/
theorem hypotenuse_nonneg (first : x.isNaN = false) (second : y.isNaN = false) :
    0 ≤ hypotenuse x y := by
  have side {z : Float} (number : z.isNaN = false) (bounded : z.abs.isInf = false) :
      ∃ a, Stands .binary64 (exact z.abs) a ∧ 0 ≤ a := by
    refine (nonneg_cases (float_abs_nonneg number)).resolve_right fun infinite => ?_
    change (exact z.abs).isInf = false at bounded
    rw [infinite] at bounded
    contradiction
  unfold hypotenuse
  dsimp only
  split
  · decide
  · rename_i bounded
    obtain ⟨boundedX, boundedY⟩ := Bool.or_eq_false_iff.mp (Bool.eq_false_iff.mpr bounded)
    obtain ⟨a, standsX, nonnegX⟩ := side first boundedX
    obtain ⟨b, standsY, nonnegY⟩ := side second boundedY
    have order := float_lt_iff_of_stands standsX standsY
    split
    · rename_i less
      exact hypotenuseOf_nonneg standsY standsX (order.mp less).le nonnegX
    · rename_i notLess
      exact hypotenuseOf_nonneg standsX standsY (not_lt.mp (mt order.mpr notLess)) nonnegY

end sides

end LaserCutter.Number
