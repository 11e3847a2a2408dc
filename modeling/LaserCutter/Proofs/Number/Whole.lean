import LaserCutter.Proofs.Number.Finite

/-!
# Rounding to whole numbers, and scaling

A number is rounded to the whole number below its half more, and on the way to a bounded type it is
kept within the bounds. So whether it comes to a positive whole number is told by where it stands.
Scaling by a positive number keeps the order of numbers that are not negative, also where a result
is too large for the format. Whole bounds (`UpTo`) survive products, quotients and rounding.
-/

namespace LaserCutter.Number

open Float.Model (Format UnpackedFloat)
open Float.Model.UnpackedFloat

/-- The place of a number among the numbers and the infinities. -/
def numberPlace (q : ℚ) : WithBot (WithTop ℚ) := ((q : WithTop ℚ) : WithBot (WithTop ℚ))

theorem wholeNearest_eq (m : ℕ) (e : ℤ) : (wholeNearest m e : ℤ) = ⌊(m * 2 ^ e : ℚ) + 1 / 2⌋ := by
  unfold wholeNearest
  split
  · rename_i nonneg
    have whole : (m * 2 ^ e : ℚ) = (m * 2 ^ e.toNat : ℤ) := by
      push_cast
      rw [← zpow_natCast, Int.toNat_of_nonneg nonneg]
    have half : ⌊(1 / 2 : ℚ)⌋ = 0 := by norm_num
    rw [whole, Int.floor_intCast_add, half, add_zero, Nat.shiftLeft_eq]
    push_cast
    rfl
  · rename_i negative
    obtain ⟨k, bits⟩ : ∃ k : ℕ, (-e).toNat = k + 1 := ⟨(-e).toNat - 1, by omega⟩
    have scale : (2 : ℚ) ^ e = 1 / 2 ^ (k + 1) := by
      rw [← bits, ← zpow_natCast, Int.toNat_of_nonneg (by omega), zpow_neg, one_div, inv_inv]
    have quotient : (m * 2 ^ e : ℚ) + 1 / 2 = (m + 2 ^ k : ℕ) / (2 ^ (k + 1) : ℕ) := by
      rw [scale]
      push_cast
      rw [pow_succ]
      field_simp
    rw [quotient, bits, Nat.add_sub_cancel, Rat.floor_natCast_div_natCast]
    rfl

/-- Rounding comes to `n` or more exactly if the number is less than a half below `n`. -/
theorem le_roundToInt64_iff {n : ℤ} (one : 1 ≤ n) (most : n ≤ int64Max) (x : Float) :
    n ≤ roundToInt64 x ↔ ∃ p ∈ place? (exact x), numberPlace (n - 1 / 2) ≤ p := by
  have least : int64Min < 1 := by decide
  have number : (1 : ℚ) ≤ n := by exact_mod_cast one
  have order (a : ℚ) : numberPlace (n - 1 / 2) ≤ numberPlace a ↔ n - 1 / 2 ≤ a :=
    WithBot.coe_le_coe.trans WithTop.coe_le_coe
  have single {p : WithBot (WithTop ℚ)} : (∃ q ∈ some p, numberPlace (n - 1 / 2) ≤ q) ↔
      numberPlace (n - 1 / 2) ≤ p := by
    simp
  have below (a : ℚ) (nonpos : a ≤ 0) : ¬ numberPlace (n - 1 / 2) ≤ numberPlace a := by
    rw [order]
    linarith
  unfold roundToInt64
  rcases exact x with ⟨⟨⟩⟩ | _ | s | ⟨⟨⟩, m, e, positive⟩
  · rw [place?, single]
    exact iff_of_false (show ¬ n ≤ int64Min by omega) (by simp [numberPlace])
  · rw [place?, single]
    exact iff_of_true most (WithBot.coe_le_coe.mpr le_top)
  · exact iff_of_false (show ¬ n ≤ 0 by omega) (by simp [place?])
  · rw [place?, single]
    exact iff_of_false (show ¬ n ≤ 0 by omega) (below 0 le_rfl)
  · have value : (0 : ℚ) < m * 2 ^ e := by positivity
    rw [place?, single]
    refine iff_of_false ?_ (below _ (by simpa [signed] using value.le))
    simp only [bound, Sign.apply]
    omega
  · rw [place?, single]
    refine Iff.trans ?_ (order _).symm
    simp only [bound, Sign.apply, signed]
    rw [sub_le_iff_le_add, ← Int.le_floor, ← wholeNearest_eq]
    omega

theorem roundToInt64_nonneg {x : Float} (nonneg : 0 ≤ x) : 0 ≤ roundToInt64 x := by
  obtain ⟨p, atZero, q, atX, le⟩ := le_iff_place.mp nonneg
  cases atZero
  have most : (0 : ℤ) ≤ int64Max := by decide
  unfold roundToInt64
  generalize exact x = u at atX ⊢
  rcases u with ⟨⟨⟩⟩ | _ | s | ⟨⟨⟩, m, e, positive⟩
  · cases atX
    exact absurd le (by simp)
  · exact most
  · exact le_rfl
  · exact le_rfl
  · cases atX
    have value : (0 : ℚ) < m * 2 ^ e := by positivity
    have le : (0 : ℚ) ≤ -(m * 2 ^ e) := WithTop.coe_le_coe.mp (WithBot.coe_le_coe.mp le)
    linarith
  · simp only [bound, Sign.apply]
    omega

theorem roundToInt64_le_max (x : Float) : roundToInt64 x ≤ int64Max := by
  have order : int64Min ≤ int64Max := by decide
  unfold roundToInt64
  rcases exact x with ⟨⟨⟩⟩ | _ | s | ⟨s, m, e, positive⟩
  · exact order
  · exact le_rfl
  · show (0 : ℤ) ≤ int64Max
    decide
  · show (0 : ℤ) ≤ int64Max
    decide
  · simp only [bound]
    omega

/-- NaN is rounded to zero. -/
theorem roundToInt64_of_sign?_none {x : Float} (signless : sign? (exact x) = none) :
    roundToInt64 x = 0 := by
  unfold roundToInt64
  cases known : exact x with
  | notANumber => rfl
  | _ => simp [known, sign?] at signless

theorem roundToInt64_of_infinite {x : Float} (infinite : exact x = .infinity .positive) :
    roundToInt64 x = int64Max := by
  unfold roundToInt64
  rw [infinite]

/-- Rounding keeps the order, from zero on. -/
theorem roundToInt64_mono {x y : Float} (nonneg : 0 ≤ x) (le : x ≤ y) :
    roundToInt64 x ≤ roundToInt64 y := by
  have above := roundToInt64_nonneg (float_le_trans nonneg le)
  have most := roundToInt64_le_max x
  rcases lt_or_ge (roundToInt64 x) 1 with nothing | counted
  · omega
  · obtain ⟨p, atX, reached⟩ := (le_roundToInt64_iff counted most x).mp le_rfl
    obtain ⟨p', atX', q, atY, less⟩ := le_iff_place.mp le
    cases Option.mem_unique atX atX'
    exact (le_roundToInt64_iff counted most y).mpr ⟨q, atY, reached.trans less⟩

/-- A number that is not negative is rounded to the whole number below its half more. -/
theorem stands_round_of_nonneg {x : Float} {a : ℚ} (stands : Stands .binary64 (exact x) a)
    (nonneg : 0 ≤ a) (small : a ≤ 2 ^ 50) :
    Stands .binary64 (exact (round x)) (⌊a + 1 / 2⌋ : ℤ) := by
  have half : ⌊(1 / 2 : ℚ)⌋ = 0 := by norm_num
  obtain ⟨s, zero, rfl⟩ | ⟨s, m, e, positive, finite, rfl, _⟩ := stands.zero_or_finite
  · have same : round x = x := by
      unfold round
      rw [zero]
    rw [same, zero_add, half]
    exact_mod_cast stands
  · have value : (0 : ℚ) < m * 2 ^ e := by positivity
    cases s with
    | negative =>
      simp only [signed] at nonneg
      linarith
    | positive =>
      simp only [signed] at small ⊢
      rw [← wholeNearest_eq]
      unfold round
      simp only [finite]
      split
      · rename_i whole
        rw [finite] at stands
        have same : ((wholeNearest m e : ℤ) : ℚ) = m * 2 ^ e := by
          rw [wholeNearest, if_pos whole, Nat.shiftLeft_eq]
          push_cast
          rw [← zpow_natCast, Int.toNat_of_nonneg whole]
        rw [same, finite]
        exact stands
      · have few : wholeNearest m e < 2 ^ 53 := by
          have below := Int.floor_le ((m * 2 ^ e : ℚ) + 1 / 2)
          rw [← wholeNearest_eq] at below
          have bound : (wholeNearest m e : ℚ) < (2 ^ 53 : ℕ) := by
            push_cast at below ⊢
            linarith
          exact_mod_cast bound
        have rounded := stands_normalize .binary64 (wholeNearest m e) 0 .positive
        push_cast at rounded ⊢
        rw [mul_one, nearest_count few] at rounded
        refine rounded.repack (by decide) ?_
        have range := (nearest_range (q := wholeNearest m e) (by positivity)
          (by exact_mod_cast few.le.trans (by norm_num))).2.2
        rwa [nearest_count few] at range

/-- What is packed keeps its place, and beyond the range of the format goes to infinity. -/
theorem place?_pack {u : UnpackedFloat} {a : ℚ} (stands : Stands .binary64 u a) (nonneg : 0 ≤ a) :
    place? (exact (.ofModel (.pack u))) =
      some (if a ≤ largest .binary64 then numberPlace a else ⊤) := by
  split
  · rename_i range
    exact place?_of_stands (stands.repack (by decide) (by rwa [abs_of_nonneg nonneg]))
  · rename_i beyond
    obtain ⟨s, rfl, rfl⟩ | ⟨s, m, e, positive, rfl, rfl, room, least, full⟩ := stands.zero_or_finite
    · exact absurd (by rw [largest_eq_mul]; positivity) beyond
    · have value : (0 : ℚ) < m * 2 ^ e := by positivity
      have large : maxExponent .binary64 < e := by
        by_contra bounded
        have kept := unpack_pack_finite .binary64 stands.canonical (not_lt.mp bounded)
        have finite : isFinite (.ofModel (.pack (.finite s m e positive))) := by
          unfold isFinite
          rw [show exact (.ofModel (.pack (.finite s m e positive))) = _ from kept]
        have range := (stands_pack stands finite).2
        rw [abs_of_nonneg nonneg] at range
        exact beyond range
      rw [show exact (.ofModel (.pack (.finite s m e positive))) = .infinity s from
        unpack_pack_large s positive large]
      cases s with
      | negative =>
        simp only [signed] at nonneg
        linarith
      | positive => rfl

section scaling

variable {x y c : Float} {a b factor : ℚ}

theorem packedPlace_mono (le : a ≤ b) :
    (if a ≤ largest .binary64 then numberPlace a else ⊤) ≤
      if b ≤ largest .binary64 then numberPlace b else ⊤ := by
  split
  · split
    · exact WithBot.coe_le_coe.mpr (WithTop.coe_le_coe.mpr le)
    · exact le_top
  · rename_i beyond
    rw [if_neg fun inside => beyond (le.trans inside)]

/-- What is packed is compared like what is nearest to the exact result. -/
theorem pack_le_pack {u v : UnpackedFloat} (first : Stands .binary64 u (nearest .binary64 a))
    (second : Stands .binary64 v (nearest .binary64 b)) (nonneg : 0 ≤ a) (le : a ≤ b) :
    Float.ofModel (.pack u) ≤ Float.ofModel (.pack v) :=
  le_iff_place.mpr ⟨_, place?_pack first (nearest_nonneg _ nonneg), _,
    place?_pack second (nearest_nonneg _ (nonneg.trans le)), packedPlace_mono (nearest_mono _ le)⟩

theorem stands_zero : Stands .binary64 (exact 0) 0 := .zero .positive

/-- A small whole number that is written out. -/
theorem stands_of_byte (n : UInt8) (same : x = n.toFloat) : Stands .binary64 (exact x) n.toNat :=
  same ▸ stands_uint8 n

/-- A number that is not negative is finite or infinite, and not NaN. -/
theorem nonneg_cases (nonneg : 0 ≤ x) :
    (∃ a, Stands .binary64 (exact x) a ∧ 0 ≤ a) ∨ exact x = .infinity .positive := by
  by_cases finite : isFinite x
  · obtain ⟨a, stands, _⟩ := exists_stands finite
    exact .inl ⟨a, stands, (float_le_iff_of_stands stands_zero stands).mp nonneg⟩
  · right
    obtain ⟨p, atZero, q, atX, le⟩ := le_iff_place.mp nonneg
    cases atZero
    unfold isFinite at finite
    cases known : exact x with
    | infinity s =>
      cases s with
      | positive => rfl
      | negative =>
        rw [known] at atX
        cases atX
        simp at le
    | notANumber =>
      rw [known] at atX
      contradiction
    | _ => simp [known] at finite

theorem mul_le_mul_of_stands (first : Stands .binary64 (exact x) a)
    (second : Stands .binary64 (exact y) b) (scale : Stands .binary64 (exact c) factor)
    (nonneg : 0 ≤ a) (le : a ≤ b) (positive : 0 ≤ factor) : x * c ≤ y * c :=
  pack_le_pack (first.mul scale) (second.mul scale) (mul_nonneg nonneg positive)
    (mul_le_mul_of_nonneg_right le positive)

theorem unpack_pack_infinity (spec : Format) (s : Sign) :
    unpack spec (pack spec (.infinity s)) = .infinity s :=
  (unpack_packComponents spec s _ _).trans ((if_pos rfl).trans (if_pos rfl))

theorem exact_infinity_div (infinite : exact x = .infinity .positive)
    (scale : Stands .binary64 (exact c) factor) (positive : 0 < factor) :
    exact (x / c) = .infinity .positive := by
  obtain ⟨m, e, h, finite⟩ := scale.finite_of_pos positive
  change unpack .binary64 (pack .binary64 (UnpackedFloat.div .binary64 (exact x) (exact c))) = _
  rw [infinite, finite]
  exact unpack_pack_infinity .binary64 .positive

/-- Dividing by a positive number keeps the order, from zero on. -/
theorem div_le_div_of_stands (nonneg : 0 ≤ x) (le : x ≤ y)
    (scale : Stands .binary64 (exact c) factor) (positive : 0 < factor) : x / c ≤ y / c := by
  rcases nonneg_cases (float_le_trans nonneg le) with ⟨b, standsY, _⟩ | infinite
  · rcases nonneg_cases nonneg with ⟨a, standsX, nonnegA⟩ | infinite
    · have order := (float_le_iff_of_stands standsX standsY).mp le
      exact pack_le_pack (standsX.div scale positive.ne') (standsY.div scale positive.ne')
        (div_nonneg nonnegA positive.le) (div_le_div_of_nonneg_right order positive.le)
    · rw [le_iff_place, infinite, place?_of_stands standsY] at le
      simp [place?] at le
  · have top := exact_infinity_div infinite scale positive
    rcases nonneg_cases nonneg with ⟨a, standsX, nonnegA⟩ | infiniteX
    · refine le_iff_place.mpr ⟨_, place?_pack (standsX.div scale positive.ne')
        (nearest_nonneg _ (div_nonneg nonnegA positive.le)), ⊤, by rw [top]; rfl, le_top⟩
    · have topX := exact_infinity_div infiniteX scale positive
      exact le_iff_place.mpr ⟨⊤, by rw [topX]; rfl, ⊤, by rw [top]; rfl, le_rfl⟩

theorem pack_nonneg {u : UnpackedFloat} (stands : Stands .binary64 u a) (nonneg : 0 ≤ a) :
    0 ≤ Float.ofModel (.pack u) := by
  refine le_iff_place.mpr ⟨_, place?_of_stands stands_zero, _, place?_pack stands nonneg, ?_⟩
  split
  · exact WithBot.coe_le_coe.mpr (WithTop.coe_le_coe.mpr nonneg)
  · exact le_top

theorem div_nonneg_of_stands (nonneg : 0 ≤ x) (scale : Stands .binary64 (exact c) factor)
    (positive : 0 < factor) : 0 ≤ x / c := by
  rcases nonneg_cases nonneg with ⟨a, stands, nonnegA⟩ | infinite
  · exact pack_nonneg (stands.div scale positive.ne')
      (nearest_nonneg _ (div_nonneg nonnegA positive.le))
  · exact le_iff_place.mpr ⟨_, place?_of_stands stands_zero, ⊤,
      by rw [exact_infinity_div infinite scale positive]; rfl, le_top⟩

/-- A positive number times an infinity. -/
theorem exact_mul_infinity (stands : Stands .binary64 (exact x) a) (positive : 0 < a)
    (infinite : exact c = .infinity .positive) : exact (x * c) = .infinity .positive := by
  obtain ⟨m, e, h, finite⟩ := stands.finite_of_pos positive
  change unpack .binary64 (pack .binary64 (UnpackedFloat.mul .binary64 (exact x) (exact c))) = _
  rw [infinite, finite]
  exact unpack_pack_infinity .binary64 .positive

theorem Stands.exists_zero {spec : Format} {u : UnpackedFloat} (stands : Stands spec u 0) :
    ∃ s, u = .zero s := by
  obtain ⟨s, zero, _⟩ | ⟨s, m, e, positive, rfl, value, _⟩ := stands.zero_or_finite
  · exact ⟨s, zero⟩
  · have magnitude : (0 : ℚ) < m * 2 ^ e := by positivity
    cases s <;> simp only [signed] at value <;> linarith

/-- Zero times an infinity is NaN, and so is a part of it. -/
theorem sign?_zero_mul_infinity_div {s : Sign} (zero : exact x = .zero s)
    (infinite : exact y = .infinity .positive) (scale : Stands .binary64 (exact c) factor)
    (positive : 0 < factor) : sign? (exact (x * y / c)) = none := by
  obtain ⟨m, e, h, finite⟩ := scale.finite_of_pos positive
  change sign? (unpack .binary64 (pack .binary64
    (UnpackedFloat.div .binary64 (exact (x * y)) (exact c)))) = _
  rw [sign?_unpack_pack, finite, sign?_div_finite]
  change sign? (unpack .binary64 (pack .binary64
    (UnpackedFloat.mul .binary64 (exact x) (exact y)))) = _
  rw [sign?_unpack_pack, zero, infinite]
  rfl

theorem sign?_of_place_pos {u : UnpackedFloat} {q : WithBot (WithTop ℚ)} (place : q ∈ place? u)
    (above : numberPlace 0 < q) : sign? u = some .positive := by
  rcases u with ⟨⟨⟩⟩ | _ | s | ⟨⟨⟩, m, e, positive⟩ <;> cases place
  · simp at above
  · rfl
  · exact absurd above (lt_irrefl _)
  · have value : (0 : ℚ) < m * 2 ^ e := by positivity
    have above : (0 : ℚ) < -(m * 2 ^ e) := WithTop.coe_lt_coe.mp (WithBot.coe_lt_coe.mp above)
    linarith
  · rfl

/-- A number is positive if its multiple is at least a half. -/
theorem pos_of_half_le (scale : Stands .binary64 (exact c) factor) (positive : 0 < factor)
    (half : 0.5 ≤ x * c) : 0 < x := by
  obtain ⟨m, e, h, finite⟩ := scale.finite_of_pos positive
  have product : exact (x * c) =
      unpack .binary64 (pack .binary64 (UnpackedFloat.mul .binary64 (exact x) (exact c))) := rfl
  obtain ⟨p, atHalf, q, atProduct, le⟩ := le_iff_place.mp half
  cases (place?_of_stands stands_half).symm.trans atHalf
  have positiveHalf : (0 : ℚ) < 1 / 2 := by norm_num
  have above : numberPlace 0 < q :=
    lt_of_lt_of_le (WithBot.coe_lt_coe.mpr (WithTop.coe_lt_coe.mpr positiveHalf)) le
  have sign : sign? (exact x) = some .positive := by
    rw [← sign?_of_place_pos atProduct above, product, sign?_unpack_pack, finite,
      sign?_mul_finite]
  refine lt_iff_place.mpr ⟨_, place?_of_stands stands_zero, ?_⟩
  rcases known : exact x with s | _ | s | ⟨s, m', e', positive'⟩ <;>
    rw [known] at sign <;> cases sign
  · exact ⟨⊤, rfl, WithBot.coe_lt_coe.mpr (WithTop.coe_lt_top _)⟩
  · have vanished : exact (x * c) = .zero .positive := by
      rw [product, known, finite]
      exact unpack_packedZero .binary64 .positive
    rw [vanished] at atProduct
    cases atProduct
    exact absurd above (lt_irrefl _)
  · have value : (0 : ℚ) < m' * 2 ^ e' := by positivity
    exact ⟨_, rfl, WithBot.coe_lt_coe.mpr (WithTop.coe_lt_coe.mpr value)⟩

end scaling

section upTo

variable {x y : Float} {n k : ℕ}

/-- A number from zero to `n`. -/
def UpTo (n : ℕ) (x : Float) : Prop := ∃ a, Stands .binary64 (exact x) a ∧ 0 ≤ a ∧ a ≤ n

theorem upTo_iff {top : Float} (bound : Stands .binary64 (exact top) n) :
    UpTo n x ↔ 0 ≤ x ∧ x ≤ top := by
  constructor
  · rintro ⟨a, stands, low, high⟩
    exact ⟨(float_le_iff_of_stands stands_zero stands).mpr low,
      (float_le_iff_of_stands stands bound).mpr high⟩
  · rintro ⟨low, high⟩
    rcases nonneg_cases low with ⟨a, stands, nonneg⟩ | infinite
    · exact ⟨a, stands, nonneg, (float_le_iff_of_stands stands bound).mp high⟩
    · rw [le_iff_place, infinite, place?_of_stands bound] at high
      simp [place?] at high

/-- Rounding to the format keeps within a whole number. -/
theorem upTo_nearest {a : ℚ} (stands : Stands .binary64 (exact x) (nearest .binary64 a))
    (nonneg : 0 ≤ a) (le : a ≤ n) (small : n < 2 ^ 53) : UpTo n x :=
  ⟨_, stands, nearest_nonneg _ nonneg, nearest_count small ▸ nearest_mono _ le⟩

theorem UpTo.mul (first : UpTo n x) (second : UpTo k y) (small : n * k < 2 ^ 53) :
    UpTo (n * k) (x * y) := by
  obtain ⟨a, standsX, low, high⟩ := first
  obtain ⟨b, standsY, low', high'⟩ := second
  have nonneg := mul_nonneg low low'
  have le : a * b ≤ (n * k : ℕ) := by
    push_cast
    gcongr
  have range : a * b ≤ 2 ^ 64 := le.trans (by exact_mod_cast (by omega : n * k ≤ 2 ^ 64))
  refine upTo_nearest (stands_mul standsX standsY ?_) nonneg le small
  rw [abs_of_nonneg nonneg]
  exact range.trans two_pow_64_le_largest

theorem UpTo.div (bounded : UpTo (n * k) x) (divisor : Stands .binary64 (exact y) k)
    (positive : 0 < k) (small : n < 2 ^ 53) : UpTo n (x / y) := by
  obtain ⟨a, stands, low, high⟩ := bounded
  have positiveK : (0 : ℚ) < k := by exact_mod_cast positive
  have nonneg := div_nonneg low positiveK.le
  have le : a / k ≤ n := by
    rw [div_le_iff₀ positiveK]
    exact_mod_cast high
  have range : a / k ≤ 2 ^ 64 := le.trans (by exact_mod_cast (by omega : n ≤ 2 ^ 64))
  refine upTo_nearest (stands_div stands divisor positiveK.ne' ?_) nonneg le small
  rw [abs_of_nonneg nonneg]
  exact range.trans two_pow_64_le_largest

theorem UpTo.round (bounded : UpTo n x) (small : n ≤ 2 ^ 50) : UpTo n (Number.round x) := by
  obtain ⟨a, stands, low, high⟩ := bounded
  have size : (n : ℚ) ≤ 2 ^ 50 := by exact_mod_cast small
  have whole : ⌊a + 1 / 2⌋ < (n : ℤ) + 1 := by
    rw [Int.floor_lt]
    push_cast
    linarith
  have nonneg : 0 ≤ ⌊a + 1 / 2⌋ := Int.floor_nonneg.mpr (by linarith)
  refine ⟨_, stands_round_of_nonneg stands low (high.trans size), by exact_mod_cast nonneg, ?_⟩
  exact_mod_cast Int.lt_add_one_iff.mp whole

end upTo

end LaserCutter.Number
