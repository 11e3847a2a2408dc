import LaserCutter.Proofs.Number.Counts
import LaserCutter.Proofs.Number.Shares

/-!
# Square roots

The float model takes the whole square root of a mantissa that has been shifted so far that the root
fills the format, and tells from the remainder on which side of the next half the exact root lies.
What is rounded then is a number between the whole root and the next one (`Stands.sqrt`). In binary64
its square is off by less than a `2 ^ -50` of the number (`stands_sqrt`).
-/

namespace LaserCutter.Number

open Float.Model (Format totalExponent)
open Float.Model.UnpackedFloat
open Float.Model (UnpackedFloat)

section whole

variable (spec : Format)

/-- The remainder of a whole square root tells where the exact root lies; so does some rational. -/
theorem describes_sqrt (n : ℕ) :
    ∃ x : ℚ, Describes (.ofMantissaAndAccuracy n.sqrt
      (if n - n.sqrt * n.sqrt = 0 then .exact
        else .inexact (if n - n.sqrt * n.sqrt ≤ n.sqrt then .lt else .gt))) x := by
  split
  · exact ⟨n.sqrt, rfl⟩
  · split
    · refine ⟨n.sqrt + 1 / 4, ?_, ?_⟩ <;> linarith
    · refine ⟨n.sqrt + 3 / 4, ?_, ?_⟩ <;> linarith

/-- The exponent of the whole square root of a mantissa. -/
def rootExponent (m : ℕ) (e : ℤ) : ℤ :=
  min (e / 2) (spec.targetExponent ((totalExponent m e + 1) / 2))

/-- The mantissa whose whole square root is taken. -/
def radicand (m : ℕ) (e : ℤ) : ℕ := m <<< (e - 2 * rootExponent spec m e).toNat

variable {spec} {m : ℕ} {e : ℤ}

theorem two_mul_rootExponent_le : 2 * rootExponent spec m e ≤ e := by
  have halved : rootExponent spec m e ≤ e / 2 := min_le_left _ _
  omega

theorem radicand_eq :
    (radicand spec m e : ℚ) * (2 ^ rootExponent spec m e) ^ 2 = m * 2 ^ e := by
  have fine : 2 * rootExponent spec m e ≤ e := two_mul_rootExponent_le
  have shift : (2 : ℚ) ^ (e - 2 * rootExponent spec m e).toNat *
      (2 ^ rootExponent spec m e) ^ 2 = 2 ^ e := by
    rw [← zpow_natCast, ← zpow_natCast, ← zpow_mul, ← zpow_add₀ two_ne_zero]
    congr 1
    push_cast
    omega
  rw [radicand, Nat.shiftLeft_eq]
  push_cast
  rw [mul_assoc, shift]

/-- The whole root has the size of the exact one. -/
theorem two_zpow_le_root (positive : 0 < m) :
    (2 : ℚ) ^ ((totalExponent m e + 1) / 2 - 1) ≤
      (radicand spec m e).sqrt * 2 ^ rootExponent spec m e := by
  have fine : 2 * rootExponent spec m e ≤ e := two_mul_rootExponent_le
  generalize size : (totalExponent m e + 1) / 2 - 1 = k
  have total : totalExponent m e = m.log2 + e + 1 := by
    unfold totalExponent
    omega
  have above : rootExponent spec m e ≤ k := by omega
  obtain ⟨j, reached⟩ := Int.eq_ofNat_of_zero_le (sub_nonneg.mpr above)
  have root : 2 ^ j ≤ (radicand spec m e).sqrt := by
    rw [Nat.le_sqrt, radicand, Nat.shiftLeft_eq, ← pow_add]
    calc
      2 ^ (j + j) ≤ 2 ^ (m.log2 + (e - 2 * rootExponent spec m e).toNat) :=
        Nat.pow_le_pow_right two_pos (by omega)
      _ = 2 ^ m.log2 * 2 ^ (e - 2 * rootExponent spec m e).toNat := pow_add ..
      _ ≤ m * 2 ^ (e - 2 * rootExponent spec m e).toNat :=
        Nat.mul_le_mul_right _ (Nat.log2_self_le positive.ne')
  calc
    (2 : ℚ) ^ k = (2 ^ j : ℕ) * 2 ^ rootExponent spec m e := by
      push_cast
      rw [← zpow_natCast, ← zpow_add₀ two_ne_zero, ← reached, sub_add_cancel]
    _ ≤ (radicand spec m e).sqrt * 2 ^ rootExponent spec m e := by
      gcongr

end whole

/-- The square root of a positive number is the nearest number to one that shares its whole root,
counted in units that rounding does not keep. -/
theorem Stands.sqrt {spec : Format} {x : UnpackedFloat} {a : ℚ} (stands : Stands spec x a)
    (positive : 0 < a) :
    ∃ (root : ℕ) (t : ℤ) (q : ℚ), Stands spec (UnpackedFloat.sqrt spec x) (nearest spec q) ∧
      0 < root ∧ t ≤ ulpExponent spec q ∧ root * 2 ^ t ≤ q ∧ q < (root + 1) * 2 ^ t ∧
      (root * 2 ^ t) ^ 2 ≤ a ∧ a < ((root + 1) * 2 ^ t) ^ 2 := by
  obtain ⟨m, e, positiveM, rfl⟩ := stands.finite_of_pos positive
  have value : a = m * 2 ^ e := by
    have known := stands.value
    simpa [value?, signed] using known.symm
  obtain ⟨x, described⟩ := describes_sqrt (radicand spec m e)
  obtain ⟨low, high⟩ := described.bounds
  rw [mantissa_ofMantissaAndAccuracy] at low high
  have unit : (0 : ℚ) < 2 ^ rootExponent spec m e := by positivity
  have whole : (radicand spec m e : ℚ) * (2 ^ rootExponent spec m e) ^ 2 = m * 2 ^ e :=
    radicand_eq
  have size : (2 : ℚ) ^ ((totalExponent m e + 1) / 2 - 1) ≤
      (radicand spec m e).sqrt * 2 ^ rootExponent spec m e := two_zpow_le_root positiveM
  have reached : ((radicand spec m e).sqrt : ℚ) * 2 ^ rootExponent spec m e ≤
      x * 2 ^ rootExponent spec m e := mul_le_mul_of_nonneg_right low unit.le
  have number : 0 < x * 2 ^ rootExponent spec m e :=
    lt_of_lt_of_le (by positivity) (size.trans reached)
  have coarse : rootExponent spec m e ≤ ulpExponent spec (x * 2 ^ rootExponent spec m e) := by
    have log := (Int.zpow_le_iff_le_log one_lt_two number).mp
      (by exact_mod_cast size.trans reached)
    have exponent : rootExponent spec m e ≤
        spec.targetExponent ((totalExponent m e + 1) / 2) := min_le_right _ _
    unfold ulpExponent
    rw [abs_of_pos number]
    unfold Format.targetExponent at exponent
    omega
  refine ⟨(radicand spec m e).sqrt, rootExponent spec m e, x * 2 ^ rootExponent spec m e, ?_, ?_,
    coarse, reached, mul_lt_mul_of_pos_right high unit, ?_, ?_⟩
  · rw [← mul_div_cancel_right₀ x unit.ne'] at described
    exact stands_roundWithAccuracy spec .positive number described coarse
  · exact Nat.sqrt_pos.mpr (by
      unfold radicand
      rw [Nat.shiftLeft_eq]
      positivity)
  · rw [value, ← whole, mul_pow]
    gcongr
    exact_mod_cast Nat.sqrt_le' (radicand spec m e)
  · rw [value, ← whole, mul_pow]
    gcongr
    exact_mod_cast Nat.lt_succ_sqrt' (radicand spec m e)

section binary64

variable {x : Float} {a : ℚ}

/-- A positive number of the format is not below the least one. -/
theorem least_le_of_stands {u : UnpackedFloat} (stands : Stands .binary64 u a) (positive : 0 < a) :
    2 ^ (-1074 : ℤ) ≤ a := by
  obtain ⟨n, rfl⟩ := stands.onGrid
  have unit : (0 : ℚ) < 2 ^ Format.binary64.minExponent := by positivity
  have whole : 0 < n := by exact_mod_cast pos_of_mul_pos_left positive unit.le
  have one : (1 : ℚ) ≤ n := by exact_mod_cast whole
  exact le_mul_of_one_le_left unit.le one

/-- The numbers of the format are within its range. -/
theorem abs_le_largest (stands : Stands .binary64 (exact x) a) : |a| ≤ largest .binary64 := by
  obtain ⟨b, known, range⟩ := exists_stands (isFinite_of_stands stands)
  rwa [Option.some.inj (stands.value.symm.trans known.value)]

/-- What is rounded to a square root is not small, so rounding keeps units of a `2 ^ -52` of it. -/
theorem unit_le_of_root {root : ℕ} {t : ℤ} {q : ℚ} (nonzero : 0 < root)
    (coarse : t ≤ ulpExponent .binary64 q) (low : root * 2 ^ t ≤ q)
    (above : (2 ^ (-1074 : ℤ) : ℚ) ≤ ((root + 1) * 2 ^ t) ^ 2) :
    2 ^ (-1022 : ℤ) ≤ q ∧ (2 : ℚ) ^ t ≤ q * 2 ^ (-52 : ℤ) := by
  have one : (1 : ℚ) ≤ root := by exact_mod_cast nonzero
  have number : 0 < q := lt_of_lt_of_le (by positivity) low
  have double : (root + 1) * 2 ^ t ≤ 2 * q := by
    calc
      (root + 1) * 2 ^ t ≤ (root + root) * (2 : ℚ) ^ t := by gcongr
      _ = 2 * (root * 2 ^ t) := by ring
      _ ≤ 2 * q := by gcongr
  have size : (2 : ℚ) ^ (-538 : ℤ) ≤ q := by
    refine le_of_sq_le_sq ?_ number.le
    have square : (2 : ℚ) ^ (-1074 : ℤ) = 4 * (2 ^ (-538 : ℤ)) ^ 2 := by
      rw [← zpow_natCast, ← zpow_mul, show (4 : ℚ) = 2 ^ (2 : ℤ) by norm_num,
        ← zpow_add₀ two_ne_zero]
      rfl
    have bounded := above.trans (pow_le_pow_left₀ (by positivity) double 2)
    rw [square, mul_pow] at bounded
    linarith
  refine ⟨(zpow_le_zpow_right₀ one_le_two (by norm_num)).trans size, ?_⟩
  have log : -538 ≤ Int.log 2 q := (Int.zpow_le_iff_le_log one_lt_two number).mp
    (by exact_mod_cast size)
  have least : Format.binary64.minExponent = -1074 := by decide
  have bits : Format.binary64.mantissaBits = 53 := rfl
  have exponent : t ≤ Int.log 2 q - 52 := by
    unfold ulpExponent at coarse
    rw [abs_of_pos number] at coarse
    omega
  calc
    (2 : ℚ) ^ t ≤ 2 ^ (Int.log 2 q - 52) := zpow_le_zpow_right₀ one_le_two exponent
    _ = 2 ^ Int.log 2 q * 2 ^ (-52 : ℤ) := by rw [← zpow_add₀ two_ne_zero, ← sub_eq_add_neg]
    _ ≤ q * 2 ^ (-52 : ℤ) := by
      gcongr
      exact_mod_cast Int.zpow_log_le_self one_lt_two number

/-- What is off from the exact root by a unit and by its own rounding has nearly the right square. -/
theorem sq_window {low unit q h : ℚ} (number : 0 < q) (fine : unit ≤ q * 2 ^ (-52 : ℤ))
    (high : q ≤ low + unit) (atLow : low ≤ q) (below : low ^ 2 ≤ a) (above : a ≤ (low + unit) ^ 2)
    (least : q * (1 - 2 ^ (-53 : ℤ)) ≤ h) (most : h ≤ q * (1 + 2 ^ (-53 : ℤ))) :
    a * (1 - 2 ^ (-50 : ℤ)) ≤ h ^ 2 ∧ h ^ 2 ≤ a * (1 + 2 ^ (-50 : ℤ)) := by
  have close : 0 ≤ q * (1 - 2 ^ (-52 : ℤ)) := mul_nonneg number.le (by norm_num)
  have rounded : 0 ≤ q * (1 - 2 ^ (-53 : ℤ)) := mul_nonneg number.le (by norm_num)
  have lower : (q * (1 - 2 ^ (-52 : ℤ))) ^ 2 ≤ a :=
    (pow_le_pow_left₀ close (by linarith) 2).trans below
  have upper : a ≤ (q * (1 + 2 ^ (-52 : ℤ))) ^ 2 :=
    above.trans (pow_le_pow_left₀ (by linarith) (by linarith) 2)
  constructor
  · calc
      a * (1 - 2 ^ (-50 : ℤ)) ≤ (q * (1 + 2 ^ (-52 : ℤ))) ^ 2 * (1 - 2 ^ (-50 : ℤ)) :=
        mul_le_mul_of_nonneg_right upper (by norm_num)
      _ = q ^ 2 * ((1 + 2 ^ (-52 : ℤ)) ^ 2 * (1 - 2 ^ (-50 : ℤ))) := by ring
      _ ≤ q ^ 2 * (1 - 2 ^ (-53 : ℤ)) ^ 2 :=
        mul_le_mul_of_nonneg_left (by norm_num) (by positivity)
      _ = (q * (1 - 2 ^ (-53 : ℤ))) ^ 2 := by ring
      _ ≤ h ^ 2 := pow_le_pow_left₀ rounded least 2
  · calc
      h ^ 2 ≤ (q * (1 + 2 ^ (-53 : ℤ))) ^ 2 := pow_le_pow_left₀ (rounded.trans least) most 2
      _ = q ^ 2 * (1 + 2 ^ (-53 : ℤ)) ^ 2 := by ring
      _ ≤ q ^ 2 * ((1 - 2 ^ (-52 : ℤ)) ^ 2 * (1 + 2 ^ (-50 : ℤ))) :=
        mul_le_mul_of_nonneg_left (by norm_num) (by positivity)
      _ = (q * (1 - 2 ^ (-52 : ℤ))) ^ 2 * (1 + 2 ^ (-50 : ℤ)) := by ring
      _ ≤ a * (1 + 2 ^ (-50 : ℤ)) := mul_le_mul_of_nonneg_right lower (by norm_num)

/-- The square of a square root is off by less than a `2 ^ -50` of the number. -/
theorem stands_sqrt (stands : Stands .binary64 (exact x) a) (positive : 0 < a) :
    ∃ h, Stands .binary64 (exact x.sqrt) h ∧ 0 < h ∧ a * (1 - 2 ^ (-50 : ℤ)) ≤ h ^ 2 ∧
      h ^ 2 ≤ a * (1 + 2 ^ (-50 : ℤ)) := by
  obtain ⟨root, t, q, rounded, nonzero, coarse, low, high, below, above⟩ := stands.sqrt positive
  have next : (root + 1) * (2 : ℚ) ^ t = root * 2 ^ t + 2 ^ t := by ring
  obtain ⟨normal, fine⟩ := unit_le_of_root nonzero coarse low
    ((least_le_of_stands stands positive).trans above.le)
  have number : 0 < q := lt_of_lt_of_le (by positivity) normal
  obtain ⟨least, most⟩ := nearest_window normal
  have positiveRoot : 0 < nearest .binary64 q :=
    lt_of_lt_of_le (mul_pos number (by norm_num)) least
  rw [next] at high above
  obtain ⟨notLess, notMore⟩ := sq_window number fine high.le low below above.le least most
  have range : nearest .binary64 q ≤ largest .binary64 := by
    have top : (2 : ℚ) ≤ largest .binary64 := le_trans (by norm_num) two_pow_64_le_largest
    have bound := (le_abs_self a).trans (abs_le_largest stands)
    refine le_of_sq_le_sq ?_ (by linarith)
    calc
      nearest .binary64 q ^ 2 ≤ a * (1 + 2 ^ (-50 : ℤ)) := notMore
      _ ≤ a * 2 := mul_le_mul_of_nonneg_left (by norm_num) positive.le
      _ ≤ largest .binary64 * largest .binary64 := mul_le_mul bound top (by norm_num) (by linarith)
      _ = largest .binary64 ^ 2 := (sq _).symm
  exact ⟨nearest .binary64 q, rounded.repack (by decide) (by rwa [abs_of_pos positiveRoot]),
    positiveRoot, notLess, notMore⟩

end binary64

end LaserCutter.Number
