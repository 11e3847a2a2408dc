import LaserCutter.Proofs.Number.Packing

/-!
# Arithmetic of floats

An operation on floats that stand for numbers gives what is nearest to the exact result, in
canonical form. What is packed into a bit pattern and unpacked again still stands for its number, if
that is within the range of the format.
-/

namespace LaserCutter.Number

open Float.Model (Format totalExponent UnpackedFloat)
open Float.Model.UnpackedFloat

theorem signed_neg (s : Sign) (q : ℚ) : signed (-s) q = -signed s q := by
  cases s with
  | negative => exact (neg_neg q).symm
  | positive => rfl

theorem signed_mul (s s' : Sign) (q r : ℚ) :
    signed s q * signed s' r = signed (s * s') (q * r) := by
  cases s <;> cases s' <;> simp only [signed, neg_mul, mul_neg, neg_neg]

theorem signed_div (s s' : Sign) (q r : ℚ) :
    signed s q / signed s' r = signed (s / s') (q / r) := by
  cases s <;> cases s' <;> simp only [signed, neg_div, div_neg, neg_neg] <;> rfl

theorem abs_signed (s : Sign) {q : ℚ} (nonneg : 0 ≤ q) : |signed s q| = q := by
  cases s <;> simp only [signed, abs_neg, abs_of_nonneg nonneg]

theorem nearest_signed (spec : Format) (s : Sign) (q : ℚ) :
    nearest spec (signed s q) = signed s (nearest spec q) := by
  cases s with
  | negative => exact nearest_neg spec
  | positive => rfl

theorem signed_decreaseExponent (s : Sign) (m : ℕ) {e t : ℤ} (le : t ≤ e) :
    (s.apply (decreaseExponent m e t).1 : ℚ) * 2 ^ t = signed s (m * 2 ^ e) := by
  have reached : (decreaseExponent m e t).2 = t := by
    simp only [decreaseExponent]
    omega
  have value := decreaseExponent_value m e t
  rw [reached] at value
  cases s <;> simp [Sign.apply, signed, value]

namespace Stands

variable {spec : Format} {x y : UnpackedFloat} {a b : ℚ}

theorem zero (s : Sign) : Stands spec (.zero s) 0 := ⟨rfl, trivial⟩

/-- A float that stands for a number is a zero or finite, and then its mantissa is canonical. -/
theorem zero_or_finite (stands : Stands spec x a) :
    (∃ s, x = .zero s ∧ a = 0) ∨
      ∃ s m e positive, x = .finite s m e positive ∧ a = signed s (m * 2 ^ e) ∧
        m < 2 ^ spec.mantissaBits ∧ spec.minExponent ≤ e ∧
        (2 ^ (spec.mantissaBits - 1) ≤ m ∨ e = spec.minExponent) := by
  obtain ⟨value, canonical⟩ := stands
  cases x with
  | zero s => exact .inl ⟨s, rfl, by simpa [value?] using value.symm⟩
  | finite s m e positive =>
    exact .inr ⟨s, m, e, positive, rfl, by simpa [value?] using value.symm, canonical⟩
  | infinity s => simp [value?] at value
  | notANumber => simp [value?] at value

/-- A number of the format is nearest to itself. -/
theorem nearest_eq (stands : Stands spec x a) : nearest spec a = a := by
  obtain ⟨s, rfl, rfl⟩ | ⟨s, m, e, positive, rfl, rfl, room, least, _⟩ := stands.zero_or_finite
  · exact nearest_zero spec
  · have bits : |(m : ℤ)| < 2 ^ spec.mantissaBits := by
      rw [Nat.abs_cast]
      exact_mod_cast room
    rw [nearest_signed]
    exact congrArg (signed s) (nearest_eq_self spec bits least)

theorem add (first : Stands spec x a) (second : Stands spec y b) :
    Stands spec (UnpackedFloat.add spec x y) (nearest spec (a + b)) := by
  have atX := first.nearest_eq
  have atY := second.nearest_eq
  obtain ⟨s, rfl, rfl⟩ | ⟨s, m, e, positive, rfl, rfl, _⟩ := first.zero_or_finite <;>
    obtain ⟨s', rfl, rfl⟩ | ⟨s', m', e', positive', rfl, rfl, _⟩ := second.zero_or_finite
  · rw [add_zero, nearest_zero]
    simp only [UnpackedFloat.add]
    split <;> exact zero _
  · rwa [zero_add, atY]
  · rwa [add_zero, atX]
  · have sum := stands_normalize spec (s.apply (decreaseExponent m e (min e e')).1 +
      s'.apply (decreaseExponent m' e' (min e e')).1) (min e e') .positive
    push_cast at sum
    rwa [add_mul, signed_decreaseExponent s m (min_le_left e e'),
      signed_decreaseExponent s' m' (min_le_right e e')] at sum

theorem sub (first : Stands spec x a) (second : Stands spec y b) :
    Stands spec (UnpackedFloat.sub spec x y) (nearest spec (a - b)) := by
  have atX := first.nearest_eq
  have atY := second.nearest_eq
  obtain ⟨s, rfl, rfl⟩ | ⟨s, m, e, positive, rfl, rfl, _⟩ := first.zero_or_finite <;>
    obtain ⟨s', rfl, rfl⟩ | ⟨s', m', e', positive', rfl, rfl, _⟩ := second.zero_or_finite
  · rw [sub_zero, nearest_zero]
    simp only [UnpackedFloat.sub]
    split <;> exact zero _
  · rw [zero_sub, nearest_neg, atY, ← signed_neg]
    exact ⟨rfl, second.canonical⟩
  · rwa [sub_zero, atX]
  · have difference := stands_normalize spec (s.apply (decreaseExponent m e (min e e')).1 -
      s'.apply (decreaseExponent m' e' (min e e')).1) (min e e') .positive
    push_cast at difference
    rwa [sub_mul, signed_decreaseExponent s m (min_le_left e e'),
      signed_decreaseExponent s' m' (min_le_right e e')] at difference

/-- The product of two canonical mantissas is fine enough to be rounded. -/
theorem coarse_mul {m m' : ℕ} {e e' : ℤ} (positive : 0 < m) (positive' : 0 < m')
    (full : 2 ^ (spec.mantissaBits - 1) ≤ m ∨ e = spec.minExponent)
    (full' : 2 ^ (spec.mantissaBits - 1) ≤ m' ∨ e' = spec.minExponent) :
    e + e' ≤ ulpExponent spec ((m * m' : ℕ) * 2 ^ (e + e')) := by
  have bits := mantissaBits_pos spec
  have product : 0 < m * m' := Nat.mul_pos positive positive'
  rw [← targetExponent_of_pos spec product (describes_self (m * m') (e + e'))]
  by_cases large : 2 ^ (spec.mantissaBits - 1) ≤ m * m'
  · have log := (Nat.le_log2 product.ne').mpr large
    unfold Format.targetExponent totalExponent
    omega
  · -- Neither mantissa is full, so both numbers have the least exponent, which is not positive.
    have small : ¬ 2 ^ (spec.mantissaBits - 1) ≤ m := fun le =>
      large (le.trans (Nat.le_mul_of_pos_right m positive'))
    have small' : ¬ 2 ^ (spec.mantissaBits - 1) ≤ m' := fun le =>
      large (le.trans (Nat.le_mul_of_pos_left m' positive))
    have exponent := full.resolve_left small
    have exponent' := full'.resolve_left small'
    have negative := minExponent_eq spec
    have fraction := spec.hm
    unfold Format.targetExponent
    omega

theorem mul (first : Stands spec x a) (second : Stands spec y b) :
    Stands spec (UnpackedFloat.mul spec x y) (nearest spec (a * b)) := by
  obtain ⟨s, rfl, rfl⟩ | ⟨s, m, e, positive, rfl, rfl, _, _, full⟩ := first.zero_or_finite <;>
    obtain ⟨s', rfl, rfl⟩ | ⟨s', m', e', positive', rfl, rfl, _, _, full'⟩ :=
      second.zero_or_finite
  · rw [mul_zero, nearest_zero]
    exact zero _
  · rw [zero_mul, nearest_zero]
    exact zero _
  · rw [mul_zero, nearest_zero]
    exact zero _
  · have value : (m * 2 ^ e : ℚ) * (m' * 2 ^ e') = (m * m' : ℕ) * 2 ^ (e + e') := by
      rw [zpow_add₀ two_ne_zero]
      push_cast
      ring
    rw [signed_mul, nearest_signed, value]
    exact stands_roundWithAccuracy spec (s * s') (by positivity)
      (describes_self (m * m') (e + e')) (coarse_mul positive positive' full full')

/-- The quotient is computed to enough bits to be rounded. -/
theorem coarse_div (spec : Format) {m m' : ℕ} (e e' : ℤ) (positive : 0 < m) (positive' : 0 < m') :
    spec.targetExponent (totalExponent m e - totalExponent m' e') ≤
      ulpExponent spec (m / m' * 2 ^ (e - e')) := by
  have above : (2 : ℚ) ^ (m.log2 : ℤ) ≤ m := by
    rw [zpow_natCast]
    exact_mod_cast Nat.log2_self_le positive.ne'
  have below : (m' : ℚ) ≤ 2 ^ (m'.log2 + 1 : ℤ) := by
    have bound := Nat.lt_log2_self (n := m')
    rw [← Nat.cast_succ, zpow_natCast]
    exact_mod_cast bound.le
  have quotient : (0 : ℚ) < m / m' * 2 ^ (e - e') := by positivity
  have log : (m.log2 : ℤ) - (m'.log2 + 1) + (e - e') ≤ Int.log 2 (m / m' * 2 ^ (e - e') : ℚ) := by
    rw [← Int.zpow_le_iff_le_log one_lt_two quotient, zpow_add₀ (by norm_num),
      zpow_sub₀ (by norm_num)]
    push_cast
    gcongr
  unfold ulpExponent Format.targetExponent totalExponent
  rw [abs_of_pos quotient]
  omega

/-- The quotient and the remainder of the division describe the exact quotient. -/
theorem describes_div {m m' : ℕ} {e t : ℤ} (positive' : 0 < m') (fine : t ≤ e) :
    Describes (.ofMantissaAndAccuracy (m <<< (e - t).toNat / m')
      (accuracyOfFraction (m <<< (e - t).toNat % m') m')) (m / m' * 2 ^ e / 2 ^ t) := by
  have described := Describes.quotient (m <<< (e - t).toNat / m') (m <<< (e - t).toNat % m') m'
    (Nat.mod_lt _ positive')
  have scale : (2 : ℚ) ^ (e - t).toNat = 2 ^ e / 2 ^ t := by
    rw [← zpow_natCast, ← zpow_sub₀ two_ne_zero]
    congr 1
    omega
  have parts : (m' : ℚ) * (m <<< (e - t).toNat / m' : ℕ) + (m <<< (e - t).toNat % m' : ℕ) =
      (m <<< (e - t).toNat : ℕ) := by
    exact_mod_cast Nat.div_add_mod _ m'
  have whole : ((m <<< (e - t).toNat / m' : ℕ) : ℚ) + (m <<< (e - t).toNat % m' : ℕ) / m' =
      m / m' * 2 ^ e / 2 ^ t := by
    calc
      _ = ((m <<< (e - t).toNat : ℕ) : ℚ) / m' := by
        rw [← parts]
        field_simp
      _ = m / m' * 2 ^ e / 2 ^ t := by
        rw [Nat.shiftLeft_eq]
        push_cast
        rw [scale]
        ring
  rwa [whole] at described

theorem div (first : Stands spec x a) (second : Stands spec y b) (nonzero : b ≠ 0) :
    Stands spec (UnpackedFloat.div spec x y) (nearest spec (a / b)) := by
  obtain ⟨s', rfl, rfl⟩ | ⟨s', m', e', positive', rfl, rfl, _⟩ := second.zero_or_finite
  · exact absurd rfl nonzero
  obtain ⟨s, rfl, rfl⟩ | ⟨s, m, e, positive, rfl, rfl, _⟩ := first.zero_or_finite
  · rw [zero_div, nearest_zero]
    exact zero _
  · have value : (m * 2 ^ e : ℚ) / (m' * 2 ^ e') = m / m' * 2 ^ (e - e') := by
      rw [zpow_sub₀ two_ne_zero]
      field_simp
    rw [signed_div, nearest_signed, value]
    exact stands_roundWithAccuracy spec (s / s') (by positivity)
      (describes_div positive' (min_le_left _ _))
      ((min_le_right _ _).trans (coarse_div spec e e' positive positive'))

/-- A number within the range of the format is what its bit pattern stands for. -/
theorem repack (stands : Stands spec x a) (wide : spec.minExponent ≤ maxExponent spec)
    (range : |a| ≤ largest spec) : Stands spec (unpack spec (pack spec x)) a := by
  obtain ⟨s, rfl, rfl⟩ | ⟨s, m, e, positive, rfl, rfl, room, least, full⟩ := stands.zero_or_finite
  · rwa [pack, unpack_packedZero]
  · have high : e ≤ maxExponent spec := by
      by_contra beyond
      have full := full.resolve_right (by omega)
      have bits := mantissaBits_pos spec
      have size : |signed s (m * 2 ^ e)| = m * 2 ^ e := abs_signed s (by positivity)
      have above : (2 : ℚ) ^ spec.mantissaBits * 2 ^ maxExponent spec ≤ m * 2 ^ e := by
        calc
          (2 : ℚ) ^ spec.mantissaBits * 2 ^ maxExponent spec =
              (2 ^ (spec.mantissaBits - 1) : ℕ) * 2 ^ (maxExponent spec + 1) := by
            push_cast
            rw [zpow_add₀ two_ne_zero, ← Nat.sub_add_cancel bits, pow_succ]
            simp only [Nat.add_sub_cancel]
            ring
          _ ≤ m * 2 ^ e := by
            gcongr
            · exact one_le_two
            · omega
      have below : (2 : ℚ) ^ spec.mantissaBits * 2 ^ maxExponent spec ≤ largest spec :=
        above.trans (size ▸ range)
      have scale : (0 : ℚ) < 2 ^ maxExponent spec := by positivity
      unfold largest at below
      linarith
    rw [unpack_pack_finite spec stands.canonical high]
    exact stands

end Stands

end LaserCutter.Number
