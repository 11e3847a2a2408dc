import LaserCutter.Proofs.Number.Nearest

/-!
# Rounding of mantissas

The float model rounds a mantissa with a round bit and a sticky bit, which stand for the rest of the
number that the mantissa was cut from (`Describes`). Whatever is described, rounding gives the
number of the format that is nearest to it, in canonical form (`stands_roundWithAccuracy`,
`stands_normalize`).
-/

namespace LaserCutter.Number

open Float.Model Float.Model.UnpackedFloat

/-- How far a mantissa with its round bit and sticky bit pins a number down: it has passed the
mantissa, reached the half behind it, or neither. -/
def Describes : ExtendedMantissa → ℚ → Prop
  | ⟨m, false, false⟩, x => x = m
  | ⟨m, false, true⟩, x => m < x ∧ x < m + 1 / 2
  | ⟨m, true, false⟩, x => x = m + 1 / 2
  | ⟨m, true, true⟩, x => m + 1 / 2 < x ∧ x < m + 1

namespace Describes

variable {em : ExtendedMantissa} {x : ℚ}

theorem exact (m : ℕ) : Describes (.ofMantissaAndAccuracy m .exact) m := rfl

theorem nearestInt_eq (described : Describes em x) : nearestInt x = em.roundedMantissa := by
  apply Number.nearestInt_eq
  obtain ⟨m, round, sticky⟩ := em
  have parity : ((m + m % 2 : ℕ) : ℚ) = m ∧ m % 2 = 0 ∨
      ((m + m % 2 : ℕ) : ℚ) = m + 1 ∧ m % 2 = 1 := by
    rcases Nat.mod_two_eq_zero_or_one m with even | odd
    · exact .inl ⟨by rw [even, Nat.add_zero], even⟩
    · exact .inr ⟨by rw [odd]; push_cast; rfl, odd⟩
  cases round <;> cases sticky <;>
    simp only [Describes] at described <;>
    simp only [ExtendedMantissa.roundedMantissa, ExtendedMantissa.accuracy,
      Accuracy.roundToNearestEven]
  · constructor <;> push_cast
    · linarith
    · linarith
    · rintro (low | high) <;> linarith
  · obtain ⟨above, below⟩ := described
    constructor <;> push_cast
    · linarith
    · linarith
    · rintro (low | high) <;> linarith
  · refine ⟨?_, ?_, fun _ => by omega⟩ <;> rw [Int.cast_natCast] <;>
      rcases parity with ⟨cast, _⟩ | ⟨cast, _⟩ <;> linarith
  · obtain ⟨above, below⟩ := described
    constructor <;> push_cast
    · linarith
    · linarith
    · rintro (low | high) <;> linarith

theorem shiftRightOne (described : Describes em x) : Describes em.shiftRightOne (x / 2) := by
  obtain ⟨m, round, sticky⟩ := em
  obtain ⟨half, rfl | rfl⟩ : ∃ half, m = 2 * half ∨ m = 2 * half + 1 := ⟨m / 2, by omega⟩
  · have shifted : ExtendedMantissa.shiftRightOne ⟨2 * half, round, sticky⟩ =
        ⟨half, false, round || sticky⟩ := by
      simp [ExtendedMantissa.shiftRightOne]
    rw [shifted]
    cases round <;> cases sticky <;> simp only [Describes, Bool.or_false, Bool.or_true] at * <;>
      push_cast at described
    case false.false => linarith
    all_goals constructor <;> linarith
  · have shifted : ExtendedMantissa.shiftRightOne ⟨2 * half + 1, round, sticky⟩ =
        ⟨half, true, round || sticky⟩ := by
      have quotient : (2 * half + 1) / 2 = half := by omega
      have remainder : (2 * half + 1) % 2 = 1 := by omega
      simp [ExtendedMantissa.shiftRightOne, quotient, remainder]
    rw [shifted]
    cases round <;> cases sticky <;> simp only [Describes, Bool.or_false, Bool.or_true] at * <;>
      push_cast at described
    case false.false => linarith
    all_goals constructor <;> linarith

theorem shiftRight (described : Describes em x) (n : ℕ) : Describes (em >>> n) (x / 2 ^ n) := by
  change Describes (n.repeat ExtendedMantissa.shiftRightOne em) _
  induction n with
  | zero => simpa [Nat.repeat] using described
  | succ n ih =>
    rw [Nat.repeat, pow_succ, ← div_div]
    exact ih.shiftRightOne

/-- The remainder of a division as a round bit and a sticky bit. -/
theorem quotient (m num den : ℕ) (proper : num < den) :
    Describes (.ofMantissaAndAccuracy m (accuracyOfFraction num den)) (m + num / den) := by
  have positive : (0 : ℚ) < den := by exact_mod_cast Nat.zero_lt_of_lt proper
  have below : (num : ℚ) < den := by exact_mod_cast proper
  unfold accuracyOfFraction
  split
  · rename_i zero
    simp [zero, ExtendedMantissa.ofMantissaAndAccuracy, Describes]
  · rename_i inexact
    have above : (0 : ℚ) < num := by exact_mod_cast Nat.pos_of_ne_zero inexact
    have fraction : (0 : ℚ) < num / den := div_pos above positive
    cases side : compare (2 * num) den with
    | lt =>
      have half : 2 * num < den := Nat.compare_eq_lt.mp side
      have half : 2 * (num : ℚ) < den := by exact_mod_cast half
      have half : (num : ℚ) / den < 1 / 2 := by rw [div_lt_div_iff₀ positive two_pos]; linarith
      exact ⟨by linarith, by linarith⟩
    | eq =>
      have half : 2 * num = den := Nat.compare_eq_eq.mp side
      have half : 2 * (num : ℚ) = den := by exact_mod_cast half
      have half : (num : ℚ) / den = 1 / 2 := by rw [div_eq_div_iff positive.ne' two_ne_zero]; linarith
      rw [half]
      rfl
    | gt =>
      have half : den < 2 * num := Nat.compare_eq_gt.mp side
      have half : (den : ℚ) < 2 * num := by exact_mod_cast half
      have half : 1 / 2 < (num : ℚ) / den := by rw [div_lt_div_iff₀ two_pos positive]; linarith
      have whole : (num : ℚ) / den < 1 := by rw [div_lt_one positive]; exact below
      exact ⟨by linarith, by linarith⟩

end Describes

/-- A number with a sign put before it. -/
def signed : Sign → ℚ → ℚ
  | .positive, x => x
  | .negative, x => -x

/-- The number that an unpacked float stands for; NaN and the infinities stand for none. -/
def value? : UnpackedFloat → Option ℚ
  | .zero _ => some 0
  | .finite s m e _ => some (signed s (m * 2 ^ e))
  | _ => none

/-- The mantissa fills its bits, unless the exponent is the least. -/
def Canonical (spec : Format) : UnpackedFloat → Prop
  | .finite _ m e _ => m < 2 ^ spec.mantissaBits ∧ spec.minExponent ≤ e ∧
      (2 ^ (spec.mantissaBits - 1) ≤ m ∨ e = spec.minExponent)
  | _ => True

/-- The unpacked float stands for `q`, in the canonical form of the format. -/
structure Stands (spec : Format) (x : UnpackedFloat) (q : ℚ) : Prop where
  value : value? x = some q
  canonical : Canonical spec x

section rounding

variable (spec : Format)

theorem Describes.bounds {em : ExtendedMantissa} {x : ℚ} (described : Describes em x) :
    em.mantissa ≤ x ∧ x < em.mantissa + 1 := by
  obtain ⟨m, round, sticky⟩ := em
  cases round <;> cases sticky <;> simp only [Describes] at described ⊢ <;>
    constructor <;> linarith

theorem mantissa_ofMantissaAndAccuracy (m : ℕ) (acc : Accuracy) :
    (ExtendedMantissa.ofMantissaAndAccuracy m acc).mantissa = m := by
  cases acc with
  | exact => rfl
  | inexact side => cases side <;> rfl

/-- The target exponent of a mantissa is that of the number that it describes. -/
theorem targetExponent_of_pos {m : ℕ} {e : ℤ} {acc : Accuracy} {x : ℚ} (nonzero : 0 < m)
    (described : Describes (.ofMantissaAndAccuracy m acc) (x / 2 ^ e)) :
    spec.targetExponent (totalExponent m e) = ulpExponent spec x := by
  have scale : (0 : ℚ) < 2 ^ e := by positivity
  obtain ⟨low, high⟩ := described.bounds
  rw [mantissa_ofMantissaAndAccuracy] at low high
  rw [le_div_iff₀ scale] at low
  rw [div_lt_iff₀ scale] at high
  have positive : 0 < x := lt_of_lt_of_le (by positivity) low
  have log : Int.log 2 x = m.log2 + e := by
    apply le_antisymm
    · apply Int.lt_add_one_iff.mp
      rw [← Int.lt_zpow_iff_log_lt one_lt_two positive]
      refine high.trans_le ?_
      rw [add_right_comm, zpow_add₀ (by norm_num)]
      push_cast
      gcongr
      exact_mod_cast Nat.lt_log2_self
    · rw [← Int.zpow_le_iff_le_log one_lt_two positive]
      refine le_trans ?_ low
      rw [zpow_add₀ (by norm_num)]
      push_cast
      gcongr
      exact_mod_cast Nat.log2_self_le nonzero.ne'
  unfold ulpExponent
  rw [abs_of_pos positive, log]
  simp only [Format.targetExponent, totalExponent]
  congr 1
  ring

/-- The same where nothing of the number may be left in the mantissa. -/
theorem targetExponent_eq {m : ℕ} {e : ℤ} {acc : Accuracy} {x : ℚ} (positive : 0 < x)
    (described : Describes (.ofMantissaAndAccuracy m acc) (x / 2 ^ e))
    (coarse : e ≤ ulpExponent spec x) :
    spec.targetExponent (totalExponent m e) = ulpExponent spec x := by
  rcases Nat.eq_zero_or_pos m with rfl | nonzero
  · have high := described.bounds.2
    rw [mantissa_ofMantissaAndAccuracy, div_lt_iff₀ (by positivity)] at high
    have log : Int.log 2 x < e := by
      rw [← Int.lt_zpow_iff_log_lt one_lt_two positive]
      simpa using high
    have bits : 0 < spec.mantissaBits := mantissaBits_pos spec
    unfold ulpExponent at coarse ⊢
    rw [abs_of_pos positive] at coarse ⊢
    simp only [Format.targetExponent, totalExponent, Nat.log2_zero]
    omega
  · exact targetExponent_of_pos spec nonzero described

/-- The rounded mantissa has room, but for the one that is rounded up to a power of two. -/
theorem nearestInt_bounds {x : ℚ} (positive : 0 < x) :
    nearestInt (x / 2 ^ ulpExponent spec x) ≤ 2 ^ spec.mantissaBits ∧
      (2 ^ (spec.mantissaBits - 1) ≤ nearestInt (x / 2 ^ ulpExponent spec x) ∨
        ulpExponent spec x = spec.minExponent) := by
  have scale : (0 : ℚ) < 2 ^ ulpExponent spec x := by positivity
  have power (n : ℕ) : nearestInt ((2 : ℚ) ^ n) = 2 ^ n := by
    have cast := nearestInt_intCast (2 ^ n)
    push_cast at cast
    exact cast
  constructor
  · rw [← power]
    apply nearestInt_mono
    rw [div_le_iff₀ scale, ← zpow_natCast, ← zpow_add₀ two_ne_zero, add_comm]
    exact (lt_zpow_ulpExponent spec positive).le
  · by_cases least : ulpExponent spec x = spec.minExponent
    · exact .inr least
    · left
      have bits : 0 < spec.mantissaBits := mantissaBits_pos spec
      rw [← power]
      apply nearestInt_mono
      rw [le_div_iff₀ scale, ← zpow_natCast, ← zpow_add₀ two_ne_zero]
      have exponent : ((spec.mantissaBits - 1 : ℕ) : ℤ) + ulpExponent spec x =
          ulpExponent spec x + spec.mantissaBits - 1 := by omega
      rw [exponent]
      exact zpow_le_of_ulpExponent spec positive least

theorem shift_fitting {m : ℕ} {e : ℤ} (bits : m < 2 ^ spec.mantissaBits)
    (least : spec.minExponent ≤ e) :
    shiftToTargetExponent spec m e .exact = (⟨m, false, false⟩, e) := by
  have log : m.log2 < spec.mantissaBits := by
    by_cases zero : m = 0
    · simpa [zero] using mantissaBits_pos spec
    · exact (Nat.log2_lt zero).mpr bits
  have stays : (spec.targetExponent (totalExponent m e) - e).toNat = 0 := by
    unfold Format.targetExponent totalExponent
    omega
  simp [shiftToTargetExponent, shiftToExponent, stays, HShiftRight.hShiftRight, Nat.repeat,
    ExtendedMantissa.ofMantissaAndAccuracy]

theorem shift_carried {e : ℤ} (least : spec.minExponent ≤ e) :
    shiftToTargetExponent spec (2 ^ spec.mantissaBits) e .exact =
      (⟨2 ^ (spec.mantissaBits - 1), false, false⟩, e + 1) := by
  have once : (spec.targetExponent (totalExponent (2 ^ spec.mantissaBits) e) - e).toNat = 1 := by
    simp only [Format.targetExponent, totalExponent, Nat.log2_two_pow]
    omega
  have half : 2 ^ spec.mantissaBits = 2 * 2 ^ (spec.mantissaBits - 1) := by
    rw [← pow_succ', Nat.sub_add_cancel (mantissaBits_pos spec)]
  unfold shiftToTargetExponent shiftToExponent
  simp only [once]
  change (ExtendedMantissa.mk (2 ^ spec.mantissaBits / 2) (2 ^ spec.mantissaBits % 2 != 0) false,
    e + 1) = _
  rw [half, Nat.mul_div_cancel_left _ two_pos, Nat.mul_mod_right]
  rfl

/-- A rounded mantissa, shifted once more where rounding carried. -/
def fitted (spec : Format) (s : Sign) (r : ℕ) (u : ℤ) : UnpackedFloat :=
  match shiftToTargetExponent spec r u .exact with
  | (shifted, v) =>
    if h : shifted.mantissa = 0 then .zero s
    else .finite s shifted.mantissa v (Nat.pos_of_ne_zero h)

theorem stands_fitted (s : Sign) {r : ℕ} {u : ℤ} (least : spec.minExponent ≤ u)
    (room : r ≤ 2 ^ spec.mantissaBits)
    (full : 2 ^ (spec.mantissaBits - 1) ≤ r ∨ u = spec.minExponent) :
    Stands spec (fitted spec s r u) (signed s (r * 2 ^ u)) := by
  unfold fitted
  rcases room.lt_or_eq with fits | carried
  · rw [shift_fitting spec fits least]
    dsimp only
    split
    · rename_i zero
      refine ⟨?_, trivial⟩
      cases s <;> simp [value?, signed, zero]
    · exact ⟨by simp [value?], fits, least, full⟩
  · rw [carried, shift_carried spec least]
    dsimp only
    have positive : 2 ^ (spec.mantissaBits - 1) ≠ 0 := by positivity
    rw [dif_neg positive]
    have bits : 0 < spec.mantissaBits := mantissaBits_pos spec
    refine ⟨?_, Nat.pow_lt_pow_right one_lt_two (by omega), by omega, .inl le_rfl⟩
    have same : ((2 ^ (spec.mantissaBits - 1) : ℕ) : ℚ) * 2 ^ (u + 1) =
        ((2 ^ spec.mantissaBits : ℕ) : ℚ) * 2 ^ u := by
      push_cast
      rw [← zpow_natCast, ← zpow_natCast, ← zpow_add₀ two_ne_zero, ← zpow_add₀ two_ne_zero]
      congr 1
      omega
    simp only [value?, same]

/-- Rounding gives the nearest number of the format, in its canonical form. -/
theorem stands_roundWithAccuracy (s : Sign) {m : ℕ} {e : ℤ} {acc : Accuracy} {x : ℚ}
    (positive : 0 < x) (described : Describes (.ofMantissaAndAccuracy m acc) (x / 2 ^ e))
    (coarse : e ≤ ulpExponent spec x) :
    Stands spec (roundWithAccuracy spec s m e acc) (signed s (nearest spec x)) := by
  have target := targetExponent_eq spec positive described coarse
  have shifted := described.shiftRight (ulpExponent spec x - e).toNat
  have scale : x / 2 ^ e / 2 ^ (ulpExponent spec x - e).toNat = x / 2 ^ ulpExponent spec x := by
    rw [div_div, ← zpow_natCast, ← zpow_add₀ two_ne_zero]
    congr 2
    omega
  rw [scale] at shifted
  have first : shiftToTargetExponent spec m e acc =
      (ExtendedMantissa.ofMantissaAndAccuracy m acc >>> (ulpExponent spec x - e).toNat,
        ulpExponent spec x) := by
    simp only [shiftToTargetExponent, shiftToExponent, target]
    congr 1
    omega
  obtain ⟨room, full⟩ := nearestInt_bounds spec positive
  unfold roundWithAccuracy nearest
  rw [first]
  rw [shifted.nearestInt_eq] at room full ⊢
  exact stands_fitted spec s (le_max_right _ _) (by exact_mod_cast room) (by exact_mod_cast full)

theorem decreaseExponent_value (m : ℕ) (e t : ℤ) :
    ((decreaseExponent m e t).1 : ℚ) * 2 ^ (decreaseExponent m e t).2 = m * 2 ^ e := by
  simp only [decreaseExponent, Nat.shiftLeft_eq, Nat.cast_mul, Nat.cast_pow, Nat.cast_ofNat]
  rw [← zpow_natCast, mul_assoc, ← zpow_add₀ two_ne_zero]
  congr 2
  omega

theorem describes_self (m : ℕ) (e : ℤ) :
    Describes (.ofMantissaAndAccuracy m .exact) (m * 2 ^ e / 2 ^ e) := by
  rw [mul_div_cancel_right₀ _ (by positivity)]
  exact .exact m

theorem stands_round (s : Sign) {m : ℕ} (e : ℤ) (positive : 0 < m) :
    Stands spec (UnpackedFloat.round spec s m e) (signed s (nearest spec (m * 2 ^ e))) := by
  have target : spec.targetExponent (totalExponent m e) = ulpExponent spec (m * 2 ^ e) :=
    targetExponent_of_pos spec positive (describes_self m e)
  have same := decreaseExponent_value m e (ulpExponent spec (m * 2 ^ e))
  have fine : (decreaseExponent m e (ulpExponent spec (m * 2 ^ e))).2 ≤
      ulpExponent spec (m * 2 ^ e) := by
    simp only [decreaseExponent]
    omega
  have described := describes_self (decreaseExponent m e (ulpExponent spec (m * 2 ^ e))).1
    (decreaseExponent m e (ulpExponent spec (m * 2 ^ e))).2
  rw [same] at described
  unfold UnpackedFloat.round
  rw [target]
  exact stands_roundWithAccuracy spec s (by positivity) described fine

theorem stands_normalize (n e : ℤ) (zeroSign : Sign) :
    Stands spec (UnpackedFloat.normalize spec n e zeroSign) (nearest spec (n * 2 ^ e)) := by
  unfold UnpackedFloat.normalize
  rcases lt_trichotomy n 0 with negative | zero | positive
  · rw [Int.compare_eq_lt.mpr negative]
    obtain ⟨value, canonical⟩ :=
      stands_round spec .negative e (m := (-n).toNat) (by omega)
    refine ⟨?_, canonical⟩
    have cast : (((-n).toNat : ℕ) : ℚ) = -n := by
      exact_mod_cast Int.toNat_of_nonneg (by omega : 0 ≤ -n)
    rw [value, signed, cast, neg_mul, nearest_neg, neg_neg]
  · rw [zero]
    exact ⟨by simp [value?], trivial⟩
  · rw [Int.compare_eq_gt.mpr positive]
    obtain ⟨value, canonical⟩ := stands_round spec .positive e (m := n.toNat) (by omega)
    refine ⟨?_, canonical⟩
    have cast : ((n.toNat : ℕ) : ℚ) = n := by
      exact_mod_cast Int.toNat_of_nonneg positive.le
    rw [value, signed, cast]

end rounding

end LaserCutter.Number
