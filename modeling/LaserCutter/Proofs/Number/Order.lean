import LaserCutter.Proofs.Number.Arithmetic

/-!
# Order of floats

Canonical floats compare like the numbers and infinities that they stand for; NaN compares with
nothing.
-/

namespace LaserCutter.Number

open Float.Model (Format UnpackedFloat)
open Float.Model.UnpackedFloat

/-- Where an unpacked float stands among the numbers and the two infinities; NaN stands nowhere. -/
def place? : UnpackedFloat → Option (WithBot (WithTop ℚ))
  | .notANumber => none
  | .infinity .positive => some ⊤
  | .infinity .negative => some ⊥
  | .zero _ => some (((0 : ℚ) : WithTop ℚ) : WithBot (WithTop ℚ))
  | .finite s m e _ => some (((signed s (m * 2 ^ e) : ℚ) : WithTop ℚ) : WithBot (WithTop ℚ))

variable {spec : Format}

theorem place?_of_stands {x : UnpackedFloat} {a : ℚ} (stands : Stands spec x a) :
    place? x = some ((a : WithTop ℚ) : WithBot (WithTop ℚ)) := by
  obtain ⟨s, rfl, rfl⟩ | ⟨s, m, e, positive, rfl, rfl, _⟩ := stands.zero_or_finite <;> rfl

/-- A canonical number with a smaller exponent is smaller. -/
theorem lt_of_exponent_lt {m m' : ℕ} {e e' : ℤ} (room : m < 2 ^ spec.mantissaBits)
    (least : spec.minExponent ≤ e)
    (full' : 2 ^ (spec.mantissaBits - 1) ≤ m' ∨ e' = spec.minExponent) (less : e < e') :
    (m * 2 ^ e : ℚ) < m' * 2 ^ e' := by
  have full := full'.resolve_right (by omega)
  have bits := mantissaBits_pos spec
  calc
    (m * 2 ^ e : ℚ) < (2 ^ spec.mantissaBits : ℕ) * 2 ^ e := by
      gcongr
    _ = (2 ^ (spec.mantissaBits - 1) : ℕ) * 2 ^ (e + 1) := by
      push_cast
      rw [zpow_add₀ two_ne_zero, ← Nat.sub_add_cancel bits, pow_succ]
      simp only [Nat.add_sub_cancel]
      ring
    _ ≤ m' * 2 ^ e' := by
      gcongr
      · exact one_le_two
      · omega

theorem compare_mantissas {m m' : ℕ} {e e' : ℤ}
    (room : m < 2 ^ spec.mantissaBits) (least : spec.minExponent ≤ e)
    (full : 2 ^ (spec.mantissaBits - 1) ≤ m ∨ e = spec.minExponent)
    (room' : m' < 2 ^ spec.mantissaBits) (least' : spec.minExponent ≤ e')
    (full' : 2 ^ (spec.mantissaBits - 1) ≤ m' ∨ e' = spec.minExponent) :
    (compare e e').then (compare m m') = cmp (m * 2 ^ e : ℚ) (m' * 2 ^ e') := by
  rcases lt_trichotomy e e' with less | rfl | more
  · rw [(cmp_eq_lt_iff _ _).mpr (lt_of_exponent_lt room least full' less),
      Int.compare_eq_lt.mpr less]
    rfl
  · have scale : (0 : ℚ) < 2 ^ e := by positivity
    rw [Int.compare_eq_eq.mpr rfl]
    change compare m m' = _
    rcases lt_trichotomy m m' with less | rfl | more
    · have order : (m * 2 ^ e : ℚ) < m' * 2 ^ e := by gcongr
      rw [Nat.compare_eq_lt.mpr less, (cmp_eq_lt_iff _ _).mpr order]
    · rw [Nat.compare_eq_eq.mpr rfl, cmp_self_eq_eq]
    · have order : (m' * 2 ^ e : ℚ) < m * 2 ^ e := by gcongr
      rw [Nat.compare_eq_gt.mpr more, (cmp_eq_gt_iff _ _).mpr order]
  · rw [(cmp_eq_gt_iff _ _).mpr (lt_of_exponent_lt room' least' full more),
      Int.compare_eq_gt.mpr more]
    rfl

theorem cmp_place (a b : ℚ) :
    cmp ((a : WithTop ℚ) : WithBot (WithTop ℚ)) ((b : WithTop ℚ) : WithBot (WithTop ℚ)) = cmp a b :=
  (WithBot.coe_strictMono.comp WithTop.coe_strictMono).cmp_map_eq a b

theorem compare_eq {x y : UnpackedFloat} (canonical : Canonical spec x)
    (canonical' : Canonical spec y) :
    UnpackedFloat.compare x y = (place? x).bind fun p => (place? y).map fun q => cmp p q := by
  have positive_pos {m : ℕ} (e : ℤ) (positive : 0 < m) : (0 : ℚ) < m * 2 ^ e := by positivity
  rcases x with ⟨⟨⟩⟩ | _ | _ | ⟨⟨⟩, m, e, positive⟩ <;>
    rcases y with ⟨⟨⟩⟩ | _ | _ | ⟨⟨⟩, m', e', positive'⟩ <;>
    try rfl
  all_goals
    simp only [place?, Option.bind_some, Option.map_some, cmp_place, UnpackedFloat.compare, signed]
  · rw [(cmp_eq_gt_iff _ _).mpr (neg_lt_zero.mpr (positive_pos e' positive'))]
  · rw [(cmp_eq_lt_iff _ _).mpr (positive_pos e' positive')]
  · rw [(cmp_eq_lt_iff _ _).mpr (neg_lt_zero.mpr (positive_pos e positive))]
  · obtain ⟨room, least, full⟩ := canonical
    obtain ⟨room', least', full'⟩ := canonical'
    rw [compare_mantissas room least full room' least' full', cmp_swap]
    have negated : StrictAnti (Neg.neg : ℚ → ℚ) := fun _ _ => neg_lt_neg
    rw [negated.cmp_map_eq]
  · rw [(cmp_eq_lt_iff _ _).mpr]
    linarith [positive_pos e positive, positive_pos e' positive']
  · rw [(cmp_eq_gt_iff _ _).mpr (positive_pos e positive)]
  · rw [(cmp_eq_gt_iff _ _).mpr]
    linarith [positive_pos e positive, positive_pos e' positive']
  · obtain ⟨room, least, full⟩ := canonical
    obtain ⟨room', least', full'⟩ := canonical'
    rw [compare_mantissas room least full room' least' full']

end LaserCutter.Number
