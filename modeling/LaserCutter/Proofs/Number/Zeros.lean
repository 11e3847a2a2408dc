import LaserCutter.Proofs.Number.Finite

/-!
# Zeros of either sign

Adding or subtracting a zero changes a number at most where it is a zero itself, and then only in its
sign. How far things are apart does not depend on that sign.
-/

namespace LaserCutter.Number

open Float.Model (Format UnpackedFloat)
open Float.Model.UnpackedFloat

/-- Adding a zero changes at most the sign of a zero. -/
theorem add_zero_cases (x : Float) {z : Float} {s : Sign} (zero : exact z = .zero s) :
    x + z = x ∨ ∃ t t', exact x = .zero t ∧ exact (x + z) = .zero t' := by
  have sum : exact (x + z) =
      unpack .binary64 (pack .binary64 (add .binary64 (exact x) (.zero s))) := by
    rw [← zero]
    rfl
  have repacked := repack_exact x
  cases known : exact x with
  | zero t =>
    rw [sum, known]
    cases s <;> cases t <;> exact .inr ⟨_, _, rfl, unpack_packedZero .binary64 _⟩
  | _ =>
    rw [known] at repacked sum
    exact .inl (eq_of_exact_eq (sum.trans (repacked.trans known.symm)))

/-- Subtracting a zero changes at most the sign of a zero. -/
theorem sub_zero_cases (x : Float) {z : Float} {s : Sign} (zero : exact z = .zero s) :
    x - z = x ∨ ∃ t t', exact x = .zero t ∧ exact (x - z) = .zero t' := by
  have difference : exact (x - z) =
      unpack .binary64 (pack .binary64 (sub .binary64 (exact x) (.zero s))) := by
    rw [← zero]
    rfl
  have repacked := repack_exact x
  cases known : exact x with
  | zero t =>
    rw [difference, known]
    cases s <;> cases t <;> exact .inr ⟨_, _, rfl, unpack_packedZero .binary64 _⟩
  | _ =>
    rw [known] at repacked difference
    exact .inl (eq_of_exact_eq (difference.trans (repacked.trans known.symm)))

/-- How far something is from a zero does not depend on the sign of the zero. -/
theorem abs_zero_sub {u v : Float} {s t : Sign} (zero : exact u = .zero s)
    (zero' : exact v = .zero t) (x : Float) : (u - x).abs = (v - x).abs := by
  change Float.abs (.ofModel (.pack (sub .binary64 (exact u) (exact x)))) =
    Float.abs (.ofModel (.pack (sub .binary64 (exact v) (exact x))))
  rw [zero, zero']
  cases exact x with
  | zero t' => cases s <;> cases t <;> cases t' <;> decide
  | _ => rfl

theorem beq_of_zeros {u v : Float} {s t : Sign} (zero : exact u = .zero s)
    (zero' : exact v = .zero t) : u == v :=
  beq_iff_place.mpr ⟨_, congrArg place? zero, congrArg place? zero'⟩

/-- The greater of a number and zero is positive or a zero. -/
theorem greater_zero_cases (x : Float) : 0 < greater x 0 ∨ ∃ s, exact (greater x 0) = .zero s := by
  have atZero : place? (exact 0) = some ((0 : ℚ) : WithTop ℚ) := rfl
  unfold greater
  split
  · exact .inr ⟨.positive, rfl⟩
  · rename_i least
    obtain ⟨notBelow, number⟩ : ¬ x < 0 ∧ ¬ x.isNaN = true := by simpa using least
    change ¬ (exact x).isNaN = true at number
    rw [lt_iff_place, atZero] at notBelow
    rw [lt_iff_place, atZero]
    have value {m : ℕ} (e : ℤ) (positive : 0 < m) : (0 : ℚ) < m * 2 ^ e := by positivity
    generalize exact x = u at number notBelow ⊢
    rcases u with ⟨⟨⟩⟩ | _ | s | ⟨⟨⟩, m, e, positive⟩
    · exact absurd ⟨⊥, rfl, _, rfl, WithBot.bot_lt_coe _⟩ notBelow
    · exact .inl ⟨_, rfl, ⊤, rfl, WithBot.coe_lt_coe.mpr (WithTop.coe_lt_top _)⟩
    · exact absurd rfl number
    · exact .inr ⟨s, rfl⟩
    · refine absurd ⟨_, rfl, _, rfl, WithBot.coe_lt_coe.mpr (WithTop.coe_lt_coe.mpr ?_)⟩ notBelow
      exact neg_lt_zero.mpr (value e positive)
    · exact .inl ⟨_, rfl, _, rfl, WithBot.coe_lt_coe.mpr (WithTop.coe_lt_coe.mpr (value e positive))⟩
theorem greater_zero_eq (x : Float) :
    if 0 < x then greater x 0 = x else ¬ 0 < greater x 0 := by
  unfold greater
  split
  · rename_i positive
    rw [if_neg]
    obtain ⟨p, atZero, q, atX, less⟩ := lt_iff_place.mp positive
    have notBelow : ¬ x < 0 := by
      rw [lt_iff_place]
      rintro ⟨q', atX', p', atZero', more⟩
      cases Option.mem_unique atX atX'
      cases Option.mem_unique atZero atZero'
      exact lt_asymm less more
    have number : x.isNaN = false := by
      change (exact x).isNaN = false
      cases known : exact x <;> simp_all [place?, Float.Model.UnpackedFloat.isNaN]
    rw [decide_eq_false notBelow, number]
    decide
  · split
    · decide
    · assumption

end LaserCutter.Number
