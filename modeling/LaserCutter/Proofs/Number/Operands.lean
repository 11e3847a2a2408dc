import LaserCutter.Proofs.Number.Extremes
import LaserCutter.Proofs.Number.Hypotenuse

/-!
# What goes into a finite result

An infinity or NaN among the operands does not get lost: a sum, a difference or a product is finite
only if both operands are, a quotient or a root only if what is divided or rooted is. So a finite
length is the length of a finite vector, and not negative.
-/

namespace LaserCutter.Number

open Float.Model (Format UnpackedFloat)
open Float.Model.UnpackedFloat

theorem isFinite_iff_value {x : Float} : isFinite x ↔ value? (exact x) ≠ none := by
  unfold isFinite
  cases exact x <;> simp [value?]

/-- The result of an operation that has lost its value. -/
def Lost (u : UnpackedFloat) : Prop := u = .notANumber ∨ ∃ s, u = .infinity s

theorem Lost.not_isFinite_pack {u : UnpackedFloat} (lost : Lost u) :
    ¬ isFinite (.ofModel (.pack u)) := by
  obtain rfl | ⟨s, rfl⟩ := lost
  · decide
  · cases s <;> decide

section operations

variable {spec : Format} {u v : UnpackedFloat}

theorem lost_add (lost : value? u = none ∨ value? v = none) :
    Lost (UnpackedFloat.add spec u v) := by
  rcases u with s | _ | s | ⟨s, m, e, _⟩ <;> rcases v with t | _ | t | ⟨t, n, k, _⟩ <;>
    simp [value?] at lost <;> simp only [UnpackedFloat.add]
  all_goals try split
  all_goals simp [Lost]

theorem lost_sub (lost : value? u = none ∨ value? v = none) :
    Lost (UnpackedFloat.sub spec u v) := by
  rcases u with s | _ | s | ⟨s, m, e, _⟩ <;> rcases v with t | _ | t | ⟨t, n, k, _⟩ <;>
    simp [value?] at lost <;> simp only [UnpackedFloat.sub]
  all_goals try split
  all_goals simp [Lost]

theorem lost_mul (lost : value? u = none ∨ value? v = none) :
    Lost (UnpackedFloat.mul spec u v) := by
  rcases u with s | _ | s | ⟨s, m, e, _⟩ <;> rcases v with t | _ | t | ⟨t, n, k, _⟩ <;>
    simp [value?] at lost <;> simp [UnpackedFloat.mul, Lost]

theorem lost_div (lost : value? u = none) : Lost (UnpackedFloat.div spec u v) := by
  rcases u with s | _ | s | ⟨s, m, e, _⟩ <;> rcases v with t | _ | t | ⟨t, n, k, _⟩ <;>
    simp [value?] at lost <;> simp [UnpackedFloat.div, Lost]

theorem lost_sqrt (lost : value? u = none) : Lost (UnpackedFloat.sqrt spec u) := by
  rcases u with ⟨⟨⟩⟩ | _ | s | ⟨s, m, e, _⟩ <;> simp [value?] at lost <;>
    simp [UnpackedFloat.sqrt, Lost]

theorem lost_abs (lost : value? u = none) : Lost (UnpackedFloat.abs u) := by
  rcases u with s | _ | s | ⟨s, m, e, _⟩ <;> simp [value?] at lost <;>
    simp [UnpackedFloat.abs, Lost]

end operations

section finite

variable {x y c : Float}

/-- An operand whose loss would be seen in the result. -/
theorem isFinite_of_lost {u : UnpackedFloat} (lost : value? (exact x) = none → Lost u)
    (finite : isFinite (.ofModel (.pack u))) : isFinite x := by
  rw [isFinite_iff_value]
  exact fun noValue => (lost noValue).not_isFinite_pack finite

theorem isFinite_of_add (finite : isFinite (x + y)) : isFinite x ∧ isFinite y :=
  ⟨isFinite_of_lost (fun noValue => lost_add (.inl noValue)) finite,
    isFinite_of_lost (fun noValue => lost_add (.inr noValue)) finite⟩

theorem isFinite_of_sub (finite : isFinite (x - y)) : isFinite x ∧ isFinite y :=
  ⟨isFinite_of_lost (fun noValue => lost_sub (.inl noValue)) finite,
    isFinite_of_lost (fun noValue => lost_sub (.inr noValue)) finite⟩

theorem isFinite_of_mul (finite : isFinite (x * y)) : isFinite x ∧ isFinite y :=
  ⟨isFinite_of_lost (fun noValue => lost_mul (.inl noValue)) finite,
    isFinite_of_lost (fun noValue => lost_mul (.inr noValue)) finite⟩

theorem isFinite_of_div (finite : isFinite (x / y)) : isFinite x := isFinite_of_lost lost_div finite

theorem isFinite_of_sqrt (finite : isFinite x.sqrt) : isFinite x :=
  isFinite_of_lost lost_sqrt finite

theorem isFinite_of_abs (finite : isFinite x.abs) : isFinite x := isFinite_of_lost lost_abs finite

/-- A product that is finite, of numbers that are not negative. -/
theorem mul_nonneg_of_isFinite (first : 0 ≤ x) (second : 0 ≤ y) (finite : isFinite (x * y)) :
    0 ≤ x * y := by
  obtain ⟨finiteX, finiteY⟩ := isFinite_of_mul finite
  obtain ⟨a, standsX, _⟩ := exists_stands finiteX
  obtain ⟨b, standsY, _⟩ := exists_stands finiteY
  have low := (float_le_iff_of_stands stands_zero standsX).mp first
  have low' := (float_le_iff_of_stands stands_zero standsY).mp second
  exact pack_nonneg (standsX.mul standsY) (nearest_nonneg _ (mul_nonneg low low'))

/-- A quotient that is finite has the sign of what is divided. -/
theorem div_nonneg_of_isFinite (nonneg : 0 ≤ x) (positive : 0 < c) (finite : isFinite (x / c)) :
    0 ≤ x / c := by
  rcases nonneg_cases (float_le_of_lt positive) with ⟨factor, scale, _⟩ | infinite
  · exact div_nonneg_of_stands nonneg scale ((float_lt_iff_of_stands stands_zero scale).mp positive)
  · obtain ⟨a, stands, _⟩ := exists_stands (isFinite_of_div finite)
    change 0 ≤ Float.ofModel (.pack (UnpackedFloat.div .binary64 (exact x) (exact c)))
    rw [infinite]
    obtain ⟨s, zero, _⟩ | ⟨s, m, e, _, known, _⟩ := stands.zero_or_finite
    · rw [zero]
      exact pack_nonneg (.zero _) le_rfl
    · rw [known]
      exact pack_nonneg (.zero _) le_rfl

theorem isFinite_of_correctedRoot (finite : isFinite (correctedRoot x y)) :
    isFinite x ∧ isFinite y := by
  obtain ⟨root, _⟩ := isFinite_of_sub finite
  obtain ⟨first, second⟩ := isFinite_of_add (isFinite_of_sqrt root)
  exact ⟨(isFinite_of_mul first).1, (isFinite_of_mul second).1⟩

theorem isFinite_of_hypotenuseOf (finite : isFinite (hypotenuseOf x y)) :
    isFinite x ∧ isFinite y := by
  have scaled {c d : Float} (finite : isFinite (correctedRoot (x * c) (y * c) * d)) :
      isFinite x ∧ isFinite y :=
    have ⟨first, second⟩ := isFinite_of_correctedRoot (isFinite_of_mul finite).1
    ⟨(isFinite_of_mul first).1, (isFinite_of_mul second).1⟩
  unfold hypotenuseOf at finite
  dsimp only at finite
  split at finite
  · split at finite
    · exact isFinite_of_add finite
    · exact scaled finite
  · split at finite
    · split at finite
      · exact isFinite_of_add finite
      · exact scaled finite
    · split at finite
      · exact isFinite_of_add finite
      · exact isFinite_of_correctedRoot finite

theorem number_of_isFinite (finite : isFinite x) : x.isNaN = false :=
  have ⟨_, stands, _⟩ := exists_stands finite
  number_of_place (place?_of_stands stands)

/-- A finite length is not negative. -/
theorem hypotenuse_nonneg_of_isFinite (finite : isFinite (hypotenuse x y)) :
    0 ≤ hypotenuse x y := by
  have sides : isFinite x.abs ∧ isFinite y.abs := by
    unfold hypotenuse at finite
    dsimp only at finite
    split at finite
    · exact absurd finite (by decide)
    · split at finite
      · exact (isFinite_of_hypotenuseOf finite).symm
      · exact isFinite_of_hypotenuseOf finite
  exact hypotenuse_nonneg (number_of_isFinite (isFinite_of_abs sides.1))
    (number_of_isFinite (isFinite_of_abs sides.2))

end finite

section nan

variable {x y : Float}

theorem exact_of_isNaN (isNaN : x.isNaN = true) : exact x = .notANumber := by
  change (exact x).isNaN = true at isNaN
  cases known : exact x with
  | notANumber => rfl
  | _ => simp [known, Float.Model.UnpackedFloat.isNaN] at isNaN

theorem isNaN_pack {u : UnpackedFloat} (lost : u = .notANumber) :
    (Float.ofModel (.pack u)).isNaN = true := by
  rw [lost]
  decide

theorem isNaN_sub_left (isNaN : x.isNaN = true) : (x - y).isNaN = true := by
  refine isNaN_pack (u := UnpackedFloat.sub .binary64 (exact x) (exact y)) ?_
  rw [exact_of_isNaN isNaN]
  cases exact y <;> rfl

theorem isNaN_div_left (isNaN : x.isNaN = true) : (x / y).isNaN = true := by
  refine isNaN_pack (u := UnpackedFloat.div .binary64 (exact x) (exact y)) ?_
  rw [exact_of_isNaN isNaN]
  cases exact y <;> rfl

end nan

end LaserCutter.Number
