import LaserCutter.Proofs.Number.Operands

/-!
# Spans between numbers

Where a number is among others in a row, what part of the span between two of them lies before it,
and what lies in the middle. Roundings neither lead out of the span nor change the order.
-/

namespace LaserCutter.Number

open Float.Model (Format UnpackedFloat)
open Float.Model.UnpackedFloat

section row

variable (test : Float → Prop) [DecidablePred test]

/-- The numbers in front pass the test, and the one behind them does not. -/
theorem takeWhile_split (row : List Float) :
    (∀ i < (row.takeWhile (test ·)).length, test (row.getD i 0)) ∧
      ((row.takeWhile (test ·)).length < row.length →
        ¬ test (row.getD (row.takeWhile (test ·)).length 0)) := by
  induction row with
  | nil => simp
  | cons x rest ih =>
    by_cases passes : test x
    · rw [List.takeWhile_cons_of_pos (by simpa using passes), List.length_cons, List.length_cons]
      refine ⟨fun i within => ?_, fun more => ih.2 (Nat.lt_of_succ_lt_succ more)⟩
      cases i with
      | zero => exact passes
      | succ i => exact ih.1 i (Nat.lt_of_succ_lt_succ within)
    · rw [List.takeWhile_cons_of_neg (by simpa using passes)]
      exact ⟨nofun, fun _ => passes⟩

end row

/-- A part of a span with its roundings. -/
def roundedPart (start stop now : ℚ) : ℚ :=
  nearest .binary64 (nearest .binary64 (now - start) / nearest .binary64 (stop - start))

section part

variable {start stop now later : ℚ}

theorem roundedPart_bounds (lasts : 0 < nearest .binary64 (stop - start)) (low : start ≤ now)
    (high : now ≤ stop) : 0 ≤ roundedPart start stop now ∧ roundedPart start stop now ≤ 1 := by
  constructor
  · exact nearest_nonneg _ (div_nonneg (nearest_nonneg _ (sub_nonneg.mpr low)) lasts.le)
  · refine nearest_one ▸ nearest_mono _ ((div_le_one lasts).mpr (nearest_mono _ ?_))
    linarith

theorem roundedPart_mono (lasts : 0 < nearest .binary64 (stop - start)) (le : now ≤ later) :
    roundedPart start stop now ≤ roundedPart start stop later :=
  nearest_mono _ (div_le_div_of_nonneg_right (nearest_mono _ (by linarith)) lasts.le)

theorem roundedPart_start : roundedPart start stop start = 0 := by
  simp [roundedPart]

theorem roundedPart_stop (lasts : 0 < nearest .binary64 (stop - start)) :
    roundedPart start stop stop = 1 := by
  rw [roundedPart, div_self lasts.ne', nearest_one]

end part

variable {x y z : Float} {a b n : ℚ}

/-- The difference of two numbers in order. -/
theorem stands_span (first : Stands .binary64 (exact x) a) (second : Stands .binary64 (exact y) b)
    (nonneg : 0 ≤ a) (le : a ≤ b) :
    Stands .binary64 (exact (y - x)) (nearest .binary64 (b - a)) := by
  refine (second.sub first).repack (by decide) (abs_nearest_le nearest_largest ?_)
  rw [abs_of_nonneg (sub_nonneg.mpr le)]
  exact (sub_le_self b nonneg).trans ((le_abs_self b).trans (abs_le_largest second))

theorem stands_part (start : Stands .binary64 (exact x) a) (stop : Stands .binary64 (exact y) b)
    (between : Stands .binary64 (exact z) n) (nonneg : 0 ≤ a) (low : a ≤ n) (high : n ≤ b)
    (lasts : 0 < nearest .binary64 (b - a)) :
    Stands .binary64 (exact ((z - x) / (y - x))) (roundedPart a b n) := by
  have span := stands_span start stop nonneg (low.trans high)
  have gone := stands_span start between nonneg low
  obtain ⟨least, most⟩ := roundedPart_bounds lasts low high
  refine (gone.div span lasts.ne').repack (by decide) ?_
  change |roundedPart a b n| ≤ largest .binary64
  rw [abs_of_nonneg least]
  exact most.trans ((le_abs_self 1).trans (abs_le_largest stands_one))

/-- The span to or from an infinity. -/
theorem sub_infinity (spec : Format) {u v : UnpackedFloat} {p q : WithBot (WithTop ℚ)}
    (atU : p ∈ place? u) (atV : q ∈ place? v) (less : p < q)
    (infinite : value? u = none ∨ value? v = none) :
    ∃ s, UnpackedFloat.sub spec v u = .infinity s := by
  rcases u with ⟨⟨⟩⟩ | _ | s | _ <;> rcases v with ⟨⟨⟩⟩ | _ | t | _ <;>
    simp_all [place?, value?, UnpackedFloat.sub]
  · exact ⟨.positive, rfl⟩
  · exact ⟨.negative, rfl⟩

/-- The span between two numbers is a number, even if one of them is infinite. -/
theorem number_sub_of_lt (less : x < y) : (y - x).isNaN = false := by
  by_cases finite : isFinite x ∧ isFinite y
  · obtain ⟨a, standsX, _⟩ := exists_stands finite.1
    obtain ⟨b, standsY, _⟩ := exists_stands finite.2
    have order := (float_lt_iff_of_stands standsX standsY).mp less
    exact number_of_place
      (place?_pack (standsY.sub standsX) (nearest_nonneg _ (sub_nonneg.mpr order.le)))
  · obtain ⟨p, atX, q, atY, less⟩ := lt_iff_place.mp less
    rw [isFinite_iff_value, isFinite_iff_value, not_and_or, not_not, not_not] at finite
    obtain ⟨s, known⟩ := sub_infinity .binary64 atX atY less finite
    change (unpack .binary64
      (pack .binary64 (UnpackedFloat.sub .binary64 (exact y) (exact x)))).isNaN = false
    rw [known, unpack_pack_infinity]
    rfl

theorem exact_sub_zero (x : Float) : exact (x - 0) = exact x := by
  have same : UnpackedFloat.sub .binary64 (exact x) (exact 0) = exact x := by
    cases exact x with
    | zero s => cases s <;> rfl
    | _ => rfl
  change unpack .binary64 (pack .binary64 (UnpackedFloat.sub .binary64 (exact x) (exact 0))) = _
  rw [same]
  exact repack_exact x

/-- The middle of two numbers between zero and one is not outside of them. -/
theorem middle_between (nonneg : 0 ≤ x) (le : x ≤ y) (small : y ≤ 1) :
    x ≤ (x + y) / 2 ∧ (x + y) / 2 ≤ y := by
  obtain ⟨a, standsX, low, _⟩ :=
    stands_between stands_zero stands_one nonneg (float_le_trans le small)
  obtain ⟨b, standsY, _, high⟩ :=
    stands_between stands_zero stands_one (float_le_trans nonneg le) small
  have order := (float_le_iff_of_stands standsX standsY).mp le
  have top := abs_le_largest stands_two
  rw [abs_two] at top
  have sum := stands_add standsX standsY (by rw [abs_of_nonneg (by linarith)]; linarith)
  -- The sum is rounded to something between the doubles of both numbers.
  have above : 2 * a ≤ nearest .binary64 (a + b) :=
    nearest_two_mul standsX ▸ nearest_mono _ (by linarith)
  have below : nearest .binary64 (a + b) ≤ 2 * b :=
    nearest_two_mul standsY ▸ nearest_mono _ (by linarith)
  have middle := stands_div sum stands_two two_ne_zero
    (by rw [abs_of_nonneg (by linarith)]; linarith)
  rw [float_le_iff_of_stands standsX middle, float_le_iff_of_stands middle standsY]
  constructor
  · calc
      a = nearest .binary64 a := standsX.nearest_eq.symm
      _ ≤ nearest .binary64 (nearest .binary64 (a + b) / 2) := nearest_mono _ (by linarith)
  · calc
      nearest .binary64 (nearest .binary64 (a + b) / 2) ≤ nearest .binary64 b :=
        nearest_mono _ (by linarith)
      _ = b := standsY.nearest_eq

end LaserCutter.Number
