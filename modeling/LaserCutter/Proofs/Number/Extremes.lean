import LaserCutter.Proofs.Number.Finite

/-!
# Least and greatest numbers

Numbers other than NaN are totally ordered. Of two of them `lesser` takes one that is not above the
other and `greater` one that is not below it, so what is taken of a list in turn is one of its
numbers and bounds all of them. What is brought between two bounds keeps its order.
-/

namespace LaserCutter.Number

open Float.Model (UnpackedFloat)
open Float.Model.UnpackedFloat

variable {x y : Float}

/-- Only NaN has no place in the order. -/
theorem exists_place_of_number (number : x.isNaN = false) : ∃ p, place? (exact x) = some p := by
  change (exact x).isNaN = false at number
  rcases known : exact x with ⟨⟨⟩⟩ | _ | s | _ <;>
    simp_all [place?, Float.Model.UnpackedFloat.isNaN]

theorem number_of_place {p : WithBot (WithTop ℚ)} (place : p ∈ place? (exact x)) :
    x.isNaN = false := by
  change (exact x).isNaN = false
  cases known : exact x with
  | notANumber => simp [known, place?] at place
  | _ => rfl

/-- What is compared is not NaN. -/
theorem numbers_of_float_le (le : x ≤ y) : x.isNaN = false ∧ y.isNaN = false := by
  obtain ⟨p, atX, q, atY, _⟩ := le_iff_place.mp le
  exact ⟨number_of_place atX, number_of_place atY⟩

theorem float_le_self_of_number (number : x.isNaN = false) : x ≤ x := by
  obtain ⟨p, place⟩ := exists_place_of_number number
  exact le_iff_place.mpr ⟨p, place, p, place, le_rfl⟩

/-- A number is below another or not below it. -/
theorem float_lt_or_le_of_number (first : x.isNaN = false) (second : y.isNaN = false) :
    x < y ∨ y ≤ x :=
  have ⟨p, atX⟩ := exists_place_of_number first
  have ⟨q, atY⟩ := exists_place_of_number second
  (lt_or_ge p q).imp (fun less => lt_iff_place.mpr ⟨p, atX, q, atY, less⟩)
    fun le => le_iff_place.mpr ⟨q, atY, p, atX, le⟩

/-- Numbers that are not above each other are equal. -/
theorem float_beq_of_le_of_le (first : x ≤ y) (second : y ≤ x) : x == y := by
  obtain ⟨p, atX, q, atY, le⟩ := le_iff_place.mp first
  obtain ⟨q', atY', p', atX', ge⟩ := le_iff_place.mp second
  cases Option.mem_unique atX atX'
  cases Option.mem_unique atY atY'
  cases le_antisymm le ge
  exact beq_iff_place.mpr ⟨p, atX, atY⟩

theorem float_not_lt_of_le (le : x ≤ y) : ¬ y < x := by
  obtain ⟨p, atX, q, atY, le⟩ := le_iff_place.mp le
  rw [lt_iff_place]
  rintro ⟨q', atY', p', atX', less⟩
  cases Option.mem_unique atX atX'
  cases Option.mem_unique atY atY'
  exact absurd less (not_lt.mpr le)

theorem float_le_of_not_lt (first : x.isNaN = false) (second : y.isNaN = false) (le : ¬ y < x) :
    x ≤ y :=
  (float_lt_or_le_of_number second first).resolve_left le

theorem lesser_eq_left (le : x ≤ y) : lesser x y = x := by
  unfold lesser
  rw [decide_eq_false (float_not_lt_of_le le), (numbers_of_float_le le).1, Bool.or_self,
    if_neg Bool.false_ne_true]

theorem lesser_of_isNaN (isNaN : x.isNaN = true) : lesser x y = y := by
  rw [lesser, isNaN, Bool.or_true, if_pos rfl]

theorem not_lt_of_isNaN (isNaN : x.isNaN = true) (y : Float) : ¬ y < x := by
  intro less
  have number := (numbers_of_float_le (float_le_of_lt less)).2
  rw [isNaN] at number
  contradiction

theorem not_isNaN_lt (isNaN : x.isNaN = true) (y : Float) : ¬ x < y := by
  intro less
  have number := (numbers_of_float_le (float_le_of_lt less)).1
  rw [isNaN] at number
  contradiction

/-- What lies between finite numbers is finite. -/
theorem stands_between {z : Float} {a b : ℚ} (first : Stands .binary64 (exact x) a)
    (second : Stands .binary64 (exact y) b) (low : x ≤ z) (high : z ≤ y) :
    ∃ n, Stands .binary64 (exact z) n ∧ a ≤ n ∧ n ≤ b := by
  have finite : isFinite z := by
    obtain ⟨p, atX, q, atZ, le⟩ := le_iff_place.mp low
    obtain ⟨q', atZ', r, atY, ge⟩ := le_iff_place.mp high
    rw [place?_of_stands first] at atX
    rw [place?_of_stands second] at atY
    cases atX
    cases atY
    cases Option.mem_unique atZ atZ'
    unfold Number.isFinite
    rcases known : exact z with ⟨⟨⟩⟩ | _ | s | _ <;> rw [known] at atZ <;> cases atZ <;> simp at *
  obtain ⟨n, stands, _⟩ := exists_stands finite
  exact ⟨n, stands, (float_le_iff_of_stands first stands).mp low,
    (float_le_iff_of_stands stands second).mp high⟩

section clamping

variable {lo hi : Float}

theorem clamp?_bounds (ordered : lo ≤ hi) (number : x.isNaN = false) :
    ∃ now, clamp? lo hi x = some now ∧ lo ≤ now ∧ now ≤ hi := by
  obtain ⟨low, high⟩ := numbers_of_float_le ordered
  rw [clamp?, if_pos ordered]
  split
  · exact ⟨lo, rfl, float_le_self_of_number low, ordered⟩
  · rename_i above
    split
    · exact ⟨hi, rfl, ordered, float_le_self_of_number high⟩
    · rename_i below
      exact ⟨x, rfl, float_le_of_not_lt low number above, float_le_of_not_lt number high below⟩

theorem clamp?_mono (le : x ≤ y) {first second : Float} (atX : clamp? lo hi x = some first)
    (atY : clamp? lo hi y = some second) : first ≤ second := by
  obtain ⟨numberX, numberY⟩ := numbers_of_float_le le
  unfold clamp? at atX atY
  split at atX
  · rename_i ordered
    obtain ⟨low, high⟩ := numbers_of_float_le ordered
    rw [if_pos ordered] at atY
    cases atX
    cases atY
    by_cases belowX : x < lo
    · obtain ⟨now, clamped, above, _⟩ := clamp?_bounds ordered numberY
      rw [clamp?, if_pos ordered] at clamped
      cases clamped
      rwa [if_pos belowX]
    · have fromX := float_le_of_not_lt low numberX belowX
      have fromY := float_le_trans fromX le
      rw [if_neg belowX, if_neg (float_not_lt_of_le fromY)]
      by_cases aboveY : hi < y
      · rw [if_pos aboveY]
        split
        · exact float_le_self_of_number high
        · rename_i inside
          exact float_le_of_not_lt numberX high inside
      · have toY := float_le_of_not_lt numberY high aboveY
        rwa [if_neg aboveY, if_neg (float_not_lt_of_le (float_le_trans le toY))]
  · contradiction

end clamping

/-- What `pick` takes of two numbers is one of them and comes before both. -/
def Picks (before : Float → Float → Prop) (pick : Float → Float → Float) : Prop :=
  ∀ a b : Float, a.isNaN = false → b.isNaN = false →
    (pick a b = a ∨ pick a b = b) ∧ before (pick a b) a ∧ before (pick a b) b

theorem picks_lesser : Picks (· ≤ ·) lesser := by
  intro a b first second
  unfold lesser
  rcases float_lt_or_le_of_number second first with less | le
  · rw [if_pos (by simp [less])]
    exact ⟨.inr rfl, float_le_of_lt less, float_le_self_of_number second⟩
  · rw [decide_eq_false (float_not_lt_of_le le), first, Bool.or_self, if_neg Bool.false_ne_true]
    exact ⟨.inl rfl, float_le_self_of_number first, le⟩

theorem picks_greater : Picks (fun a b => b ≤ a) greater := by
  intro a b first second
  unfold greater
  rcases float_lt_or_le_of_number first second with less | le
  · rw [if_pos (by simp [less])]
    exact ⟨.inr rfl, float_le_of_lt less, float_le_self_of_number second⟩
  · rw [decide_eq_false (float_not_lt_of_le le), first, Bool.or_self, if_neg Bool.false_ne_true]
    exact ⟨.inl rfl, float_le_self_of_number first, le⟩

/-- What is taken of a list in turn is one of its numbers and comes before all of them. -/
theorem Picks.foldl {before : Float → Float → Prop} {pick : Float → Float → Float}
    (picks : Picks before pick) (trans : ∀ {a b c}, before a b → before b c → before a c)
    (x : Float) (xs : List Float) (numbers : ∀ y ∈ x :: xs, y.isNaN = false) :
    xs.foldl pick x ∈ x :: xs ∧ ∀ y ∈ x :: xs, before (xs.foldl pick x) y := by
  induction xs generalizing x with
  | nil =>
    have self := (picks x x (numbers x (by simp)) (numbers x (by simp))).1.elim id id
    have before := (picks x x (numbers x (by simp)) (numbers x (by simp))).2.1
    rw [self] at before
    simpa using before
  | cons y rest ih =>
    obtain ⟨taken, first, second⟩ := picks x y (numbers x (by simp)) (numbers y (by simp))
    have number : (pick x y).isNaN = false := by
      rcases taken with same | same <;> rw [same] <;> exact numbers _ (by simp)
    obtain ⟨among, bounds⟩ := ih (pick x y) fun z member => by
      rcases List.mem_cons.mp member with rfl | member
      · exact number
      · exact numbers z (by simp [member])
    rw [List.foldl_cons]
    constructor
    · rcases List.mem_cons.mp among with same | member
      · rw [same]
        rcases taken with taken | taken <;> simp [taken]
      · simp [member]
    · intro z member
      rcases List.mem_cons.mp member with rfl | member
      · exact trans (bounds _ List.mem_cons_self) first
      · rcases List.mem_cons.mp member with rfl | member
        · exact trans (bounds _ List.mem_cons_self) second
        · exact bounds z (List.mem_cons_of_mem _ member)

end LaserCutter.Number
