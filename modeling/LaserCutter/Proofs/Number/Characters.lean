import LaserCutter.Program.Block

/-!
# Characters of numbers

The text of a number holds letters, digits, points and signs only, so it stays in one piece wherever
a text is split at blanks or line ends.
-/

namespace LaserCutter.Number

open Float.Model Float.Model.UnpackedFloat

/-- The characters that the text of a number may hold. -/
def inNumber (c : Char) : Bool := c.isAlphanum || c == '.' || c == '-'

private theorem inNumber_digits (n : Nat) : ∀ c ∈ decimalDigits n, inNumber c := by
  intro c member
  have digit : c.isDigit := Nat.isDigit_of_mem_toDigits (by decide) (by decide) member
  simp [inNumber, Char.isAlphanum, digit]

private theorem inNumber_withPoint (places n : Nat) : ∀ c ∈ withPoint places n, inNumber c := by
  have padded : ∀ c ∈ (decimalDigits n).leftpad (places + 1) '0', inNumber c := by
    intro c member
    rcases List.mem_append.mp member with zeros | digits
    · rw [List.eq_of_mem_replicate zeros]
      decide
    · exact inNumber_digits n c digits
  intro c member
  unfold withPoint at member
  split at member
  · exact inNumber_digits n c member
  · rcases List.mem_append.mp member with front | back
    · exact padded c (List.mem_of_mem_take front)
    · rcases List.mem_cons.mp back with rfl | back
      · decide
      · exact padded c (List.mem_of_mem_drop back)

private theorem inNumber_signText (s : Sign) (text : List Char)
    (h : ∀ c ∈ text, inNumber c) : ∀ c ∈ signText s text, inNumber c := by
  cases s with
  | positive => exact h
  | negative =>
    intro c member
    rcases List.mem_cons.mp member with rfl | member
    · decide
    · exact h c member

theorem inNumber_fixed (places : Nat) (x : Float) : ∀ c ∈ (fixed places x).toList, inNumber c := by
  unfold fixed decimalText
  split
  · exact List.all_eq_true.mp (by decide)
  · rw [String.toList_ofList]
    exact inNumber_signText _ ['i', 'n', 'f'] (List.all_eq_true.mp (by decide))
  · rw [String.toList_ofList]
    exact inNumber_signText _ _ (inNumber_withPoint places 0)
  · rw [String.toList_ofList]
    exact inNumber_signText _ _ (inNumber_withPoint places _)

theorem inNumber_toString (n : Int) : ∀ c ∈ (toString n).toList, inNumber c := by
  have digits := inNumber_digits n.natAbs
  unfold decimalDigits at digits
  cases n with
  | ofNat n => simpa [Int.repr_eq_if] using digits
  | negSucc n =>
    have minus : inNumber '-' := by decide
    simpa [Int.repr_eq_if, minus] using digits

theorem notin_fixed {c : Char} (h : inNumber c = false) (places : Nat) (x : Float) :
    c ∉ (fixed places x).toList := by
  intro member
  rw [inNumber_fixed places x c member] at h
  contradiction

theorem notin_toString {c : Char} (h : inNumber c = false) (n : Int) :
    c ∉ (toString n).toList := by
  intro member
  rw [inNumber_toString n c member] at h
  contradiction

end LaserCutter.Number
