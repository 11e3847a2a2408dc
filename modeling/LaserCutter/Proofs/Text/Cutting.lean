import LaserCutter.Text.Blank
import LaserCutter.Text.Lines

/-!
# Cutting texts

Blanks around a text do not change what trimming leaves of it (`trimBlanks_surrounded`). A text is
split at a tag exactly where the tag stands first (`splitFirst?_eq_some_iff`), ends where a character
of some kind comes first (`takeWhile_eq_iff`), and falls at a separator into the parts that the
separator joins and does not occur in (`splitOn_eq_iff`).
-/

namespace LaserCutter.Text

/-- Blanks at either end change nothing. -/
theorem trimBlanks_surrounded {front back : List Char} (blank : ∀ c ∈ front, isBlank c)
    (blank' : ∀ c ∈ back, isBlank c) (cs : List Char) :
    trimBlanks (front ++ cs ++ back) = trimBlanks cs := by
  have reversed : ∀ c ∈ back.reverse, isBlank c := fun c member =>
    blank' c (List.mem_reverse.mp member)
  unfold trimBlanks
  rw [List.append_assoc, List.dropWhile_append_of_pos blank, List.dropWhile_append]
  split
  · -- Nothing but blanks: what follows is dropped from the front.
    rename_i blanks
    have dropped : back.dropWhile isBlank = [] := by
      rw [← List.append_nil back, List.dropWhile_append_of_pos blank', List.dropWhile_nil]
    rw [dropped, List.isEmpty_iff.mp blanks]
  · rw [List.reverse_append, List.dropWhile_append_of_pos reversed]

/-- `cs` is split where `tag` stands for the first time. -/
structure FirstAt (tag cs before after : List Char) : Prop where
  whole : cs = before ++ tag ++ after
  first : ∀ earlier later, cs = earlier ++ tag ++ later → before.length ≤ earlier.length

variable {tag cs before after : List Char}

theorem FirstAt.unique {before' after' : List Char} (split : FirstAt tag cs before after)
    (split' : FirstAt tag cs before' after') : before = before' ∧ after = after' := by
  have length : before.length = before'.length :=
    Nat.le_antisymm (split.first _ _ split'.whole) (split'.first _ _ split.whole)
  have whole := split.whole.symm.trans split'.whole
  rw [List.append_assoc, List.append_assoc] at whole
  obtain ⟨fronts, backs⟩ := List.append_inj whole length
  exact ⟨fronts, List.append_cancel_left backs⟩

/-- One more character in front, which does not begin the tag. -/
theorem FirstAt.cons {c : Char} (split : FirstAt tag cs before after)
    (elsewhere : ¬ tag <+: c :: cs) : FirstAt tag (c :: cs) (c :: before) after := by
  refine ⟨by rw [split.whole]; rfl, fun earlier later whole => ?_⟩
  cases earlier with
  | nil => exact absurd ⟨later, whole.symm⟩ elsewhere
  | cons d earlier => exact Nat.succ_le_succ (split.first _ _ (List.cons.inj whole).2)

/-- What is split off is the part before the first tag, behind what was passed already. -/
theorem firstAt_of_splitFrom? {passed : List Char}
    (found : splitFrom? tag passed cs = some (before, after)) :
    ∃ between, before = passed.reverse ++ between ∧ FirstAt tag cs between after := by
  induction cs generalizing passed with
  | nil =>
    unfold splitFrom? at found
    split at found
    · rename_i empty
      cases found
      exact ⟨[], by simp, by simp [empty], fun _ _ _ => Nat.zero_le _⟩
    · contradiction
  | cons c rest ih =>
    unfold splitFrom? at found
    split at found
    · rename_i here
      obtain ⟨later, whole⟩ := List.isPrefixOf_iff_prefix.mp here
      cases found
      refine ⟨[], by simp, ?_, fun _ _ _ => Nat.zero_le _⟩
      rw [← whole, List.drop_left, List.nil_append]
    · rename_i elsewhere
      obtain ⟨between, rfl, split⟩ := ih found
      refine ⟨c :: between, by simp, split.cons fun here => elsewhere ?_⟩
      exact List.isPrefixOf_iff_prefix.mpr here

/-- A text that is not split holds no tag. -/
theorem not_infix_of_splitFrom? {passed : List Char} (lost : splitFrom? tag passed cs = none) :
    ¬ tag <:+: cs := by
  induction cs generalizing passed with
  | nil =>
    unfold splitFrom? at lost
    split at lost
    · contradiction
    · rename_i filled
      exact fun inside => filled (List.infix_nil.mp inside)
  | cons c rest ih =>
    unfold splitFrom? at lost
    split at lost
    · contradiction
    · rename_i elsewhere
      rw [List.infix_cons_iff]
      exact not_or.mpr ⟨fun here => elsewhere (List.isPrefixOf_iff_prefix.mpr here), ih lost⟩

theorem splitFirst?_eq_some_iff :
    splitFirst? tag cs = some (before, after) ↔ FirstAt tag cs before after := by
  constructor
  · intro found
    obtain ⟨between, rfl, split⟩ := firstAt_of_splitFrom? found
    exact split
  · intro split
    cases result : splitFirst? tag cs with
    | none => exact absurd ⟨before, after, split.whole.symm⟩ (not_infix_of_splitFrom? result)
    | some parts =>
      obtain ⟨front, back⟩ := parts
      obtain ⟨between, rfl, split'⟩ := firstAt_of_splitFrom? result
      obtain ⟨rfl, rfl⟩ := split.unique split'
      rfl

section ends

variable {p : Char → Bool} {cs front back : List Char}

/-- The characters before the first one that ends a field, and the rest from there on. -/
theorem takeWhile_eq_iff :
    cs.takeWhile p = front ∧ cs.dropWhile p = back ↔
      cs = front ++ back ∧ (∀ c ∈ front, p c) ∧ ∀ c ∈ back.head?, ¬ p c := by
  constructor
  · rintro ⟨rfl, rfl⟩
    refine ⟨List.takeWhile_append_dropWhile.symm, List.all_eq_true.mp List.all_takeWhile, ?_⟩
    have stopped := List.head?_dropWhile_not p cs
    intro c head
    rw [Option.mem_def.mp head] at stopped
    simpa using stopped
  · rintro ⟨rfl, inside, stops⟩
    rw [List.takeWhile_append_of_pos inside, List.dropWhile_append_of_pos inside]
    cases back with
    | nil => simp
    | cons c rest => simp [stops c rfl]

end ends

section parts

variable {separator : Char}

/-- No part holds the separator. -/
theorem notin_of_mem_splitOn (cs : List Char) : ∀ part ∈ cs.splitOn separator, separator ∉ part := by
  induction cs with
  | nil => simp
  | cons c rest ih =>
    rw [List.splitOn_cons_eq_if_modifyHead]
    split
    · exact List.forall_mem_cons.mpr ⟨nofun, ih⟩
    · rename_i other
      cases parts : rest.splitOn separator with
      | nil => exact absurd parts (List.splitOn_ne_nil _ _)
      | cons first parts' =>
        rw [parts, List.forall_mem_cons] at ih
        refine List.forall_mem_cons.mpr ⟨?_, ih.2⟩
        rw [List.mem_cons, not_or]
        exact ⟨fun same => other (by simp [same]), ih.1⟩

/-- The parts of a text are those that the separator joins to it and that do not hold it. -/
theorem splitOn_eq_iff {cs : List Char} {parts : List (List Char)} (filled : parts ≠ []) :
    cs.splitOn separator = parts ↔
      cs = [separator].intercalate parts ∧ ∀ part ∈ parts, separator ∉ part := by
  constructor
  · rintro rfl
    exact ⟨(List.intercalate_splitOn separator).symm, notin_of_mem_splitOn cs⟩
  · rintro ⟨rfl, whole⟩
    exact List.splitOn_intercalate separator whole filled

end parts

end LaserCutter.Text
