import LaserCutter.Controller.Response
import LaserCutter.Proofs.Text.Cutting

/-!
# What the lines of a controller say

The text of a line between its blanks decides what the line says: `ok` alone is an acknowledgement, a
frame gives a position or nothing, and of all other texts those that begin with `error` are errors
(`Response.lines_classified`). A frame gives the position behind its first `MPos:`, whatever else it
holds.
-/

namespace LaserCutter

/-- The parts of a frame around its machine position. -/
structure Frame where
  before : List Char
  /-- The coordinate across, with the blanks around it. -/
  across : List Char
  along : List Char
  /-- The parts of the field behind the first two. -/
  others : List (List Char)
  after : List Char

namespace Frame

/-- What stands between the tag and the end of its field. -/
def field (f : Frame) : List Char := [','].intercalate (f.across :: f.along :: f.others)

/-- The text falls into these parts: its field goes from the first `MPos:` to the next `|` or `>` or to
the end, and its commas divide it. -/
structure Divides (f : Frame) (text : List Char) : Prop where
  tagged : Text.FirstAt "MPos:".toList text f.before (f.field ++ f.after)
  inside : ∀ c ∈ f.field, c ≠ '|' ∧ c ≠ '>'
  ended : ∀ c ∈ f.after.head?, c = '|' ∨ c = '>'
  whole : ∀ part ∈ f.across :: f.along :: f.others, ',' ∉ part

/-- The first two parts of the field are numbers, blanks aside, and these are the coordinates. -/
def Reads (f : Frame) (p : Point) : Prop :=
  Number.readDecimal? (String.ofList (Text.trimBlanks f.across)) = some p.x ∧
    Number.readDecimal? (String.ofList (Text.trimBlanks f.along)) = some p.y

end Frame

namespace Response

/-- The end of a field, in the form in which frames are read. -/
theorem field_eq_iff {rest field after : List Char} :
    (rest.takeWhile fun c => c ≠ '|' && c ≠ '>') = field ∧
        (rest.dropWhile fun c => c ≠ '|' && c ≠ '>') = after ↔
      rest = field ++ after ∧ (∀ c ∈ field, c ≠ '|' ∧ c ≠ '>') ∧
        ∀ c ∈ after.head?, c = '|' ∨ c = '>' := by
  rw [Text.takeWhile_eq_iff]
  simp [Decidable.or_iff_not_imp_left]

/-- A frame has a position exactly if it falls into the parts that give one. -/
theorem framePosition?_eq_some_iff {text : List Char} {p : Point} :
    framePosition? text = some p ↔ ∃ f : Frame, f.Divides text ∧ f.Reads p := by
  unfold framePosition?
  simp only [Option.bind_eq_bind, Option.bind_eq_some_iff]
  constructor
  · rintro ⟨⟨before, rest⟩, tagged, found⟩
    obtain ⟨shape, inside, ended⟩ := field_eq_iff.mp ⟨rfl, rfl⟩
    split at found
    · rename_i across along others parts
      obtain ⟨joined, whole⟩ := (Text.splitOn_eq_iff (by simp)).mp parts
      simp only [Option.bind_eq_some_iff] at found
      obtain ⟨x, atX, y, atY, ⟨⟩⟩ := found
      refine ⟨⟨before, across, along, others, _⟩, ⟨?_, ?_, ended, whole⟩, atX, atY⟩
      · rw [Frame.field, ← joined, ← shape]
        exact Text.splitFirst?_eq_some_iff.mp tagged
      · rwa [Frame.field, ← joined]
    · contradiction
  · rintro ⟨f, ⟨tagged, inside, ended, whole⟩, atX, atY⟩
    refine ⟨⟨f.before, f.field ++ f.after⟩, Text.splitFirst?_eq_some_iff.mpr tagged, ?_⟩
    have ends := (field_eq_iff.mpr ⟨rfl, inside, ended⟩).1
    have parts : f.field.splitOn ',' = f.across :: f.along :: f.others :=
      (Text.splitOn_eq_iff (by simp)).mpr ⟨rfl, whole⟩
    simp only [ends, parts, Option.bind_eq_some_iff]
    exact ⟨p.x, atX, p.y, atY, rfl⟩

theorem toList_trim (line : String) : (Text.trim line).toList = Text.trimBlanks line.toList :=
  String.toList_ofList

theorem trim_eq_iff {line text : String} :
    Text.trim line = text ↔ Text.trimBlanks line.toList = text.toList := by
  rw [← String.toList_inj, toList_trim]

/-- The classes of text, from the text alone. -/
theorem ofLine?_eq (line : String) :
    ofLine? line =
      if Text.trim line = "" then none
      else if Text.trim line = "ok" then some .ack
      else if "error".toList <+: (Text.trim line).toList then some (.error (Text.trim line))
      else if (Text.trim line).toList.head? = some '<' then
        (framePosition? (Text.trim line).toList).map .position
      else some (.status (Text.trim line)) := by
  simp only [trim_eq_iff, toList_trim, ← List.isPrefixOf_iff_prefix]
  rfl

theorem not_error_of_head {cs : List Char} (frame : cs.head? = some '<') :
    ¬ "error".toList <+: cs := by
  rintro ⟨rest, rfl⟩
  simp at frame

/-- Blanks around a line do not matter, carriage returns among them. A line is an acknowledgement
exactly if it reads `ok`. A frame is never anything but a position, and gives the one behind its first
`MPos:` exactly if two numbers stand there. Every other text that is not blank is an error if it begins
with `error`, and a status if not, and is kept as it is. -/
theorem lines_classified (line : String) :
    (∀ front back : String, (∀ c ∈ front.toList, Text.isBlank c) →
      (∀ c ∈ back.toList, Text.isBlank c) → ofLine? (front ++ line ++ back) = ofLine? line) ∧
    (ofLine? line = some .ack ↔ Text.trim line = "ok") ∧
    (Text.trim line = "" → ofLine? line = none) ∧
    ((Text.trim line).toList.head? = some '<' →
      (∀ response ∈ ofLine? line, ∃ p, response = .position p) ∧
        ∀ p, ofLine? line = some (.position p) ↔
          ∃ f : Frame, f.Divides (Text.trim line).toList ∧ f.Reads p) ∧
    (Text.trim line ≠ "" → Text.trim line ≠ "ok" → (Text.trim line).toList.head? ≠ some '<' →
      ∀ text,
        (ofLine? line = some (.error text) ↔
          "error".toList <+: (Text.trim line).toList ∧ text = Text.trim line) ∧
        (ofLine? line = some (.status text) ↔
          ¬ "error".toList <+: (Text.trim line).toList ∧ text = Text.trim line)) := by
  refine ⟨fun front back blank blank' => ?_, ?_, ?_, fun frame => ?_,
    fun filled other free text => ?_⟩
  · have same : Text.trim (front ++ line ++ back) = Text.trim line := by
      rw [trim_eq_iff, String.toList_append, String.toList_append,
        Text.trimBlanks_surrounded blank blank', toList_trim]
    rw [ofLine?_eq, ofLine?_eq line, same]
  · rw [ofLine?_eq]
    by_cases reads : Text.trim line = "ok"
    · simp [reads]
    · refine iff_of_false (fun found => ?_) reads
      rw [if_neg reads] at found
      repeat' split at found
      all_goals simp at found
  · intro blank
    rw [ofLine?_eq, if_pos blank]
  · have other : Text.trim line ≠ "" ∧ Text.trim line ≠ "ok" := by
      constructor <;> intro reads <;> simp [reads] at frame
    rw [ofLine?_eq, if_neg other.1, if_neg other.2, if_neg (not_error_of_head frame), if_pos frame]
    refine ⟨fun response found => ?_, fun p => ?_⟩
    · obtain ⟨p, _, rfl⟩ := Option.map_eq_some_iff.mp found
      exact ⟨p, rfl⟩
    · rw [← framePosition?_eq_some_iff]
      simp
  · rw [ofLine?_eq, if_neg filled, if_neg other, if_neg free]
    generalize "error".toList = tag
    by_cases wrong : tag <+: (Text.trim line).toList <;> simp [wrong, eq_comm]

/-- A frame with two tags between blanks, and a text that only begins like an acknowledgement. -/
theorem lines_classified_frame :
    let frame := "<Run|WPos:1|MPos: 1.5,2 ,x|MPos:7,7>"
    let text := "ok then"
    (∀ c ∈ "\u00a0\t".toList, Text.isBlank c) ∧ (∀ c ∈ "\r".toList, Text.isBlank c) ∧
      (Text.trim frame).toList.head? = some '<' ∧
      ofLine? ("\u00a0\t" ++ frame ++ "\r") = some (.position ⟨1.5, 2⟩) ∧
      (∃ f : Frame, f.Divides (Text.trim frame).toList ∧ f.Reads ⟨1.5, 2⟩) ∧
      Text.trim text ≠ "" ∧ Text.trim text ≠ "ok" ∧ (Text.trim text).toList.head? ≠ some '<' ∧
      ofLine? text = some (.status text) := by
  intro frame text
  have front : ∀ c ∈ "\u00a0\t".toList, Text.isBlank c := List.all_eq_true.mp (by decide)
  have back : ∀ c ∈ "\r".toList, Text.isBlank c := List.all_eq_true.mp (by decide)
  have head : (Text.trim frame).toList.head? = some '<' := by decide +kernel
  have known : ofLine? frame = some (.position ⟨1.5, 2⟩) := by decide +kernel
  have filled : Text.trim text ≠ "" := by decide +kernel
  have other : Text.trim text ≠ "ok" := by decide +kernel
  have free : (Text.trim text).toList.head? ≠ some '<' := by decide +kernel
  obtain ⟨surrounded, _, _, framed, _⟩ := lines_classified frame
  obtain ⟨_, _, _, _, spoken⟩ := lines_classified text
  refine ⟨front, back, head, (surrounded _ _ front back).trans known,
    ((framed head).2 _).mp known, filled, other, free, ?_⟩
  exact ((spoken filled other free text).2).mpr ⟨by decide +kernel, by decide +kernel⟩

end Response

end LaserCutter
