import LaserCutter.Program.Writer
import LaserCutter.Proofs.Number.Characters
import Mathlib

/-!
# Reading a program line by line

A machine knows a program only as lines of text. It splits a line into words at spaces, and all words
of a line are in force before the line moves. Words stay in force until another word of their kind.
What starts with a semicolon is a comment.

`InForce.readLine_text` says that the text of a block reads as what the block means
(`InForce.after`, `InForce.strokes`), provided that its coordinates hold no space. The blocks of the
writer are such blocks.
-/

namespace LaserCutter

/-- The words in force on a machine; a number is `none` as long as no word has set it. -/
structure InForce where
  feed : Option Int
  power : Option Int
  /-- The beam of the last `M3` or `M4`; none after an `M5`. -/
  beam : Option Beam
  air : Bool
  deriving DecidableEq, Repr

/-- A straight move that a machine makes, and the words that are in force while it does. -/
structure Stroke where
  kind : MoveKind
  x : Option String
  y : Option String
  under : InForce
  deriving DecidableEq, Repr

namespace InForce

def readWord (w : InForce) : List Char → InForce
  | 'F' :: number => { w with feed := (String.ofList number).toInt? }
  | 'S' :: number => { w with power := (String.ofList number).toInt? }
  | ['M', '3'] => { w with beam := some .constant }
  | ['M', '4'] => { w with beam := some .dynamic }
  | ['M', '5'] => { w with beam := none }
  | ['M', '8'] => { w with air := true }
  | ['M', '9'] => { w with air := false }
  | _ => w

/-- What kind of move the words ask for, if they ask for one. -/
def moveKind? (words : List (List Char)) : Option MoveKind :=
  words.findSome? fun
    | ['G', '0'] => some .rapid
    | ['G', '1'] => some .cut
    | _ => none

/-- The text behind the first word with the letter of an axis. -/
def axisText? (letter : Char) (words : List (List Char)) : Option String :=
  words.findSome? fun
    | [] => none
    | c :: text => if c = letter then some (String.ofList text) else none

/-- The words in force after a line, and the stroke that the line makes, if any. -/
def readLine (w : InForce) (line : String) : InForce × List Stroke :=
  if line.toList.head? = some ';' then (w, [])
  else
    let words := line.toList.splitOn ' '
    let now := words.foldl readWord w
    let stroke := (moveKind? words).map fun kind =>
      ⟨kind, axisText? 'X' words, axisText? 'Y' words, now⟩
    (now, stroke.toList)

def readLines (w : InForce) : List String → InForce × List Stroke
  | [] => (w, [])
  | line :: rest =>
    let (now, strokes) := w.readLine line
    let (last, more) := now.readLines rest
    (last, strokes ++ more)

/-- The words in force once a block is read. -/
def after (w : InForce) : Block → InForce
  | .comment _ | .absolute => w
  | .beamOn beam power => { w with beam := some beam, power := some power }
  | .beamOff => { w with beam := none, power := some 0 }
  | .air on => { w with air := on }
  | .move _ _ _ none => w
  | .move _ _ _ (some feed) => { w with feed := some feed }

/-- The strokes that a block makes. -/
def strokes (w : InForce) : Block → List Stroke
  | .move kind x y feed => [⟨kind, some x, some y, w.after (.move kind x y feed)⟩]
  | _ => []

theorem readLines_append (w : InForce) (front back : List String) :
    w.readLines (front ++ back) =
      (((w.readLines front).1.readLines back).1,
        (w.readLines front).2 ++ ((w.readLines front).1.readLines back).2) := by
  induction front generalizing w with
  | nil => simp [readLines]
  | cons line rest ih => simp [readLines, ih]

end InForce

/-- A block whose text falls into its words at the spaces: no coordinate holds one. -/
def Block.Unspaced : Block → Prop
  | .move _ x y _ => ' ' ∉ x.toList ∧ ' ' ∉ y.toList
  | _ => True

/-- The words of a block that is no comment. -/
def Block.words : Block → List (List Char)
  | .comment _ => []
  | .absolute => [['G', '9', '0'], ['G', '2', '1']]
  | .beamOn beam power => [beam.code.toList, 'S' :: (toString power).toList]
  | .beamOff => [['M', '5'], ['S', '0']]
  | .air on => [if on then ['M', '8'] else ['M', '9']]
  | .move kind x y feed =>
    [kind.code.toList, 'X' :: x.toList, 'Y' :: y.toList] ++
      (feed.map fun f => 'F' :: (toString f).toList).toList

/-- The text of a block is its words with a space between each two. -/
theorem Block.text_words (b : Block) (plain : ∀ text, b ≠ .comment text) :
    b.text.toList = [' '].intercalate b.words := by
  cases b with
  | comment text => exact absurd rfl (plain text)
  | absolute => rfl
  | beamOn beam power => simp [Block.text, Block.words]
  | beamOff => rfl
  | air on => cases on <;> rfl
  | move kind x y feed => cases feed <;> simp [Block.text, Block.words]

theorem Block.words_unspaced (b : Block) (h : b.Unspaced) : ∀ word ∈ b.words, ' ' ∉ word := by
  cases b with
  | comment text => simp [Block.words]
  | absolute => simp [Block.words]
  | beamOn beam power =>
    have digits := Number.notin_toString (c := ' ') rfl power
    cases beam <;> simpa [Block.words, Beam.code] using digits
  | beamOff => simp [Block.words]
  | air on => cases on <;> simp [Block.words]
  | move kind x y feed =>
    cases feed with
    | none => cases kind <;> simpa [Block.words, MoveKind.code, Block.Unspaced] using h
    | some f =>
      have digits := Number.notin_toString (c := ' ') rfl f
      cases kind <;> simp_all [Block.words, MoveKind.code, Block.Unspaced]

theorem Block.splitOn_text (b : Block) (plain : ∀ text, b ≠ .comment text) (h : b.Unspaced) :
    b.text.toList.splitOn ' ' = b.words := by
  rw [b.text_words plain]
  apply List.splitOn_intercalate ' ' (b.words_unspaced h)
  cases b <;> simp [Block.words] at plain ⊢

/-- No block but a comment begins with a semicolon. -/
theorem Block.head_text (b : Block) (plain : ∀ text, b ≠ .comment text) :
    b.text.toList.head? ≠ some ';' := by
  rw [b.text_words plain]
  cases b with
  | comment text => exact absurd rfl (plain text)
  | absolute => simp [Block.words]
  | beamOn beam power => cases beam <;> simp [Block.words, Beam.code]
  | beamOff => simp [Block.words]
  | air on => cases on <;> simp [Block.words]
  | move kind x y feed => cases kind <;> cases feed <;> simp [Block.words, MoveKind.code]

namespace InForce

/-- The text of a block reads as what the block means. -/
theorem readLine_text (w : InForce) (b : Block) (h : b.Unspaced) :
    w.readLine b.text = (w.after b, w.strokes b) := by
  by_cases comment : ∃ text, b = .comment text
  · obtain ⟨text, rfl⟩ := comment
    simp [readLine, Block.text, after, strokes]
  · have plain : ∀ text, b ≠ .comment text := fun text equal => comment ⟨text, equal⟩
    simp only [readLine, if_neg (b.head_text plain), b.splitOn_text plain h]
    cases b with
    | comment text => exact absurd rfl (plain text)
    | absolute => rfl
    | beamOn beam power =>
      cases beam <;> simp [Block.words, Beam.code, readWord, moveKind?, after, strokes]
    | beamOff =>
      have zero : (String.ofList ['0']).toInt? = some 0 := Int.toInt?_repr 0
      simp [Block.words, readWord, moveKind?, after, strokes, zero]
    | air on => cases on <;> rfl
    | move kind x y feed =>
      cases kind <;> cases feed <;>
        simp [Block.words, MoveKind.code, readWord, moveKind?, axisText?, after, strokes]

end InForce

end LaserCutter
