import LaserCutter.Program.Lines
import LaserCutter.Program.Writer
import LaserCutter.Proofs.Program.Meaning

/-!
# What a controller gets to see of a program

A program is cut into lines again before it is sent. The text of a block ends with a line feed, so
every block is cut on its own. A block that the writer makes for a move is one line, and it is sent.
A comment is not sent, but only its first line is one: the lines after a line feed in its text begin
with whatever the text holds there (`strayLines`).
-/

namespace LaserCutter

/-- What is sent of parts that all end with a line feed. -/
def sentParts (parts : List (List Char)) : List String :=
  ((parts.map Text.dropCarriageReturn).filter isSent).map String.ofList

/-- The lines of a text after its first one, as far as a controller gets to see them. -/
def strayLines (text : String) : List String := sentParts ((text.toList.splitOn '\n').drop 1)

/-- What a controller gets to see of a block. -/
def Block.sent (b : Block) : List String := sentParts (b.text.toList.splitOn '\n')

/-- What comes before a line feed is sent on its own. -/
theorem sentLines_append_newline (front back : List Char) :
    sentLines (String.ofList (front ++ '\n' :: back)) =
      sentParts (front.splitOn '\n') ++ sentLines (String.ofList back) := by
  have behind : back.splitOn '\n' ≠ [] := List.splitOn_ne_nil _ _
  simp only [sentLines, Text.linesOf, String.toList_ofList, List.splitOn_append_cons_self,
    List.dropLast_append_of_ne_nil behind, List.getLast?_append_of_ne_nil _ behind]
  simp [sentParts]

theorem sentLines_programText (blocks : List Block) :
    sentLines (programText blocks) = blocks.flatMap Block.sent := by
  induction blocks with
  | nil => decide
  | cons b rest ih =>
    have text : programText (b :: rest) =
        String.ofList (b.text.toList ++ '\n' :: (programText rest).toList) := by
      apply String.toList_injective
      simp [programText]
    rw [text, sentLines_append_newline, String.ofList_toList, ih, List.flatMap_cons, Block.sent]

/-- A front without a line feed belongs to the first line. -/
theorem strayLines_append (front text : String) (one : '\n' ∉ front.toList) :
    strayLines (front ++ text) = strayLines text := by
  unfold strayLines
  rw [String.toList_append]
  generalize front.toList = cs at one
  congr 1
  induction cs with
  | nil => rfl
  | cons c rest ih =>
    have other : (c == '\n') = false := by simpa using fun same => one (by simp [same])
    rw [List.cons_append, List.splitOn_cons_eq_if_modifyHead, other,
      ← ih fun member => one (by simp [member])]
    simp only [Bool.false_eq_true, if_false]
    cases (rest ++ text.toList).splitOn '\n' <;> rfl

theorem strayLines_of_notin (text : String) (one : '\n' ∉ text.toList) : strayLines text = [] := by
  rw [strayLines, List.splitOn_eq_singleton one]
  rfl

/-- The first line of a comment is not sent. -/
theorem Block.sent_comment (text : String) : (Block.comment text).sent = strayLines text := by
  have marked (line : List Char) : isSent (Text.dropCarriageReturn (';' :: ' ' :: line)) = false := by
    unfold Text.dropCarriageReturn
    split <;> simp [isSent]
  have split : (Block.comment text).text.toList.splitOn '\n' =
      (text.toList.splitOn '\n').modifyHead fun line => ';' :: ' ' :: line := by
    have chars : (Block.comment text).text.toList = ';' :: ' ' :: text.toList := by
      simp [Block.text]
    rw [chars, List.splitOn_cons_eq_if_modifyHead, List.splitOn_cons_eq_if_modifyHead]
    cases text.toList.splitOn '\n' <;> rfl
  rw [Block.sent, split, strayLines]
  cases text.toList.splitOn '\n' with
  | nil => rfl
  | cons first rest => simp [sentParts, marked]

/-- A line that begins with neither a blank nor a semicolon is sent. -/
theorem isSent_of_head {line : List Char} {c : Char} (head : line.head? = some c)
    (seen : Text.isBlank c = false) (plain : c ≠ ';') : isSent line := by
  cases line with
  | nil => contradiction
  | cons first rest =>
    obtain rfl : first = c := by simpa using head
    simp [isSent, seen, plain]

/-- A block that is no comment and whose coordinates are numbers. -/
def Block.Written : Block → Prop
  | .comment _ => False
  | .move _ x y _ => (∀ c ∈ x.toList, Number.inNumber c) ∧ ∀ c ∈ y.toList, Number.inNumber c
  | _ => True

namespace Block

theorem inNumber_text (b : Block) (written : b.Written) :
    ∀ c ∈ b.text.toList, c = ' ' ∨ Number.inNumber c := by
  have number (n : Int) : ∀ c ∈ (toString n).toList, c = ' ' ∨ Number.inNumber c :=
    fun c member => .inr (Number.inNumber_toString n c member)
  cases b with
  | comment text => contradiction
  | absolute => simp [text, Number.inNumber]
  | beamOn beam power =>
    simp only [text, String.toList_append, List.forall_mem_append]
    refine ⟨⟨?_, by simp [Number.inNumber]⟩, number power⟩
    cases beam <;> simp [Beam.code, Number.inNumber]
  | beamOff => simp [text, Number.inNumber]
  | air on => cases on <;> simp [text, Number.inNumber]
  | move kind x y feed =>
    have place : ∀ c ∈ (kind.code ++ " X" ++ x ++ " Y" ++ y).toList,
        c = ' ' ∨ Number.inNumber c := by
      simp only [String.toList_append, List.forall_mem_append]
      refine ⟨⟨⟨⟨?_, by simp [Number.inNumber]⟩, fun c member => .inr (written.1 c member)⟩,
        by simp [Number.inNumber]⟩, fun c member => .inr (written.2 c member)⟩
      cases kind <;> simp [MoveKind.code, Number.inNumber]
    cases feed with
    | none => exact place
    | some feed =>
      simp only [text, String.toList_append, List.forall_mem_append] at place ⊢
      exact ⟨⟨place, by simp [Number.inNumber]⟩, number feed⟩

/-- A written block begins with the letter of a word. -/
theorem head_written (b : Block) (written : b.Written) :
    b.text.toList.head? = some 'G' ∨ b.text.toList.head? = some 'M' := by
  cases b with
  | comment text => contradiction
  | absolute => exact .inl rfl
  | beamOn beam power => cases beam <;> simp [text, Beam.code]
  | beamOff => exact .inr rfl
  | air on => cases on <;> exact .inr rfl
  | move kind x y feed => cases kind <;> cases feed <;> simp [text, MoveKind.code]

/-- A block that the writer makes for a move is sent, as the one line that it is. -/
theorem sent_written (b : Block) (written : b.Written) : b.sent = [b.text] := by
  have outside (c : Char) (other : c ≠ ' ') (foreign : Number.inNumber c = false) :
      c ∉ b.text.toList := by
    intro member
    rcases b.inNumber_text written c member with space | number
    · exact other space
    · simp [foreign] at number
  have oneLine := List.splitOn_eq_singleton (outside '\n' (by decide) (by decide))
  have kept : Text.dropCarriageReturn b.text.toList = b.text.toList :=
    if_neg fun last => outside '\r' (by decide) (by decide) (List.mem_of_getLast? last)
  have seen : isSent b.text.toList := by
    rcases b.head_written written with head | head
    · exact isSent_of_head head (by decide) (by decide)
    · exact isSent_of_head head (by decide) (by decide)
  simp [sent, oneLine, sentParts, kept, seen]

end Block

/-! ## The blocks of a job -/

namespace Modal

variable (m : Modal) (machine : Machine)

theorem written_coordinates (kind : MoveKind) (place : Point) (feed : Option Int) :
    (Block.move kind (coordinateText place.x) (coordinateText place.y) feed).Written :=
  ⟨Number.inNumber_fixed _ _, Number.inNumber_fixed _ _⟩

theorem written_write (move : Move) : ∀ b ∈ (m.write machine move).1, b.Written := by
  have stroke := written_coordinates move.kind move.stop
  intro b member
  unfold write at member
  split at member
  · rcases List.mem_append.mp member with off | go
    · rw [List.mem_singleton.mp (List.mem_ite_nil_left.mp off).2]
      trivial
    · rw [List.mem_singleton.mp go]
      exact stroke _
  · rcases List.mem_append.mp member with front | go
    · rcases List.mem_append.mp front with air | on
      · rw [List.mem_singleton.mp (List.mem_ite_nil_left.mp air).2]
        trivial
      · rw [List.mem_singleton.mp (List.mem_ite_nil_left.mp on).2]
        trivial
    · rw [List.mem_singleton.mp go]
      exact stroke _

theorem written_writeAll (moves : List Move) : ∀ b ∈ (m.writeAll machine moves).1, b.Written := by
  induction moves generalizing m with
  | nil => nofun
  | cons move rest ih =>
    rw [writeAll_cons]
    intro b member
    rcases List.mem_append.mp member with own | behind
    · exact m.written_write machine move b own
    · exact ih _ b behind

end Modal

/-- Written blocks are sent as they are. -/
theorem flatMap_sent_written {blocks : List Block} (written : ∀ b ∈ blocks, b.Written) :
    blocks.flatMap Block.sent = blocks.map Block.text := by
  rw [← List.flatMap_singleton' (blocks.map Block.text), List.flatMap_map]
  exact List.flatMap_congr fun b member => b.sent_written (written b member)

def Block.isComment : Block → Bool
  | .comment _ => true
  | _ => false

theorem Block.Written.not_comment {b : Block} (written : b.Written) : b.isComment = false := by
  cases b with
  | comment text => contradiction
  | absolute | beamOn | beamOff | air | move => rfl

namespace Job

variable (job : Job) (machine : Machine)

/-- The blocks between the comments at both ends of a program. -/
def core : List Block :=
  let (body, m) := Modal.opening.writeAll machine job.moves
  [.absolute, .beamOff] ++ body ++ [.beamOff] ++ (if m.air then [.air false] else []) ++
    [.move .rapid "0" "0" none]

theorem blocks_eq (moves : job.moves ≠ []) : job.blocks machine =
    [Block.comment "laser-job G-code", Block.comment ("Machine: " ++ machine.name)] ++
      job.core machine ++ [Block.comment "End of job"] := by
  simp [blocks, moves, core, openingBlocks, Modal.closing]

theorem written_core : ∀ b ∈ job.core machine, b.Written := by
  have origin : (Block.move .rapid "0" "0" none).Written :=
    ⟨List.all_eq_true.mp (by decide), List.all_eq_true.mp (by decide)⟩
  intro b member
  rcases List.mem_append.mp member with member | home
  · rcases List.mem_append.mp member with member | air
    · rcases List.mem_append.mp member with member | off
      · rcases List.mem_append.mp member with opening | body
        · fin_cases opening <;> trivial
        · exact Modal.opening.written_writeAll machine job.moves b body
      · rw [List.mem_singleton.mp off]
        trivial
    · split at air
      · rw [List.mem_singleton.mp air]
        trivial
      · contradiction
  · rw [List.mem_singleton.mp home]
    exact origin

theorem filter_blocks (moves : job.moves ≠ []) :
    (job.blocks machine).filter (!·.isComment) = job.core machine := by
  have plain : (job.core machine).filter (!·.isComment) = job.core machine :=
    List.filter_eq_self.mpr fun b member => by
      rw [(job.written_core machine b member).not_comment, Bool.not_false]
  rw [job.blocks_eq machine moves, List.filter_append, List.filter_append, plain]
  simp [Block.isComment]

/-- What a controller gets to see of a job: nothing without moves; otherwise the stray lines of the
name of the machine and all blocks but the comments. -/
theorem sentLines_program :
    sentLines (job.program machine) =
      if job.moves = [] then []
      else strayLines machine.name ++
        ((job.blocks machine).filter (!·.isComment)).map Block.text := by
  unfold program
  rw [sentLines_programText]
  split
  · simp [blocks, *]
  · rename_i moves
    have fixed (text : String) (one : '\n' ∉ text.toList) : (Block.comment text).sent = [] := by
      rw [Block.sent_comment, strayLines_of_notin text one]
    have named : (Block.comment ("Machine: " ++ machine.name)).sent = strayLines machine.name := by
      rw [Block.sent_comment, strayLines_append _ _ (by decide)]
    rw [job.filter_blocks machine moves, job.blocks_eq machine moves, List.flatMap_append,
      List.flatMap_append, flatMap_sent_written (job.written_core machine)]
    simp [fixed _ (by decide : '\n' ∉ "laser-job G-code".toList), named,
      fixed _ (by decide : '\n' ∉ "End of job".toList)]

/-- The name of the machine reaches the controller through its stray lines only. So two machines
that differ in the name alone get the same lines exactly if there are no moves or the stray lines
are the same; nothing is sent exactly if there are no moves; and a name without a line feed sends
nothing. -/
theorem sentLines_name (job : Job) (machine : Machine) :
    (∀ name, sentLines (job.program { machine with name }) =
      if job.moves = [] then []
      else strayLines name ++ ((job.blocks machine).filter (!·.isComment)).map Block.text) ∧
    (∀ name other, sentLines (job.program { machine with name }) =
      sentLines (job.program { machine with name := other }) ↔
        job.moves = [] ∨ strayLines name = strayLines other) ∧
    (∀ name, sentLines (job.program { machine with name }) = [] ↔ job.moves = []) ∧
    ∀ name : String, '\n' ∉ name.toList → strayLines name = [] := by
  have lines (name : String) : sentLines (job.program { machine with name }) =
      if job.moves = [] then []
      else strayLines name ++ ((job.blocks machine).filter (!·.isComment)).map Block.text := by
    rw [sentLines_program]
    split
    · rfl
    · rename_i moves
      rw [filter_blocks _ _ moves, filter_blocks _ _ moves]
      rfl
  refine ⟨lines, fun name other => ?_, fun name => ?_, strayLines_of_notin⟩
  · rw [lines, lines]
    by_cases still : job.moves = []
    · simp [still]
    · simp [still]
  · rw [lines]
    by_cases still : job.moves = []
    · simp [still]
    · simp [still, filter_blocks _ _ still, core]

/-- A job of one move, for a machine with a name of one line. -/
theorem sentLines_name_bench :
    let job := Job.ofMoves [.home ⟨5, 5⟩ 100]
    '\n' ∉ "Bench".toList ∧ strayLines "Bench" = [] ∧
      sentLines (job.program { Machine.standard with name := "Bench" }) =
        ["G90 G21", "M5 S0", "G0 X0.000 Y0.000 F6000", "M5 S0", "G0 X0 Y0"] := by
  intro job
  obtain ⟨lines, _, _, oneLine⟩ := job.sentLines_name .standard
  have quiet : strayLines "Bench" = [] := oneLine "Bench" (by decide)
  refine ⟨by decide, quiet, (lines "Bench").trans ?_⟩
  rw [quiet]
  decide +kernel

/-- Settings with a line feed in the name: the second line of the name is sent before the job. -/
theorem name_reaches_controller :
    ∃ machine : Machine,
      Machine.ofText "\x7b\"name\":\"x\\nG1 X100 Y100\"\x7d" = .ok machine ∧
      Machine.ofText "\x7b\"name\":\"x\"\x7d" = .ok { machine with name := "x" } ∧
      sentLines ((Job.ofMoves [.home ⟨5, 5⟩ 100]).program machine) = "G1 X100 Y100" ::
        sentLines ((Job.ofMoves [.home ⟨5, 5⟩ 100]).program { machine with name := "x" }) := by
  have reached : strayLines "x\nG1 X100 Y100" = ["G1 X100 Y100"] := by
    rw [strayLines, String.toList_ofList]
    decide
  have quiet : strayLines "x" = [] := strayLines_of_notin "x" (by decide)
  refine ⟨{ Machine.standard with name := "x\nG1 X100 Y100" }, ?_, ?_, ?_⟩
  · unfold Machine.ofText
    rw [Json.readText_ofList]
    decide
  · unfold Machine.ofText
    rw [Json.readText_ofList]
    decide
  · have moves : (Job.ofMoves [.home ⟨5, 5⟩ 100]).moves ≠ [] := List.cons_ne_nil _ _
    rw [sentLines_program, sentLines_program, if_neg moves, if_neg moves, reached, quiet,
      filter_blocks _ _ moves, filter_blocks _ _ moves]
    rfl

end Job

end LaserCutter
