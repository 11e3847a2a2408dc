import LaserCutter.Machine
import LaserCutter.Program.Block

/-!
# Writing a job as a program

The writer remembers the feed rate, power, air and beam that are in force and writes a word only
when it changes. A change of beam forgets the power, so that the next cut writes it again.
-/

namespace LaserCutter

/-- The words in force; `none` where the next use has to write the word. -/
structure Modal where
  feed : Option Int
  power : Option Int
  air : Bool
  beam : Option Beam
  deriving DecidableEq, Repr

namespace Modal

/-- After the opening blocks: the beam is off, nothing else is set. -/
def opening : Modal := ⟨none, some 0, false, none⟩

/-- The block of a move, with the feed rate if it changes. -/
def go (m : Modal) (move : Move) : List Block × Modal :=
  let feed := feedPerMinute move.speed
  let word := if m.feed = some feed then none else some feed
  let block := .move move.kind (coordinateText move.stop.x) (coordinateText move.stop.y) word
  ([block], { m with feed := some feed })

/-- A rapid turns the beam off first. -/
def rapid (m : Modal) (move : Move) : List Block × Modal :=
  let off := if m.power = some 0 then [] else [.beamOff]
  let (blocks, m) := { m with power := some 0 }.go move
  (off ++ blocks, m)

/-- A cut switches air, beam and power first. -/
def cut (m : Modal) (machine : Machine) (move : Move) : List Block × Modal :=
  let air := if move.airAssist = m.air then [] else [.air move.airAssist]
  let beam := Beam.ofMode move.mode
  let known := if m.beam = some beam then m.power else none
  let power := machine.powerUnits move.power
  let on := if known = some power then [] else [.beamOn beam power]
  let (blocks, m) :=
    { m with air := move.airAssist, beam := some beam, power := some power }.go move
  (air ++ on ++ blocks, m)

def write (m : Modal) (machine : Machine) (move : Move) : List Block × Modal :=
  match move.kind with
  | .rapid => m.rapid move
  | .cut => m.cut machine move

/-- The blocks of moves, and the words in force after them. -/
def writeAll (m : Modal) (machine : Machine) (moves : List Move) : List Block × Modal :=
  let (blocks, m) := moves.foldl
    (fun (blocks, m) move =>
      let (more, m) := m.write machine move
      (more :: blocks, m)) ([], m)
  (blocks.reverse.flatten, m)

/-- Beam and air off, and back to the origin. -/
def closing (m : Modal) : List Block :=
  [.beamOff] ++ (if m.air then [.air false] else []) ++
    [.move .rapid "0" "0" none, .comment "End of job"]

end Modal

def openingBlocks (machine : Machine) : List Block :=
  [.comment "laser-job G-code", .comment ("Machine: " ++ machine.name), .absolute, .beamOff]

/-- The blocks of a job; a job without moves has none. -/
def Job.blocks (job : Job) (machine : Machine) : List Block :=
  if job.moves.isEmpty then []
  else
    let (body, m) := Modal.opening.writeAll machine job.moves
    openingBlocks machine ++ body ++ m.closing

/-- The text of a program: every block is a line. -/
def programText (blocks : List Block) : String := String.join (blocks.map fun b => b.text ++ "\n")

def Job.program (job : Job) (machine : Machine) : String := programText (job.blocks machine)

end LaserCutter
