import LaserCutter.Proofs.Program.Reader

/-!
# A program does what its moves say

The writer leaves out every word that it believes to be in force. Here a machine reads the lines
that it writes, and the two are compared: `Modal.Matches` ties what the writer remembers to what is
in force on the machine, every move keeps it, and each move of the job comes out as one stroke
under the feed rate, power, beam and air of that move (`Stroke.Performs`).
-/

namespace LaserCutter

/-- The stroke takes the head where the move goes, under what the move asks for. -/
structure Stroke.Performs (machine : Machine) (move : Move) (stroke : Stroke) : Prop where
  kind : stroke.kind = move.kind
  x : stroke.x = some (coordinateText move.stop.x)
  y : stroke.y = some (coordinateText move.stop.y)
  feed : stroke.under.feed = some (feedPerMinute move.speed)
  rapid_power : move.kind = .rapid → stroke.under.power = some 0
  cut_power : move.kind = .cut → stroke.under.power = some (machine.powerUnits move.power)
  cut_air : move.kind = .cut → stroke.under.air = move.airAssist
  image_beam : move.kind = .cut → machine.powerUnits move.power ≠ 0 → move.mode = .image →
    stroke.under.beam = some .dynamic
  vector_beam : move.kind = .cut → machine.powerUnits move.power ≠ 0 → move.mode = .vector →
    stroke.under.beam = some .constant

namespace Modal

variable {m : Modal} {w : InForce} {move : Move} {machine : Machine}

/-- What the writer remembers is in force on the machine. The beam counts only under power: after a
beam-off the writer still remembers the beam, but also that the power is zero. -/
structure Matches (m : Modal) (w : InForce) : Prop where
  feed : ∀ feed, m.feed = some feed → w.feed = some feed
  power : ∀ power, m.power = some power → w.power = some power
  beam : ∀ beam power, m.beam = some beam → m.power = some power → power ≠ 0 →
    w.beam = some beam
  air : w.air = m.air

/-- One step of `writeAll`, with the blocks so far in reverse. -/
private def pile (machine : Machine) (state : List (List Block) × Modal) (move : Move) :
    List (List Block) × Modal :=
  ((state.2.write machine move).1 :: state.1, (state.2.write machine move).2)

private theorem foldl_pile (machine : Machine) (moves : List Move) (blocks : List (List Block))
    (m : Modal) :
    moves.foldl (pile machine) (blocks, m) =
      ((moves.foldl (pile machine) ([], m)).1 ++ blocks,
        (moves.foldl (pile machine) ([], m)).2) := by
  induction moves generalizing blocks m with
  | nil => rfl
  | cons move rest ih =>
    simp only [List.foldl_cons]
    rw [pile, ih, pile, ih [_]]
    simp

theorem writeAll_cons (m : Modal) (machine : Machine) (move : Move) (rest : List Move) :
    m.writeAll machine (move :: rest) =
      ((m.write machine move).1 ++ ((m.write machine move).2.writeAll machine rest).1,
        ((m.write machine move).2.writeAll machine rest).2) := by
  have unfolded (m : Modal) (moves : List Move) : m.writeAll machine moves =
      ((moves.foldl (pile machine) ([], m)).1.reverse.flatten,
        (moves.foldl (pile machine) ([], m)).2) := rfl
  rw [unfolded, unfolded, List.foldl_cons, pile, foldl_pile]
  simp

/-- The stroke of a move under given words. -/
def strokeOf (move : Move) (under : InForce) : Stroke :=
  ⟨move.kind, some (coordinateText move.stop.x), some (coordinateText move.stop.y), under⟩

theorem coordinateText_unspaced (v : Float) : ' ' ∉ (coordinateText v).toList :=
  Number.notin_fixed rfl _ _

/-- The block of a move brings its feed rate into force and leaves the other words alone. -/
theorem readLines_go (matched : m.Matches w) (move : Move) :
    w.readLines ((m.go move).1.map Block.text) =
        ({ w with feed := some (feedPerMinute move.speed) },
          [strokeOf move { w with feed := some (feedPerMinute move.speed) }]) ∧
      (m.go move).2.Matches { w with feed := some (feedPerMinute move.speed) } := by
  constructor
  · have unspaced (word : Option Int) : (Block.move move.kind (coordinateText move.stop.x)
        (coordinateText move.stop.y) word).Unspaced :=
      ⟨coordinateText_unspaced _, coordinateText_unspaced _⟩
    by_cases known : m.feed = some (feedPerMinute move.speed)
    · have inForce := matched.feed _ known
      simp [go, known, InForce.readLines, InForce.readLine_text _ _ (unspaced _), InForce.after,
        InForce.strokes, strokeOf, ← inForce]
    · simp [go, known, InForce.readLines, InForce.readLine_text _ _ (unspaced _), InForce.after,
        InForce.strokes, strokeOf]
  · exact ⟨fun feed equal => equal, matched.power, matched.beam, matched.air⟩

/-- The power is zero after the blocks before a rapid, written or not. -/
theorem readLines_off (matched : m.Matches w) :
    ∃ dark : InForce,
      w.readLines ((if m.power = some 0 then [] else [Block.beamOff]).map Block.text) = (dark, []) ∧
        dark.power = some 0 ∧ ({ m with power := some 0 } : Modal).Matches dark := by
  have noBeam (dark : InForce) : ∀ beam power, m.beam = some beam → some (0 : Int) = some power →
      power ≠ 0 → dark.beam = some beam := by
    intro beam power _ equal lit
    cases equal
    exact absurd rfl lit
  by_cases known : m.power = some 0
  · refine ⟨w, by simp [known, InForce.readLines], matched.power 0 known, ?_⟩
    exact ⟨matched.feed, known ▸ matched.power, noBeam w, matched.air⟩
  · refine ⟨w.after .beamOff, ?_, rfl, ?_⟩
    · simp [known, InForce.readLines, InForce.readLine_text w .beamOff trivial, InForce.strokes]
    · exact ⟨matched.feed, fun power equal => equal, noBeam _, matched.air⟩

/-- The air is right after the block that switches it, written or not. -/
theorem readLines_air (matched : m.Matches w) (on : Bool) :
    w.readLines ((if on = m.air then [] else [Block.air on]).map Block.text) =
        ({ w with air := on }, []) ∧
      ({ m with air := on } : Modal).Matches { w with air := on } := by
  refine ⟨?_, ⟨matched.feed, matched.power, matched.beam, rfl⟩⟩
  by_cases same : on = m.air
  · simp [same, InForce.readLines, ← matched.air]
  · simp [same, InForce.readLines, InForce.readLine_text w (.air on) trivial, InForce.after,
      InForce.strokes]

/-- The power is right after the block that sets it, written or not, and so is the beam under power.
A power that is remembered under another beam does not count. -/
theorem readLines_on (matched : m.Matches w) (beam : Beam) (power : Int) :
    ∃ lit : InForce,
      w.readLines ((if (if m.beam = some beam then m.power else none) = some power then []
          else [Block.beamOn beam power]).map Block.text) = (lit, []) ∧
        lit.power = some power ∧ (power ≠ 0 → lit.beam = some beam) ∧ lit.air = w.air ∧
        ({ m with beam := some beam, power := some power } : Modal).Matches lit := by
  by_cases kept : m.beam = some beam ∧ m.power = some power
  · obtain ⟨sameBeam, samePower⟩ := kept
    refine ⟨w, by simp [sameBeam, samePower, InForce.readLines], matched.power _ samePower,
      matched.beam _ _ sameBeam samePower, rfl, ?_⟩
    exact ⟨matched.feed, samePower ▸ matched.power, sameBeam ▸ samePower ▸ matched.beam,
      matched.air⟩
  · have written : ¬ (if m.beam = some beam then m.power else none) = some power := by
      intro unchanged
      split at unchanged
      · rename_i sameBeam
        exact kept ⟨sameBeam, unchanged⟩
      · contradiction
    refine ⟨{ w with beam := some beam, power := some power }, ?_, rfl, fun _ => rfl, rfl, ?_⟩
    · simp [written, InForce.readLines, InForce.readLine_text w (.beamOn beam power) trivial,
        InForce.after, InForce.strokes]
    · exact ⟨matched.feed, fun _ equal => equal, fun _ _ equal _ _ => equal, matched.air⟩

/-- A rapid comes out as a stroke without power. -/
theorem readLines_rapid (matched : m.Matches w) (rapid : move.kind = .rapid) :
    ∃ now stroke, w.readLines ((m.rapid move).1.map Block.text) = (now, [stroke]) ∧
      stroke.Performs machine move ∧ (m.rapid move).2.Matches now := by
  obtain ⟨dark, offRead, darkPower, darkMatched⟩ := readLines_off matched
  obtain ⟨goRead, goMatched⟩ := readLines_go darkMatched move
  have noCut : move.kind ≠ .cut := by simp [rapid]
  let now : InForce := { dark with feed := some (feedPerMinute move.speed) }
  refine ⟨now, strokeOf move now, ?_, ?_, goMatched⟩
  · simp only [Modal.rapid, List.map_append, InForce.readLines_append]
    rw [offRead, goRead]
    rfl
  · exact {
      kind := rfl
      x := rfl
      y := rfl
      feed := rfl
      rapid_power := fun _ => darkPower
      cut_power := fun cut => absurd cut noCut
      cut_air := fun cut => absurd cut noCut
      image_beam := fun cut => absurd cut noCut
      vector_beam := fun cut => absurd cut noCut }

/-- A cut comes out as a stroke with its own air, power and beam. -/
theorem readLines_cut (matched : m.Matches w) (cut : move.kind = .cut) :
    ∃ now stroke, w.readLines ((m.cut machine move).1.map Block.text) = (now, [stroke]) ∧
      stroke.Performs machine move ∧ (m.cut machine move).2.Matches now := by
  obtain ⟨airRead, airMatched⟩ := readLines_air matched move.airAssist
  obtain ⟨lit, onRead, litPower, litBeam, litAir, litMatched⟩ :=
    readLines_on airMatched (Beam.ofMode move.mode) (machine.powerUnits move.power)
  obtain ⟨goRead, goMatched⟩ := readLines_go litMatched move
  have noRapid : move.kind ≠ .rapid := by simp [cut]
  let now : InForce := { lit with feed := some (feedPerMinute move.speed) }
  refine ⟨now, strokeOf move now, ?_, ?_, goMatched⟩
  · simp only [Modal.cut, List.map_append, InForce.readLines_append]
    rw [airRead, onRead, goRead]
    rfl
  · exact {
      kind := rfl
      x := rfl
      y := rfl
      feed := rfl
      rapid_power := fun rapid => absurd rapid noRapid
      cut_power := fun _ => litPower
      cut_air := fun _ => litAir
      image_beam := fun _ burning image => by
        rw [image] at litBeam
        exact litBeam burning
      vector_beam := fun _ burning vector => by
        rw [vector] at litBeam
        exact litBeam burning }

/-- One move comes out as one stroke, and the writer and the machine still agree after it. -/
theorem readLines_write (matched : m.Matches w) (machine : Machine) (move : Move) :
    ∃ now stroke, w.readLines ((m.write machine move).1.map Block.text) = (now, [stroke]) ∧
      stroke.Performs machine move ∧ (m.write machine move).2.Matches now := by
  unfold write
  cases kind : move.kind with
  | rapid => exact readLines_rapid matched kind
  | cut => exact readLines_cut matched kind

/-- All moves come out as their strokes, in order. -/
theorem readLines_writeAll (machine : Machine) (moves : List Move) (matched : m.Matches w) :
    ∃ now strokes,
      w.readLines ((m.writeAll machine moves).1.map Block.text) = (now, strokes) ∧
      List.Forall₂ (fun move stroke => stroke.Performs machine move) moves strokes ∧
      (m.writeAll machine moves).2.Matches now := by
  induction moves generalizing m w with
  | nil => exact ⟨w, [], rfl, .nil, matched⟩
  | cons move rest ih =>
    obtain ⟨between, stroke, firstRead, performs, betweenMatched⟩ :=
      readLines_write matched machine move
    obtain ⟨now, strokes, restRead, restPerforms, nowMatched⟩ := ih betweenMatched
    refine ⟨now, stroke :: strokes, ?_, .cons performs restPerforms, ?_⟩
    · rw [writeAll_cons, List.map_append, InForce.readLines_append, firstRead, restRead]
      rfl
    · rw [writeAll_cons]
      exact nowMatched

/-- The closing blocks switch beam and air off and take the head to the origin. -/
theorem readLines_closing (matched : m.Matches w) :
    ∃ last : InForce,
      w.readLines (m.closing.map Block.text) =
        (last, [⟨.rapid, some "0", some "0", last⟩]) ∧
      last.beam = none ∧ last.power = some 0 ∧ last.air = false := by
  have unspaced : (Block.move .rapid "0" "0" none).Unspaced := ⟨by decide, by decide⟩
  cases air : m.air with
  | true =>
    refine ⟨(w.after .beamOff).after (.air false), ?_, rfl, rfl, rfl⟩
    simp [closing, air, InForce.readLines, InForce.readLine_text _ .beamOff trivial,
      InForce.readLine_text _ (.air false) trivial, InForce.readLine_text _ _ unspaced,
      InForce.readLine_text _ (.comment "End of job") trivial, InForce.strokes, InForce.after]
  | false =>
    refine ⟨w.after .beamOff, ?_, rfl, rfl, matched.air.trans air⟩
    simp [closing, air, InForce.readLines, InForce.readLine_text _ .beamOff trivial,
      InForce.readLine_text _ _ unspaced,
      InForce.readLine_text _ (.comment "End of job") trivial, InForce.strokes, InForce.after]

end Modal

/-- The opening blocks switch the beam off. They leave the air alone, so it has to be off. -/
theorem readLines_opening (machine : Machine) (w : InForce) (quiet : w.air = false) :
    ∃ opened : InForce,
      w.readLines ((openingBlocks machine).map Block.text) = (opened, []) ∧
      Modal.opening.Matches opened := by
  refine ⟨w.after .beamOff, ?_, ?_⟩
  · simp [openingBlocks, InForce.readLines, InForce.readLine_text _ (.comment _) trivial,
      InForce.readLine_text _ .absolute trivial, InForce.readLine_text _ .beamOff trivial,
      InForce.strokes, InForce.after]
  · refine ⟨?_, fun _ equal => equal, ?_, quiet⟩
    · intro feed unset
      contradiction
    · intro beam power off
      contradiction

/-- A machine whose air is off reads the lines of a job as one stroke for every move, in order, each
under the feed rate, power, beam and air of its move; then everything is off and the head goes to the
origin. Whatever feed rate, power and beam the machine had before does not matter. -/
theorem Job.program_performs_moves (job : Job) (machine : Machine) (moving : job.moves ≠ [])
    (feed power : Option Int) (beam : Option Beam) :
    let start : InForce := ⟨feed, power, beam, false⟩
    let written := Modal.opening.writeAll machine job.moves
    let lines := (job.blocks machine).map Block.text
    let before := (openingBlocks machine ++ written.1).map Block.text
    let closing := ["M5 S0"] ++ (if written.2.air then ["M9"] else []) ++
      ["G0 X0 Y0", "; End of job"]
    lines = before ++ closing ∧
      List.Forall₂ (fun move stroke => stroke.Performs machine move) job.moves
        (start.readLines before).2 ∧
      ∃ last : InForce,
        start.readLines lines =
          (last, (start.readLines before).2 ++ [⟨.rapid, some "0", some "0", last⟩]) ∧
        last.beam = none ∧ last.power = some 0 ∧ last.air = false := by
  intro start written lines before closing
  obtain ⟨opened, openingRead, openedMatched⟩ := readLines_opening machine start rfl
  obtain ⟨now, strokes, bodyRead, performs, nowMatched⟩ :=
    Modal.readLines_writeAll machine job.moves openedMatched
  obtain ⟨last, closingRead, off⟩ := Modal.readLines_closing nowMatched
  have beforeRead : start.readLines before = (now, strokes) := by
    rw [show before = (openingBlocks machine).map Block.text ++ written.1.map Block.text from
      List.map_append, InForce.readLines_append, openingRead, bodyRead]
    rfl
  have closingText : written.2.closing.map Block.text = closing := by
    cases air : written.2.air <;> simp [closing, Modal.closing, air, Block.text, MoveKind.code]
  have split : lines = before ++ closing := by
    rw [← closingText, ← List.map_append]
    simp only [lines, Job.blocks, List.isEmpty_iff, if_neg moving]
    rfl
  refine ⟨split, by rwa [beforeRead], last, ?_, off⟩
  rw [split, InForce.readLines_append, beforeRead, ← closingText, closingRead]

/-- A rapid, an engraving cut with air and a plain cut give four strokes, the last one to the
origin. -/
theorem program_performs_moves_engraving :
    let job := Job.ofMoves [.home ⟨1, 2⟩ 100,
      { Move.home .origin 10 with kind := .cut, power := 80, mode := .image, airAssist := true },
      { Move.home .origin 10 with kind := .cut, power := 80 }]
    let start : InForce := ⟨none, none, none, false⟩
    job.moves ≠ [] ∧ (start.readLines ((job.blocks .standard).map Block.text)).2.length = 4 := by
  intro job start
  have moving : job.moves ≠ [] := List.cons_ne_nil _ _
  obtain ⟨_, performs, last, read, _⟩ := job.program_performs_moves .standard moving none none none
  refine ⟨moving, ?_⟩
  rw [read, List.length_append, ← performs.length_eq]
  rfl

end LaserCutter
