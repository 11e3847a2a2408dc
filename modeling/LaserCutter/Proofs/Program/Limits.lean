import LaserCutter.Proofs.Program.Changes
import LaserCutter.Proofs.Scan.Power
import LaserCutter.Scene.Reading

/-!
# The limits of the words of a program

The powers and feed rates that a program writes are those of its moves (`Job.mem_powersOf`,
`Job.mem_feedsOf`), and each move has its speed and its power from the machine or from a layer that
emits (`Move.Rated`). So the words keep within what the machine takes if the settings of the layers
do. Nothing checks these settings, and a layer without speed comes out as a feed rate of zero.
-/

namespace LaserCutter

open Number

/-- The powers that blocks write. -/
def powersOf (blocks : List Block) : List Int := blocks.filterMap Block.power?

@[simp] theorem powersOf_append (front back : List Block) :
    powersOf (front ++ back) = powersOf front ++ powersOf back := List.filterMap_append

/-- The power in force during a move. -/
def Move.powerWord (move : Move) (machine : Machine) : Int :=
  match move.kind with
  | .rapid => 0
  | .cut => machine.powerUnits move.power

theorem Move.powerWord_eq (move : Move) (machine : Machine) :
    move.powerWord machine = if move.isCut then machine.powerUnits move.power else 0 := by
  unfold powerWord isCut
  cases move.kind <;> rfl

namespace Modal

variable {m : Modal} {written : List Block}

/-- The words that a move writes are its own. -/
theorem words_of_mem_write {machine : Machine} {move : Move} {block : Block}
    (member : block ∈ (m.write machine move).1) :
    (∀ feed, block.feed? = some feed → feed = feedPerMinute move.speed) ∧
      ∀ power, block.power? = some power → power = move.powerWord machine := by
  have going {m : Modal} (member : block ∈ (m.go move).1) :
      (∀ feed, block.feed? = some feed → feed = feedPerMinute move.speed) ∧
        ∀ power, block.power? ≠ some power := by
    rw [List.mem_singleton.mp member]
    refine ⟨fun feed word => ?_, fun power word => (by cases word)⟩
    by_cases known : m.feed = some (feedPerMinute move.speed)
    · simp [Block.feed?, known] at word
    · simpa [Block.feed?, known, eq_comm] using word
  unfold write at member
  unfold Move.powerWord
  cases kind : move.kind with
  | rapid =>
    rw [kind] at member
    rcases List.mem_append.mp member with off | moves
    · obtain ⟨_, off⟩ := List.mem_ite_nil_left.mp off
      rw [List.mem_singleton.mp off]
      exact ⟨fun feed word => (by cases word), fun power word => (Option.some.inj word).symm⟩
    · exact ⟨(going moves).1, fun power word => absurd word ((going moves).2 power)⟩
  | cut =>
    rw [kind] at member
    rcases List.mem_append.mp member with before | moves
    · rcases List.mem_append.mp before with air | on
      · obtain ⟨_, air⟩ := List.mem_ite_nil_left.mp air
        rw [List.mem_singleton.mp air]
        exact ⟨fun feed word => (by cases word), fun power word => (by cases word)⟩
      · obtain ⟨_, on⟩ := List.mem_ite_nil_left.mp on
        rw [List.mem_singleton.mp on]
        exact ⟨fun feed word => (by cases word), fun power word => (Option.some.inj word).symm⟩
    · exact ⟨(going moves).1, fun power word => absurd word ((going moves).2 power)⟩

/-- After a move its words are in force. -/
theorem write_in_force (m : Modal) (machine : Machine) (move : Move) :
    (m.write machine move).2.feed = some (feedPerMinute move.speed) ∧
      (m.write machine move).2.power = some (move.powerWord machine) := by
  unfold write Move.powerWord
  cases move.kind with
  | rapid => exact ⟨rfl, rfl⟩
  | cut => exact ⟨rfl, rfl⟩

namespace Remembers

theorem feed_mem (remembers : m.Remembers written) {feed : Int} (known : m.feed = some feed) :
    feed ∈ feedsOf written := List.mem_of_getLast? (remembers.feed.trans known)

theorem power_mem (remembers : m.Remembers written) {power : Int} (known : m.power = some power) :
    power ∈ powersOf written := by
  obtain ⟨last, isLast, word, _⟩ := remembers.beam
  exact List.mem_filterMap.mpr
    ⟨last, List.mem_of_mem_filter (List.mem_of_getLast? isLast), word.trans known⟩

/-- The words of one kind that moves write are theirs, if this holds of each move by itself. -/
theorem mem_writeAll {machine : Machine} {word : Block → Option Int} {value : Move → Int}
    (own : ∀ {m : Modal} {move block}, block ∈ (m.write machine move).1 →
      ∀ w, word block = some w → w = value move)
    (known : ∀ {m : Modal} {written}, m.Remembers written → ∀ move,
      value move ∈ (written ++ (m.write machine move).1).filterMap word)
    (remembers : m.Remembers written) (moves : List Move) (w : Int) :
    w ∈ (written ++ (m.writeAll machine moves).1).filterMap word ↔
      w ∈ written.filterMap word ∨ ∃ move ∈ moves, w = value move := by
  induction moves generalizing m written with
  | nil =>
    rw [show (m.writeAll machine []).1 = [] from rfl]
    simp
  | cons move rest ih =>
    have step : w ∈ (written ++ (m.write machine move).1).filterMap word ↔
        w ∈ written.filterMap word ∨ w = value move := by
      refine ⟨fun member => ?_, ?_⟩
      · rw [List.filterMap_append] at member
        refine (List.mem_append.mp member).imp_right fun new => ?_
        obtain ⟨block, among, is⟩ := List.mem_filterMap.mp new
        exact own among w is
      · rintro (before | rfl)
        · rw [List.filterMap_append]
          exact List.mem_append_left _ before
        · exact known remembers move
    rw [writeAll_cons, ← List.append_assoc, ih (remembers.write machine move), step, or_assoc]
    simp

end Remembers

end Modal

namespace Job

variable (job : Job) (machine : Machine)

theorem blocks_of_moving (moving : job.moves ≠ []) : job.blocks machine =
    openingBlocks machine ++ (Modal.opening.writeAll machine job.moves).1 ++
      (Modal.opening.writeAll machine job.moves).2.closing := by
  simp only [blocks, List.isEmpty_iff, if_neg moving]

/-- The feed rates of a program are those of the moves. -/
theorem mem_feedsOf (feed : Int) : feed ∈ feedsOf (job.blocks machine) ↔
    ∃ move ∈ job.moves, feed = feedPerMinute move.speed := by
  by_cases moving : job.moves = []
  · simp [blocks, moving, feedsOf]
  · have written := (Modal.remembers_opening machine).mem_writeAll
      (fun member => (Modal.words_of_mem_write member).1)
      (fun remembers move => (remembers.write machine move).feed_mem
        (Modal.write_in_force _ machine move).1) job.moves feed
    have opening : feedsOf (openingBlocks machine) = [] := rfl
    rw [job.blocks_of_moving machine moving, feedsOf_append, Modal.feedsOf_closing, List.append_nil]
    refine written.trans ?_
    rw [show (openingBlocks machine).filterMap Block.feed? = [] from opening]
    simp

/-- The powers of a program are those of the moves, and zero at its ends. -/
theorem mem_powersOf (power : Int) : power ∈ powersOf (job.blocks machine) ↔
    job.moves ≠ [] ∧ (power = 0 ∨ ∃ move ∈ job.moves, power = move.powerWord machine) := by
  by_cases moving : job.moves = []
  · simp [blocks, moving, powersOf]
  · have written := (Modal.remembers_opening machine).mem_writeAll
      (fun member => (Modal.words_of_mem_write member).2)
      (fun remembers move => (remembers.write machine move).power_mem
        (Modal.write_in_force _ machine move).2) job.moves power
    have opening : powersOf (openingBlocks machine) = [0] := rfl
    have closing (m : Modal) : powersOf m.closing = [0] := by
      unfold Modal.closing
      split <;> rfl
    rw [job.blocks_of_moving machine moving, powersOf_append, closing, List.mem_append]
    rw [show (openingBlocks machine).filterMap Block.power? = [0] from opening] at written
    rw [powersOf, written]
    simp only [List.mem_singleton, ne_eq, moving, not_false_iff, true_and]
    exact or_iff_left_of_imp .inl

/-- Each move is made at its own feed rate, whether that is written or in force already. What
follows is at most the closing travel. -/
theorem strokes_fed : ∃ strokes closing,
    (InForce.readLines ⟨none, none, none, false⟩ ((job.blocks machine).map Block.text)).2 =
      strokes ++ closing ∧ closing.length ≤ 1 ∧
    List.Forall₂ (fun move stroke => stroke.under.feed = some (feedPerMinute move.speed))
      job.moves strokes := by
  by_cases moving : job.moves = []
  · refine ⟨[], [], ?_, Nat.zero_le 1, moving ▸ .nil⟩
    simp [blocks, moving, InForce.readLines]
  · obtain ⟨opened, opening, matched⟩ := readLines_opening machine ⟨none, none, none, false⟩ rfl
    obtain ⟨now, strokes, body, performs, matched⟩ :=
      Modal.readLines_writeAll machine job.moves matched
    obtain ⟨last, closing, _⟩ := Modal.readLines_closing matched
    refine ⟨strokes, _, ?_, (List.length_singleton (a := ⟨.rapid, some "0", some "0", last⟩)).le,
      performs.imp fun _ _ performs => performs.feed⟩
    rw [job.blocks_of_moving machine moving, List.map_append, List.map_append,
      InForce.readLines_append, InForce.readLines_append, opening, body, closing]
    rfl

end Job

/-! ### Settings that the machine takes -/

namespace Machine

theorem maxPower_pos {text : String} {machine : Machine} (read : Machine.ofText text = .ok machine) :
    0 < machine.maxPower := by
  unfold ofText at read
  split at read
  · contradiction
  · unfold validate at read
    split at read
    · contradiction
    · split at read
      · contradiction
      · rename_i lit
        cases read
        simpa using lit

variable {machine : Machine} {percent : Float}

/-- From no power to full power the units do not leave the range of the device. Should full power be
an infinity, then any power counts as all of it. -/
theorem powerUnits_range (lit : 0 < machine.maxPower) (bounded : UpTo 100 percent) :
    0 ≤ machine.powerUnits percent ∧ machine.powerUnits percent ≤ machine.powerUnits 100 := by
  obtain ⟨a, stands, low, high⟩ := bounded
  have hundred : (0 : ℚ) < (100 : ℕ) := by norm_num
  unfold powerUnits
  rcases nonneg_cases (float_le_of_lt lit) with ⟨units, top, _⟩ | infinite
  · have positive := (float_lt_iff_of_stands stands_zero top).mp lit
    have scaled : 0 ≤ percent * machine.maxPower :=
      pack_nonneg (stands.mul top) (nearest_nonneg _ (mul_nonneg low positive.le))
    have order := mul_le_mul_of_stands stands stands_full top low high positive.le
    have nonneg := div_nonneg_of_stands scaled stands_full hundred
    exact ⟨roundToInt64_nonneg nonneg,
      roundToInt64_mono nonneg (div_le_div_of_stands scaled order stands_full hundred)⟩
  · have full : roundToInt64 (100 * machine.maxPower / 100) = int64Max :=
      roundToInt64_of_infinite (exact_infinity_div
        (exact_mul_infinity stands_full hundred infinite) stands_full hundred)
    have most : (0 : ℤ) ≤ int64Max := by decide
    rw [full]
    rcases low.eq_or_lt with rfl | positive
    · obtain ⟨s, zero⟩ := stands.exists_zero
      rw [roundToInt64_of_sign?_none (sign?_zero_mul_infinity_div zero infinite stands_full hundred)]
      exact ⟨le_rfl, most⟩
    · rw [roundToInt64_of_infinite (exact_infinity_div
        (exact_mul_infinity stands positive infinite) stands_full hundred)]
      exact ⟨most, le_rfl⟩

end Machine

/-- A feed rate is at least one exactly if the speed does not round to zero. -/
theorem one_le_feedPerMinute_iff (speed : Float) : 1 ≤ feedPerMinute speed ↔ 0.5 ≤ speed * 60 := by
  have half : numberPlace ((1 : ℤ) - 1 / 2) = numberPlace (1 / 2) := by norm_num
  rw [feedPerMinute, le_roundToInt64_iff le_rfl (by decide), le_iff_place, half]
  constructor
  · rintro ⟨p, atScaled, le⟩
    exact ⟨_, place?_of_stands stands_half, p, atScaled, le⟩
  · rintro ⟨q, atHalf, p, atScaled, le⟩
    cases (place?_of_stands stands_half).symm.trans atHalf
    exact ⟨p, atScaled, le⟩

theorem speed_pos {speed : Float} (fast : 0.5 ≤ speed * 60) : 0 < speed := by
  have scale : Stands .binary64 (exact 60) (60 : ℕ) := stands_of_byte 60 (by decide)
  exact pos_of_half_le scale (by norm_num) fast

namespace Job

variable (job : Job) {machine : Machine}

/-- Only the cuts can take the powers of a program beyond the range of the device. -/
theorem powers_in_range_iff (lit : 0 < machine.maxPower) :
    (∀ power ∈ powersOf (job.blocks machine), 0 ≤ power ∧ power ≤ machine.powerUnits 100) ↔
      ∀ cut ∈ job.moves, cut.isCut →
        0 ≤ machine.powerUnits cut.power ∧ machine.powerUnits cut.power ≤ machine.powerUnits 100 := by
  obtain ⟨low, high⟩ := Machine.powerUnits_range lit ⟨0, stands_zero, le_rfl, by norm_num⟩
  have dark : 0 ≤ machine.powerUnits 100 := low.trans high
  constructor
  · intro words cut member isCut
    have word := words _ ((job.mem_powersOf machine _).mpr
      ⟨List.ne_nil_of_mem member, .inr ⟨cut, member, rfl⟩⟩)
    rwa [cut.powerWord_eq, if_pos isCut] at word
  · intro cuts power written
    obtain ⟨_, rfl | ⟨move, member, rfl⟩⟩ := (job.mem_powersOf machine power).mp written
    · exact ⟨le_rfl, dark⟩
    · rw [move.powerWord_eq]
      split
      · exact cuts move member ‹_›
      · exact ⟨le_rfl, dark⟩

theorem feeds_in_range_iff (machine : Machine) : (∀ feed ∈ feedsOf (job.blocks machine), 1 ≤ feed) ↔
    ∀ move ∈ job.moves, 0.5 ≤ move.speed * 60 := by
  simp only [job.mem_feedsOf machine, ← one_le_feedPerMinute_iff]
  constructor
  · exact fun words move member => words _ ⟨move, member, rfl⟩
  · rintro moves _ ⟨move, member, rfl⟩
    exact moves move member

end Job

/-! ### Where the settings of the moves come from -/

/-- Where a move has its speed and its power from. Rapids travel without power; a cut belongs to a
layer that emits. -/
inductive Move.Rated (machine : Machine) (layers : List Layer) (move : Move) : Prop
  | travel (kind : move.kind = .rapid) (speed : move.speed = machine.travelSpeed)
  | cut (layer : Layer) (member : layer ∈ layers) (emits : layer.settings.emits)
    (kind : move.kind = .cut) (speed : move.speed = layer.settings.speed)
    (power : move.power = layer.settings.power ∨ ScanPower layer.settings.power move.power)

/-- Only a path is cut at the power of the pass itself. -/
theorem Leaf.powers_route (reader : PictureReader) (leaf : Leaf) (pass : Pass) :
    (leaf.route reader pass).Emits fun move =>
      move.isCut → move.power = pass.power ∨ ScanPower pass.power move.power := by
  cases leaf with
  | path path =>
    refine path.emits_route (fun stop position move member isCut => ?_)
      fun stop position move member _ => ?_
    · rw [Pass.eq_rapidMove_of_mem member] at isCut
      contradiction
    · rw [List.mem_singleton.mp member]
      exact .inl rfl
  | raster image parent =>
    exact fun position leg driven move member _ =>
      .inr (image.powers_route reader pass parent position leg driven move member)

theorem Layer.rated_route (reader : PictureReader) {layer : Layer} {layers : List Layer}
    (member : layer ∈ layers) (emits : layer.settings.emits) (machine : Machine) (number : Nat)
    (leaf : Leaf) :
    (leaf.route reader (layer.pass machine.travelSpeed number)).Emits
      (Move.Rated machine layers) := by
  intro position leg driven move among
  have stamped := layer.stamped_route reader machine number leaf position leg driven move among
  have power := leaf.powers_route reader _ position leg driven move among
  cases kind : move.kind with
  | rapid => exact .travel kind (stamped.rapid kind).2
  | cut => exact .cut layer member emits kind (stamped.cut kind) (power (by simp [Move.isCut, kind]))

namespace Scene

variable {reader : PictureReader} {scene : Scene} {machine : Machine} {job : Job}

theorem rated_job (compiled : scene.job reader machine = .ok job) :
    ∀ move ∈ job.moves, move.Rated machine scene.layers := by
  obtain ⟨leg, driven, rfl⟩ := scene.job_eq reader machine job compiled
  rw [leg_eq] at driven
  intro move member
  rcases List.mem_append.mp member with before | home
  · refine Route.emits_chain (fun route among => ?_) .origin leg driven move before
    obtain ⟨⟨layer, number⟩, pass, rfl⟩ := List.mem_map.mp among
    obtain ⟨layer', kept, numbered⟩ := List.mem_flatMap.mp pass
    obtain ⟨_, _, same⟩ := List.mem_map.mp numbered
    cases same
    obtain ⟨member, emits⟩ := List.mem_filter.mp kept
    rw [Layer.passRoute_eq]
    refine Route.emits_chain fun route among => ?_
    obtain ⟨twig, _, rfl⟩ := List.mem_map.mp among
    exact Layer.rated_route reader member emits machine _ twig.leaf
  · split at home
    · contradiction
    · rw [List.mem_singleton.mp home]
      exact .travel rfl rfl

/-- Layers within full power give words within full power. -/
theorem powers_in_range (compiled : scene.job reader machine = .ok job) (lit : 0 < machine.maxPower)
    (percent : ∀ layer ∈ scene.layers, layer.settings.emits → UpTo 100 layer.settings.power) :
    ∀ cut ∈ job.moves, cut.isCut →
      0 ≤ machine.powerUnits cut.power ∧ machine.powerUnits cut.power ≤ machine.powerUnits 100 := by
  intro cut member isCut
  apply Machine.powerUnits_range lit
  cases rated_job compiled cut member with
  | travel kind => simp [Move.isCut, kind] at isCut
  | cut layer among emits _ _ power =>
    have bounded := percent layer among emits
    rcases power with same | scan
    · rwa [same]
    · generalize cut.power = power at scan
      cases scan with
      | lead => exact ⟨0, stands_zero, le_rfl, by norm_num⟩
      | burn value => exact upTo_steppedPower value bounded

/-- Layers that move faster than the feed rate is rounded to zero give moves that do. -/
theorem speeds_in_range (compiled : scene.job reader machine = .ok job)
    (travel : 0.5 ≤ machine.travelSpeed * 60)
    (speed : ∀ layer ∈ scene.layers, layer.settings.emits → 0.5 ≤ layer.settings.speed * 60) :
    ∀ move ∈ job.moves, 0.5 ≤ move.speed * 60 := by
  intro move member
  cases rated_job compiled move member with
  | travel _ same => rwa [same]
  | cut layer among emits _ same => exact same ▸ speed layer among emits

/-- The words of a program are in range exactly if those of its moves are: a power from zero to full
power, and a speed that is not rounded to no feed rate. All of them are if the layers that emit have
a power in percent, and if they and the travel are fast enough. Then the feed rate in force during
each move is that of a positive speed, the one that its duration is reckoned from. -/
theorem words_in_range (settings : String) (read : Machine.ofText settings = .ok machine)
    (compiled : scene.job reader machine = .ok job) :
    let blocks := job.blocks machine
    let full := machine.powerUnits 100
    ((∀ power ∈ powersOf blocks, 0 ≤ power ∧ power ≤ full) ↔
        ∀ cut ∈ job.moves, cut.isCut →
          0 ≤ machine.powerUnits cut.power ∧ machine.powerUnits cut.power ≤ full) ∧
      ((∀ feed ∈ feedsOf blocks, 1 ≤ feed) ↔ ∀ move ∈ job.moves, 0.5 ≤ move.speed * 60) ∧
      ((∀ layer ∈ scene.layers, layer.settings.emits →
          0 ≤ layer.settings.power ∧ layer.settings.power ≤ 100) →
        ∀ power ∈ powersOf blocks, 0 ≤ power ∧ power ≤ full) ∧
      (0.5 ≤ machine.travelSpeed * 60 →
        (∀ layer ∈ scene.layers, layer.settings.emits → 0.5 ≤ layer.settings.speed * 60) →
        (∀ feed ∈ feedsOf blocks, 1 ≤ feed) ∧
          ∃ strokes closing,
            (InForce.readLines ⟨none, none, none, false⟩ (blocks.map Block.text)).2 =
              strokes ++ closing ∧ closing.length ≤ 1 ∧
            List.Forall₂ (fun move stroke =>
              (0 < move.speed ∧ move.duration = move.length / move.speed) ∧
                stroke.under.feed = some (feedPerMinute move.speed)) job.moves strokes) := by
  intro blocks full
  have lit := Machine.maxPower_pos read
  have powers := job.powers_in_range_iff lit
  have feeds := job.feeds_in_range_iff machine
  refine ⟨powers, feeds, fun percent => ?_, fun travel speed => ?_⟩
  · refine powers.mpr (powers_in_range compiled lit fun layer member emits => ?_)
    exact (upTo_iff stands_full).mpr (percent layer member emits)
  · have fast := speeds_in_range compiled travel speed
    obtain ⟨strokes, closing, read, few, fed⟩ := job.strokes_fed machine
    refine ⟨feeds.mpr fast, strokes, closing, read, few, ?_⟩
    rw [List.forall₂_and_left]
    refine ⟨fun move member => ?_, fed⟩
    have positive := speed_pos (fast move member)
    exact ⟨positive, by rw [Move.duration, if_pos positive]⟩

/-- A layer that cuts at half of full power, and the machine that no setting is given for. -/
theorem words_in_range_half :
    let layer : Layer := ⟨"cut", "", { LayerSettings.standard with power := 50 },
      [.path (.polyline [⟨1, 0⟩, ⟨2, 0⟩] false)]⟩
    let scene : Scene := ⟨[layer], .standard⟩
    Machine.ofText "\x7b\x7d" = .ok .standard ∧
      ∃ job, scene.job Image.decodePng .standard = .ok job ∧ job.moves.length = 4 ∧
        (∀ power ∈ powersOf (job.blocks .standard),
          0 ≤ power ∧ power ≤ Machine.standard.powerUnits 100) ∧
        (∀ feed ∈ feedsOf (job.blocks .standard), 1 ≤ feed) ∧
        ∀ move ∈ job.moves, 0.5 ≤ move.speed * 60 := by
  intro layer scene
  have read : Machine.ofText "\x7b\x7d" = .ok .standard := by
    unfold Machine.ofText
    rw [Json.readText_ofList]
    decide +kernel
  have percent : 0 ≤ layer.settings.power ∧ layer.settings.power ≤ 100 := by decide
  have speed : 0.5 ≤ layer.settings.speed * 60 := by decide
  have size : (scene.job Image.decodePng .standard).toOption.map
      (fun job => job.moves.length) = some 4 := by
    decide +kernel
  cases compiled : scene.job Image.decodePng .standard with
  | error fault => simp [compiled, Except.toOption] at size
  | ok job =>
    obtain ⟨_, fast, powers, feeds⟩ := words_in_range _ read compiled
    obtain ⟨written, _⟩ := feeds (by decide) (by simpa [scene] using fun _ => speed)
    exact ⟨read, job, rfl, by simpa [compiled, Except.toOption] using size,
      powers (by simpa [scene] using fun _ => percent), written, fast.mp written⟩

/-- The text of a scene whose layer has no speed, and more than full power. -/
def excessText : String :=
  "\x7b\"layers\":[\x7b\"name\":\"a\",\"settings\":\x7b\"power\":150,\"speed\":0\x7d," ++
    "\"items\":[\x7b\"type\":\"path\",\"start\":\x7b\"x\":1,\"y\":0\x7d," ++
    "\"segments\":[\x7b\"kind\":\"line\",\"to\":\x7b\"x\":2,\"y\":0\x7d\x7d]\x7d]\x7d]\x7d"

/-- A scene that is read and compiles, whose program writes a power beyond full power and no feed
rate. -/
theorem excess_written :
    ∃ scene machine job, Scene.ofText excessText = .ok scene ∧
      Machine.ofText "\x7b\x7d" = .ok machine ∧ scene.job Image.decodePng machine = .ok job ∧
      powersOf (job.blocks machine) = [0, 1500, 0, 0] ∧ machine.powerUnits 100 = 1000 ∧
      feedsOf (job.blocks machine) = [6000, 0, 6000] := by
  have compiled : (Machine.ofText "\x7b\x7d").toOption.bind (fun machine =>
      (Scene.ofText excessText).toOption.bind fun scene =>
        (scene.job Image.decodePng machine).toOption.map fun job =>
          (powersOf (job.blocks machine), machine.powerUnits 100, feedsOf (job.blocks machine))) =
      some ([0, 1500, 0, 0], 1000, [6000, 0, 6000]) := by
    unfold Machine.ofText Scene.ofText excessText
    rw [Json.readText_ofList, ← String.ofList_append, ← String.ofList_append,
      Json.readText_ofList]
    decide +kernel
  cases settings : Machine.ofText "\x7b\x7d" with
  | error fault => simp [settings, Except.toOption] at compiled
  | ok machine =>
    cases read : Scene.ofText excessText with
    | error fault => simp [settings, read, Except.toOption] at compiled
    | ok scene =>
      cases driven : scene.job Image.decodePng machine with
      | error fault => simp [settings, read, driven, Except.toOption] at compiled
      | ok job =>
        have words := by simpa [settings, read, driven, Except.toOption] using compiled
        exact ⟨scene, machine, job, rfl, rfl, driven, words⟩

end Scene

end LaserCutter
