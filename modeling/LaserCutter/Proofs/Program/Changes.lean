import LaserCutter.Proofs.Program.Meaning

/-!
# Words are written where they change

A program holds three kinds of words that stay in force: feed rates, lines about the beam, and the
switching of the air. Each kind is looked at by itself (`feedsOf`, `beamsOf`, `airsOf`). What the
writer remembers is the last word of each kind that it has written (`Modal.Remembers`), so that it
never writes a word which is in force already. After an `M5` it still remembers the beam; the next
line about the beam is new all the same, since it changes the power.
-/

namespace LaserCutter

namespace Block

/-- The feed rate that a block writes. -/
def feed? : Block → Option Int
  | .move _ _ _ feed => feed
  | _ => none

/-- The power that comes with a line about the beam: an `M3`, `M4` or `M5`. -/
def power? : Block → Option Int
  | .beamOn _ power => some power
  | .beamOff => some 0
  | _ => none

/-- The block is a line about the beam. -/
def isBeam (b : Block) : Bool := b.power?.isSome

/-- The air that a block switches on or off. -/
def air? : Block → Option Bool
  | .air on => some on
  | _ => none

/-- A line about the beam says something new after the one before: it is another line, and it is no
`M5` where the power is zero already. -/
structure Turns (prior next : Block) : Prop where
  line : prior.text ≠ next.text
  off : next = .beamOff → prior.power? ≠ some 0

end Block

/-- The feed rates that blocks write. -/
def feedsOf (blocks : List Block) : List Int := blocks.filterMap Block.feed?

/-- The lines about the beam. -/
def beamsOf (blocks : List Block) : List Block := blocks.filter Block.isBeam

/-- How blocks switch the air. -/
def airsOf (blocks : List Block) : List Bool := blocks.filterMap Block.air?

@[simp] theorem feedsOf_append (front back : List Block) :
    feedsOf (front ++ back) = feedsOf front ++ feedsOf back := List.filterMap_append

@[simp] theorem beamsOf_append (front back : List Block) :
    beamsOf (front ++ back) = beamsOf front ++ beamsOf back := List.filter_append ..

@[simp] theorem airsOf_append (front back : List Block) :
    airsOf (front ++ back) = airsOf front ++ airsOf back := List.filterMap_append

theorem toString_injective {n k : Int} (same : toString n = toString k) : n = k := by
  have read := congrArg String.toInt? same
  rw [show (toString n).toInt? = some n from Int.toInt?_repr n,
    show (toString k).toInt? = some k from Int.toInt?_repr k] at read
  exact Option.some.inj read

/-- Lines about the beam are known by their text. -/
theorem Block.eq_of_text_eq {a b : Block} (beamA : a.isBeam) (beamB : b.isBeam)
    (same : a.text = b.text) : a = b := by
  have words {c : Block} (beam : c.isBeam) : c.text.toList.splitOn ' ' = c.words := by
    cases c with
    | beamOn => exact splitOn_text _ nofun trivial
    | beamOff => exact splitOn_text _ nofun trivial
    | _ => contradiction
  have same : a.words = b.words := by rw [← words beamA, ← words beamB, same]
  cases a with
  | beamOn beam power =>
    cases b with
    | beamOn beam' power' =>
      have code : beam = beam' := by cases beam <;> cases beam' <;> simp_all [Block.words, Beam.code]
      have value : power = power' := by
        apply toString_injective
        simpa [Block.words, code, String.toList_inj] using same
      rw [code, value]
    | beamOff => cases beam <;> simp [Block.words, Beam.code] at same
    | _ => contradiction
  | beamOff =>
    cases b with
    | beamOn beam' power' => cases beam' <;> simp [Block.words, Beam.code] at same
    | beamOff => rfl
    | _ => contradiction
  | _ => contradiction

theorem isBeam_of_getLast? {blocks : List Block} {last : Block}
    (isLast : (beamsOf blocks).getLast? = some last) : last.isBeam :=
  (List.mem_filter.mp (List.mem_of_getLast? isLast)).2

namespace Modal

variable {m : Modal} {written : List Block}

/-- What the writer remembers of each kind of word is what it has written last, and nothing so far
was written without a change. The air goes on and off by turns. -/
structure Remembers (m : Modal) (written : List Block) : Prop where
  feed : (feedsOf written).getLast? = m.feed
  feeds : (feedsOf written).IsChain (· ≠ ·)
  beam : ∃ last, (beamsOf written).getLast? = some last ∧ last.power? = m.power ∧
    ∀ beam power, last = .beamOn beam power → m.beam = some beam
  beams : (beamsOf written).IsChain Block.Turns
  air : ∃ times, airsOf written =
    (List.replicate times [true, false]).flatten ++ if m.air then [true] else []

theorem remembers_opening (machine : Machine) :
    Modal.opening.Remembers (openingBlocks machine) where
  feed := rfl
  feeds := .nil
  beam := ⟨.beamOff, rfl, rfl, nofun⟩
  beams := .singleton _
  air := ⟨0, rfl⟩

namespace Remembers

/-- A move writes its feed rate if that is not the last one. -/
theorem go (remembers : m.Remembers written) (move : Move) :
    (m.go move).2.Remembers (written ++ (m.go move).1) := by
  obtain ⟨feed, feeds, beam, beams, air⟩ := remembers
  have noBeam : beamsOf (m.go move).1 = [] := rfl
  have noAir : airsOf (m.go move).1 = [] := rfl
  have rate : feedsOf (m.go move).1 = if m.feed = some (feedPerMinute move.speed) then []
      else [feedPerMinute move.speed] := by
    by_cases known : m.feed = some (feedPerMinute move.speed) <;>
      simp [Modal.go, known, feedsOf, Block.feed?]
  refine ⟨?_, ?_, ?_, ?_, ?_⟩
  · rw [feedsOf_append, rate]
    split
    · rw [List.append_nil, feed]
      assumption
    · exact List.getLast?_concat
  · rw [feedsOf_append, rate]
    split
    · rwa [List.append_nil]
    · refine List.isChain_append.mpr ⟨feeds, .singleton _, ?_⟩
      rintro last isLast _ ⟨⟩ rfl
      rw [feed] at isLast
      contradiction
  · rwa [beamsOf_append, noBeam, List.append_nil]
  · rwa [beamsOf_append, noBeam, List.append_nil]
  · rwa [airsOf_append, noAir, List.append_nil]

/-- A line about the beam that brings another power, or another beam, is new. -/
theorem turn (remembers : m.Remembers written) {next : Block} {beam : Option Beam}
    (isBeam : next.isBeam) (lights : ∀ b power, next = .beamOn b power → beam = some b)
    (differs : ∀ last, (beamsOf written).getLast? = some last → last ≠ next)
    (dark : next = .beamOff → m.power ≠ some 0) :
    ({ m with beam := beam, power := next.power? } : Modal).Remembers (written ++ [next]) := by
  have single : beamsOf [next] = [next] := List.filter_cons_of_pos isBeam
  have quiet : feedsOf [next] = [] ∧ airsOf [next] = [] := by
    cases next with
    | beamOn | beamOff => exact ⟨rfl, rfl⟩
    | _ => contradiction
  obtain ⟨feed, feeds, ⟨last, isLast, power, _⟩, beams, air⟩ := remembers
  refine ⟨?_, ?_, ⟨next, ?_, rfl, lights⟩, ?_, ?_⟩
  · rwa [feedsOf_append, quiet.1, List.append_nil]
  · rwa [feedsOf_append, quiet.1, List.append_nil]
  · rw [beamsOf_append, single]
    exact List.getLast?_concat
  · rw [beamsOf_append, single]
    refine List.isChain_append.mpr ⟨beams, .singleton _, ?_⟩
    rintro last' isLast' _ ⟨⟩
    cases Option.some.inj (isLast.symm.trans isLast')
    refine ⟨fun same => differs last isLast ?_, fun off => power ▸ dark off⟩
    exact Block.eq_of_text_eq (isBeam_of_getLast? isLast) isBeam same
  · rwa [airsOf_append, quiet.2, List.append_nil]

/-- Before a rapid the beam is switched off, unless the power is zero. -/
theorem switchOff (remembers : m.Remembers written) :
    ({ m with power := some 0 } : Modal).Remembers
      (written ++ if m.power = some 0 then [] else [.beamOff]) := by
  by_cases dark : m.power = some 0
  · rw [if_pos dark, List.append_nil, ← dark]
    exact remembers
  · have isBeam : Block.beamOff.isBeam := rfl
    rw [if_neg dark]
    refine remembers.turn isBeam (fun _ _ other => by cases other) ?_ fun _ => dark
    rintro last isLast rfl
    obtain ⟨last, isLast', power, _⟩ := remembers.beam
    cases Option.some.inj (isLast.symm.trans isLast')
    exact dark power.symm

/-- Before a cut the beam is set, unless the beam and its power are in force. -/
theorem switchOn (remembers : m.Remembers written) (beam : Beam) (power : Int) :
    ({ m with beam := some beam, power := some power } : Modal).Remembers
      (written ++ if (if m.beam = some beam then m.power else none) = some power then []
        else [.beamOn beam power]) := by
  by_cases kept : m.beam = some beam ∧ m.power = some power
  · obtain ⟨sameBeam, samePower⟩ := kept
    rw [if_pos sameBeam, if_pos samePower, List.append_nil, ← sameBeam, ← samePower]
    exact remembers
  · have changed : ¬ (if m.beam = some beam then m.power else none) = some power := by
      split
      · rename_i sameBeam
        exact fun samePower => kept ⟨sameBeam, samePower⟩
      · nofun
    have isBeam : (Block.beamOn beam power).isBeam := rfl
    rw [if_neg changed]
    refine remembers.turn isBeam (fun _ _ same => by cases same; rfl) ?_ (fun off => by cases off)
    rintro last isLast rfl
    obtain ⟨last, isLast', power', beam'⟩ := remembers.beam
    cases Option.some.inj (isLast.symm.trans isLast')
    exact kept ⟨beam' beam power rfl, power'.symm⟩

/-- Before a cut the air is switched if it is not as the cut wants it. -/
theorem switchAir (remembers : m.Remembers written) (on : Bool) :
    ({ m with air := on } : Modal).Remembers
      (written ++ if on = m.air then [] else [.air on]) := by
  split
  · rename_i same
    rw [List.append_nil, same]
    exact remembers
  · rename_i changed
    obtain ⟨feed, feeds, beam, beams, times, turns⟩ := remembers
    have noFeed : feedsOf [.air on] = [] := rfl
    have noBeam : beamsOf [.air on] = [] := rfl
    have single : airsOf [.air on] = [on] := rfl
    refine ⟨?_, ?_, ?_, ?_, ?_⟩
    · rwa [feedsOf_append, noFeed, List.append_nil]
    · rwa [feedsOf_append, noFeed, List.append_nil]
    · rwa [beamsOf_append, noBeam, List.append_nil]
    · rwa [beamsOf_append, noBeam, List.append_nil]
    · rw [airsOf_append, single, turns]
      cases on with
      | true =>
        have off : m.air = false := by simpa using changed
        exact ⟨times, by simp [off]⟩
      | false =>
        have on : m.air = true := by simpa using changed
        exact ⟨times + 1, by simp [on, List.replicate_succ']⟩

theorem write (remembers : m.Remembers written) (machine : Machine) (move : Move) :
    (m.write machine move).2.Remembers (written ++ (m.write machine move).1) := by
  unfold Modal.write
  cases move.kind with
  | rapid =>
    have moved := remembers.switchOff.go move
    rwa [List.append_assoc] at moved
  | cut =>
    have moved := ((remembers.switchAir move.airAssist).switchOn (.ofMode move.mode)
      (machine.powerUnits move.power)).go move
    rwa [List.append_assoc, List.append_assoc, ← List.append_assoc _ _ (Modal.go _ _).1] at moved

theorem writeAll (remembers : m.Remembers written) (machine : Machine) (moves : List Move) :
    (m.writeAll machine moves).2.Remembers (written ++ (m.writeAll machine moves).1) := by
  induction moves generalizing m written with
  | nil =>
    rw [show (m.writeAll machine []).1 = [] from rfl, List.append_nil]
    exact remembers
  | cons move rest ih =>
    rw [writeAll_cons, ← List.append_assoc]
    exact ih (remembers.write machine move)

end Remembers

theorem feedsOf_closing (m : Modal) : feedsOf m.closing = [] := by
  unfold closing
  split <;> rfl

theorem beamsOf_closing (m : Modal) : beamsOf m.closing = [.beamOff] := by
  unfold closing
  split <;> rfl

theorem airsOf_closing (m : Modal) : airsOf m.closing = if m.air then [false] else [] := by
  unfold closing
  split <;> rfl

end Modal

/-- No word is written that is in force already. Each feed rate differs from the one before. Each `M3`
or `M4` is another line than the last one about the beam, and up to the closing lines an `M5` follows
none whose power is zero. The air goes on and off by turns, on first, and is off at the end. -/
theorem Job.writes_changes (job : Job) (machine : Machine) :
    let body := (Modal.opening.writeAll machine job.moves).1
    let closing := (Modal.opening.writeAll machine job.moves).2.closing
    let blocks := job.blocks machine
    blocks = (if job.moves = [] then [] else openingBlocks machine ++ body ++ closing) ∧
      (feedsOf blocks).IsChain (· ≠ ·) ∧
      (beamsOf blocks).IsChain (fun prior next => next ≠ .beamOff → prior.text ≠ next.text) ∧
      (beamsOf (openingBlocks machine ++ body)).IsChain
        (fun prior next => next = .beamOff → prior.power? ≠ some 0) ∧
      ∃ times, airsOf blocks = (List.replicate times [true, false]).flatten := by
  intro body closing blocks
  have remembers := (Modal.remembers_opening machine).writeAll machine job.moves
  have parts : blocks =
      if job.moves = [] then [] else openingBlocks machine ++ body ++ closing := by
    simp only [blocks, Job.blocks, List.isEmpty_iff]
    rfl
  refine ⟨parts, ?_, ?_, ?_, ?_⟩
  · rw [parts]
    split
    · exact .nil
    · rw [feedsOf_append, Modal.feedsOf_closing, List.append_nil]
      exact remembers.feeds
  · rw [parts]
    split
    · exact .nil
    · rw [beamsOf_append, Modal.beamsOf_closing]
      refine List.isChain_append.mpr
        ⟨remembers.beams.imp fun _ _ turns _ => turns.line, .singleton _, ?_⟩
      rintro _ _ _ ⟨⟩ lit
      exact absurd rfl lit
  · exact remembers.beams.imp fun _ _ turns => turns.off
  · obtain ⟨times, turns⟩ := remembers.air
    rw [parts]
    split
    · exact ⟨0, rfl⟩
    · rw [airsOf_append, Modal.airsOf_closing, turns]
      split
      · exact ⟨times + 1, by simp [List.replicate_succ']⟩
      · exact ⟨times, by simp⟩

end LaserCutter
