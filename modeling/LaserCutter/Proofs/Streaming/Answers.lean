import LaserCutter.Proofs.Streaming.Wire

/-!
# What answers do to a job

A controller answers each line with `ok` or with an error, but only an `ok` moves a job on: without
a pause or an abort, the lines written are always the first ones, as many as there were `ok`s and a
window more (`Awaits.lines_eq`). So a line that is rejected keeps its place in the window for good,
and once every line written is answered, the job waits just if one of them was rejected
(`waits_iff_rejected`).
-/

namespace LaserCutter

/-- A line is rejected. -/
def Heard.isRejection : Heard → Bool
  | .response (.error _) => true
  | _ => false

/-- How many lines were accepted. -/
def accepted (heard : List Heard) : Nat := heard.count (.response .ack)

/-- How many lines were rejected. -/
def rejected (heard : List Heard) : Nat := heard.countP Heard.isRejection

/-- Events of a user who neither pauses nor aborts the job. Answers come from the controller. -/
def Calm (event : StreamEvent) : Prop := event ≠ .pause ∧ event ≠ .abort ∧ event ≠ .ack

@[simp] theorem accepted_append (front back : List Heard) :
    accepted (front ++ back) = accepted front + accepted back := List.count_append

namespace Streamer

variable {s : Streamer} {event : StreamEvent}

/-- A running job fills its window, or does not mind the event. -/
theorem step_of_running (running : s.phase = .running) (goesOn : event ≠ .pause)
    (keeps : event ≠ .abort) :
    s.step event = fill { s with inFlight := s.inFlight - answered event } ∨
      (answered event = 0 ∧ s.step event = (s, [])) := by
  obtain ⟨phase, lines, sent, inFlight⟩ := s
  cases running
  cases event with
  | pause => exact absurd rfl goesOn
  | abort => exact absurd rfl keeps
  | ack | poll => exact .inl rfl
  | start | resume => exact .inr ⟨rfl, rfl⟩

/-- Filling the window changes nothing about how many lines are done, and completes the job just
when all are. -/
theorem standing_fill (running : s.phase = .running) (bounded : s.sent ≤ s.total) :
    (standingOf s.fill = .running s.fill.1 ∧ s.fill.1.phase = .running ∧
        s.fill.1.lines = s.lines ∧ s.fill.1.done = s.done) ∨
      (standingOf s.fill = .ended (.ok .completed) ∧ s.fill.1.pending = [] ∧
        s.total = s.done) := by
  rcases fill_cases running with ⟨equal, _⟩ | ⟨equal, nothingLeft, answered⟩
  · rw [equal]
    exact .inl ⟨standingOf_open (fillEffects_not_ends s), running, rfl, done_afterBatch s⟩
  · rw [equal]
    refine .inr ⟨standingOf_completed (fillEffects_not_ends s), rfl, ?_⟩
    have size := length_batch s
    rw [← done_afterBatch s]
    simp only [done, afterBatch, total] at nothingLeft answered size bounded ⊢
    omega

/-- An answer makes one more line done. -/
theorem done_answered (coherent : s.Coherent) (running : s.phase = .running) :
    Streamer.done { s with inFlight := s.inFlight - answered event } = s.done + answered event := by
  obtain ⟨outstanding, _⟩ := coherent.filled running
  have counted := coherent.inFlight_le_sent
  have single : answered event ≤ 1 := by cases event <;> simp [answered]
  simp only [done]
  omega

/-- A running job goes on with one more line done for each answer, or it is completed when the last
line is answered. -/
theorem standing_of_running (coherent : s.Coherent) (running : s.phase = .running)
    (goesOn : event ≠ .pause) (keeps : event ≠ .abort) :
    sends (s.step event).2 ++ (s.step event).1.pending = s.pending ∧
      ((standingOf (s.step event) = .running (s.step event).1 ∧
          (s.step event).1.phase = .running ∧ (s.step event).1.lines = s.lines ∧
          (s.step event).1.done = s.done + answered event) ∨
        (standingOf (s.step event) = .ended (.ok .completed) ∧ (s.step event).1.pending = [] ∧
          s.total = s.done + answered event)) := by
  rcases step_of_running running goesOn keeps with filled | ⟨silent, kept⟩
  · rw [filled, ← done_answered coherent running]
    have bounded : Streamer.sent { s with inFlight := s.inFlight - answered event } ≤ s.total :=
      coherent.sent_le_total
    exact ⟨(fill_sends (by exact running)).1, standing_fill running bounded⟩
  · rw [kept, silent]
    exact ⟨rfl, .inl ⟨rfl, running, rfl, rfl⟩⟩

end Streamer

variable {program : String} {before activity : Activity} {heard : List Heard} {s : Streamer}
  {units : List WireUnit} {next standing : Standing} {event : StreamEvent}

/-- A job that nobody pauses or aborts: the lines written and the lines pending are the program, and
the lines done are the accepted ones. -/
structure Awaits (program : String) (activity : Activity) (s : Streamer) : Prop where
  coherent : s.Coherent
  running : s.phase = .running
  total : s.lines = sentLines program
  lines : linesIn activity.wrote ++ s.pending = sentLines program
  done : s.done = accepted activity.heard

/-- What the activity of a job says of how it stands if nobody pauses or aborts it. -/
def Tallied (program : String) (activity : Activity) : Standing → Prop
  | .running s => Awaits program activity s
  | .ended (.ok .completed) =>
    linesIn activity.wrote = sentLines program ∧
      accepted activity.heard = (sentLines program).length
  | .ended (.ok .disconnected) | .ended (.error _) =>
    linesIn activity.wrote <+: (sentLines program).take (accepted activity.heard + window)
  | .ended (.ok .aborted) | .ended (.ok .nothingToSend) => False

/-- The lines written are the first ones: as many as were accepted, and a window more. -/
theorem Awaits.lines_eq (awaits : Awaits program activity s) :
    linesIn activity.wrote = (sentLines program).take (accepted activity.heard + window) := by
  obtain ⟨coherent, running, total, lines, done⟩ := awaits
  obtain ⟨_, full⟩ := coherent.filled running
  have counted := coherent.inFlight_le_sent
  have bounded := coherent.sent_le_total
  have whole : linesIn activity.wrote ++ s.pending = s.lines.take s.sent ++ s.pending := by
    rw [lines, ← total]
    exact (List.take_append_drop _ _).symm
  have written : linesIn activity.wrote = s.lines.take s.sent := List.append_cancel_right whole
  rw [written, ← done, ← total, List.take_eq_take_iff]
  simp only [Streamer.done, Streamer.total] at full bounded ⊢
  omega

/-- However a job stands, no more lines are written than were accepted and a window more. -/
theorem Tallied.bounded (tallied : Tallied program activity standing) :
    linesIn activity.wrote <+: (sentLines program).take (accepted activity.heard + window) := by
  cases standing with
  | running s =>
    simp only [Awaits.lines_eq tallied, List.prefix_rfl]
  | ended result =>
    match result, tallied with
    | .ok .completed, ⟨all, taken⟩ =>
      simp only [all, taken, List.take_of_length_le (Nat.le_add_right _ _), List.prefix_rfl]
    | .ok .disconnected, front => exact front
    | .error _, front => exact front

/-- An event that leaves a job alone moves it on by the answer that it is. -/
theorem tallied_step (tallied : Tallied program activity (.running s)) (goesOn : event ≠ .pause)
    (keeps : event ≠ .abort) (answers : accepted heard = Streamer.answered event) :
    Tallied program (activity ++ ⟨unitsOf (s.step event).2, heard, none⟩)
      (standingOf (s.step event)) := by
  obtain ⟨coherent, running, total, lines, done⟩ := tallied
  obtain ⟨sent, cases⟩ := Streamer.standing_of_running coherent running goesOn keeps
  have all : linesIn (activity.wrote ++ unitsOf (s.step event).2) ++ (s.step event).1.pending =
      sentLines program := by
    rw [linesIn_append, linesIn_unitsOf, List.append_assoc, sent, lines]
  have taken : s.done + Streamer.answered event = accepted (activity.heard ++ heard) := by
    rw [accepted_append, answers, done]
  rcases cases with ⟨standing, again, same, doneNext⟩ | ⟨standing, nothing, totalDone⟩
  · rw [standing]
    exact ⟨Streamer.coherent_step coherent event, again, same.trans total, all,
      doneNext.trans taken⟩
  · rw [standing]
    rw [nothing, List.append_nil] at all
    refine ⟨all, ?_⟩
    rw [← total]
    exact (totalDone.trans taken).symm

/-- What is neither a line nor an `ok` makes no difference. -/
theorem tallied_quiet (tallied : Tallied program activity (.running s))
    (lineless : linesIn units = []) (silent : accepted heard = 0) :
    Tallied program (activity ++ ⟨units, heard, none⟩) (.running s) := by
  obtain ⟨coherent, running, total, lines, done⟩ := tallied
  refine ⟨coherent, running, total, ?_, ?_⟩
  · rw [Activity.wrote_append, linesIn_append, lineless, List.append_nil, lines]
  · rw [Activity.heard_append, accepted_append, silent, done]
    rfl

theorem tallied_plan (tallied : Tallied program activity (.running s))
    (plan : Plan Calm s heard units next) :
    Tallied program (activity ++ ⟨units, heard, none⟩) next := by
  cases plan with
  | control event calm =>
    obtain ⟨goesOn, keeps, silent⟩ := calm
    refine tallied_step tallied goesOn keeps ?_
    cases event <;> first | rfl | exact absurd rfl silent
  | answer => exact tallied_step tallied nofun nofun rfl
  | passOver r other =>
    refine tallied_quiet tallied rfl (List.count_eq_zero.mpr ?_)
    simpa using Ne.symm other
  | askStatus => exact tallied_quiet tallied rfl rfl
  | giveUp => exact (tallied_quiet tallied rfl rfl).bounded
  | disconnect => exact (tallied_quiet tallied rfl rfl).bounded

theorem Tallied.carried (before : Activity)
    (planned : Tallied program (before ++ ⟨units, heard, none⟩) next)
    (carried : Carried heard units next activity standing) :
    Tallied program (before ++ activity) standing := by
  cases carried with
  | whole => exact planned
  | cut out unit rest part split =>
    have front : before.wrote ++ out <+: before.wrote ++ units := by
      rw [split]
      exact (List.prefix_append_right_inj _).mpr (List.prefix_append _ _)
    exact (front.filterMap _).trans planned.bounded

theorem kept_tallied (program : String) : Turn.Kept Calm (Tallied program) :=
  fun before _ _ _ _ _ _ tallied plan carried => .carried before (tallied_plan tallied plan) carried

theorem tallied_begin (filled : sentLines program ≠ []) (channel : Channel)
    (interval : Option Nat) :
    Tallied program (Session.begin channel program interval).activity
      (Session.begin channel program interval).state.standing := by
  have carried := Turn.carries_begin filled channel interval
  have coherent := Streamer.coherent_step Streamer.coherent_idle (.start program)
  rw [Streamer.start_filled filled] at carried coherent
  generalize full : (⟨.running, sentLines program, 0, 0⟩ : Streamer) = f at carried coherent
  have running : f.phase = .running := by rw [← full]
  have bounded : f.sent ≤ f.total := by rw [← full]; exact Nat.zero_le _
  have pending : f.pending = sentLines program := by rw [← full]; rfl
  have done : f.done = 0 := by rw [← full]; rfl
  have sent := (Streamer.fill_sends running).1
  have first : Tallied program ⟨unitsOf f.fill.2, [], none⟩ (standingOf f.fill) := by
    rcases Streamer.standing_fill running bounded with
      ⟨standing, again, lines, doneNext⟩ | ⟨_, _, total⟩
    · rw [standing]
      refine ⟨coherent, again, by rw [lines, ← full], ?_, doneNext.trans done⟩
      rw [linesIn_unitsOf, sent, pending]
    · rw [done, ← full] at total
      exact absurd (List.eq_nil_of_length_eq_zero total) filled
  have tallied := Tallied.carried .none first carried
  rwa [Activity.none_append] at tallied

/-- A job that waits has lines that are not accepted. -/
theorem Awaits.accepted_lt (awaits : Awaits program activity s) :
    accepted activity.heard < (sentLines program).length := by
  obtain ⟨outstanding, full⟩ := awaits.coherent.filled awaits.running
  have counted := awaits.coherent.inFlight_le_sent
  have bounded := awaits.coherent.sent_le_total
  rw [← awaits.done, ← awaits.total]
  simp only [Streamer.done, Streamer.total] at full bounded ⊢
  omega

/-- A job that waits with every line answered has had a line rejected. -/
theorem Awaits.rejected_pos (awaits : Awaits program activity s)
    (answered : (linesIn activity.wrote).length =
      accepted activity.heard + rejected activity.heard) : 0 < rejected activity.heard := by
  have left := awaits.accepted_lt
  rw [awaits.lines_eq, List.length_take] at answered
  simp only [window] at answered
  omega

/-- Once every line written is answered, a job that nobody pauses or aborts, and whose channel does
not fail, waits just if a line was rejected. It then waits for good: whatever happens next, no
further line is written and the job is not completed unless one more line is accepted, and none is
left to be answered. -/
theorem waits_iff_rejected (channel : Channel) (program : String) (interval : Option Nat)
    (happenings : List Happening)
    (calm : ∀ event, .control event ∈ happenings → Calm event) :
    let turn := (Session.begin channel program interval).run happenings
    let heard := turn.activity.heard
    (linesIn turn.activity.wrote).length = accepted heard + rejected heard →
      turn.state ≠ .over (.ok .disconnected) → (∀ e, turn.state ≠ .over (.error e)) →
        ((∃ session, turn.state = .running session) ↔ 0 < rejected heard) ∧
          (0 < rejected heard → ∀ more, (∀ event, .control event ∈ more → Calm event) →
            accepted (turn.run more).activity.heard = accepted heard →
              linesIn (turn.run more).activity.wrote <+: linesIn turn.activity.wrote ∧
                (turn.run more).state ≠ .over (.ok .completed)) := by
  intro turn heard answered connected unfailed
  by_cases empty : sentLines program = []
  · have nothing : turn = ⟨.none, .over (.ok .nothingToSend)⟩ := by
      simp only [turn, Turn.begin_empty empty]
      exact Turn.run_over rfl happenings
    have noRejection : rejected heard = 0 := by simp only [heard, nothing]; rfl
    rw [noRejection, nothing]
    exact ⟨⟨nofun, nofun⟩, nofun⟩
  have tallied : Tallied program turn.activity turn.state.standing :=
    Turn.run_keeps (kept_tallied program) happenings calm (tallied_begin empty channel interval)
  have waits : 0 < rejected heard → ∃ session, turn.state = .running session := by
    intro refused
    cases state : turn.state with
    | running session => exact ⟨session, rfl⟩
    | _ result =>
      rw [state] at tallied connected unfailed
      match result, tallied with
      | .ok .completed, ⟨all, taken⟩ =>
        rw [all, ← taken] at answered
        exact absurd refused (by simp only [heard] at answered ⊢; omega)
      | .ok .disconnected, _ => exact absurd rfl connected
      | .error e, _ => exact absurd rfl (unfailed e)
  refine ⟨⟨?_, waits⟩, fun refused more calmMore still => ?_⟩
  · rintro ⟨session, state⟩
    rw [state] at tallied
    exact Awaits.rejected_pos tallied answered
  · obtain ⟨session, state⟩ := waits refused
    have later := Turn.run_keeps (kept_tallied program) more calmMore tallied
    rw [state] at tallied
    refine ⟨?_, fun ended => ?_⟩
    · rw [Awaits.lines_eq tallied, ← still]
      exact later.bounded
    · rw [ended] at later
      have left := Awaits.accepted_lt tallied
      rw [← later.2, still] at left
      exact Nat.lt_irrefl _ left

/-- The first three of four lines are rejected: all are answered, the fourth is not written, and the
job waits. -/
theorem waits_iff_rejected_window :
    let turn := (Session.begin .fresh "A\nB\nC\nD\n" none).run
      [.received "error:1\nerror:2\nerror:3\n".toUTF8.data.toList]
    (linesIn turn.activity.wrote).length = 3 ∧ rejected turn.activity.heard = 3 ∧
      ∃ session, turn.state = .running session := by
  intro turn
  have written : (linesIn turn.activity.wrote).length = 3 := by decide
  have refused : rejected turn.activity.heard = 3 := by decide
  have granted : accepted turn.activity.heard = 0 := by decide
  obtain ⟨waits, _⟩ := waits_iff_rejected .fresh "A\nB\nC\nD\n" none
    [.received "error:1\nerror:2\nerror:3\n".toUTF8.data.toList] (by simp)
    (by rw [written, granted, refused]) nofun nofun
  exact ⟨written, refused, waits.mpr (by rw [refused]; decide)⟩

/-- A job whose first three lines are rejected never gets to its fourth: every line written is
answered, and the job waits. -/
theorem rejected_lines_block :
    let turn := (Session.begin .fresh "A\nB\nC\nD\n" none).run
      [.received "error:1\nerror:2\nerror:3\n".toUTF8.data.toList]
    turn.activity.wrote = [.line "A", .line "B", .line "C"] ∧
      turn.activity.heard = [.response (.error "error:1"), .response (.error "error:2"),
        .response (.error "error:3")] ∧
      ∃ session, turn.state = .running session := by
  intro turn
  exact ⟨by decide, by decide, _, rfl⟩

end LaserCutter
