import LaserCutter.Proofs.Streaming.Step

/-!
# The closed loop of streamer and controller

The lines that the streamer sends wait in a queue to the controller, the controller takes them in
order and gives one answer for each line it has processed, and the answers wait in a queue back.
Anything may move at any time, and the user may pause, resume or poll in between.

Two facts carry everything (`ClosedLoop.Balanced`): each unanswered line of the streamer is either
under way, or waiting at the controller, or has its answer under way; and what the controller has,
what is under way and what is not yet sent are together the lines of the program.
-/

namespace LaserCutter

/-- A streamer and a controller with the queues between them; the oldest line comes first. -/
structure ClosedLoop where
  streamer : Streamer
  /-- Lines under way to the controller. -/
  outbound : List String
  /-- Lines that the controller has received and not yet processed. -/
  waiting : List String
  processed : List String
  /-- Answers under way to the streamer; they are all alike. -/
  answers : Nat
  deriving DecidableEq, Repr

namespace ClosedLoop

/-- What can happen next. -/
inductive Act where
  /-- The oldest line under way reaches the controller. -/
  | deliver
  /-- The controller processes a line and answers it. -/
  | process
  /-- The oldest answer reaches the streamer. -/
  | answer
  | pause
  | resume
  | poll
  deriving DecidableEq, Repr

/-- The streamer takes an event, and what it sends is under way. -/
def take (l : ClosedLoop) (event : StreamEvent) : ClosedLoop × List Effect :=
  let (next, effects) := l.streamer.step event
  ({ l with streamer := next, outbound := l.outbound ++ sends effects }, effects)

/-- What an act leads to, with the effects of the streamer; `none` where it cannot happen. -/
def act (l : ClosedLoop) : Act → Option (ClosedLoop × List Effect)
  | .deliver =>
    match l.outbound with
    | [] => none
    | line :: rest => some ({ l with outbound := rest, waiting := l.waiting ++ [line] }, [])
  | .process =>
    match l.waiting with
    | [] => none
    | line :: rest =>
      some ({ l with waiting := rest, processed := l.processed ++ [line],
                     answers := l.answers + 1 }, [])
  | .answer =>
    match l.answers with
    | 0 => none
    | more + 1 => some ({ l with answers := more }.take .ack)
  | .pause => some (l.take .pause)
  | .resume => some (l.take .resume)
  | .poll => some (l.take .poll)

/-- Nothing under way and no job. -/
def rest : ClosedLoop := ⟨.idle, [], [], [], 0⟩

/-- The loop once the job of a program has begun. -/
def begin (program : String) : ClosedLoop := (rest.take (.start program)).1

/-- The loops that a job of the program can come to. -/
inductive Reachable (program : String) : ClosedLoop → Prop where
  | begin : Reachable program (begin program)
  | next {l l' : ClosedLoop} {a : Act} {effects : List Effect} (reached : Reachable program l)
      (acted : l.act a = some (l', effects)) : Reachable program l'

/-- The lines that the controller has received, the first one first. -/
def received (l : ClosedLoop) : List String := l.processed ++ l.waiting

/-- How many lines and answers are outstanding. -/
def outstanding (l : ClosedLoop) : Nat := l.outbound.length + l.waiting.length + l.answers

variable {program : String} {l l' : ClosedLoop} {a : Act} {event : StreamEvent} {effects : List Effect}

/-- Every unanswered line is somewhere in the loop, and the loop holds the lines of the program in
order. -/
structure Balanced (program : String) (l : ClosedLoop) : Prop where
  coherent : l.streamer.Coherent
  counted : l.outstanding = l.streamer.inFlight
  lines : l.received ++ l.outbound ++ l.streamer.pending = sentLines program

/-- The events of a job under way: no abort, and no other job. -/
def Harmless (event : StreamEvent) : Prop :=
  event ≠ .abort ∧ ∀ program, event ≠ .start program

/-- A harmless event does nothing to an idle streamer. -/
theorem Harmless.step_of_idle (harmless : Harmless event) (coherent : l.streamer.Coherent)
    (free : l.streamer.phase = .idle) : l.streamer.step event = (.idle, []) :=
  Streamer.step_of_idle coherent free fun program equal => absurd equal (harmless.2 program)

/-- A harmless event sends lines off the front of what is pending. An answer has to be accounted for:
the lines in the loop are then one fewer than the unanswered ones. -/
theorem balanced_take (harmless : Harmless event) (coherent : l.streamer.Coherent)
    (counted : l.outstanding + Streamer.answered event = l.streamer.inFlight)
    (lines : l.received ++ l.outbound ++ l.streamer.pending = sentLines program) :
    Balanced program (l.take event).1 := by
  have sent : sends (l.streamer.step event).2 ++ (l.streamer.step event).1.pending =
      l.streamer.pending := by
    by_cases free : l.streamer.phase = .idle
    · rw [harmless.step_of_idle coherent free, coherent.empty free]
      rfl
    · rcases Streamer.step_of_active coherent free event with
        ⟨_, _, sent, _⟩ | ⟨next, front, split, sent, _⟩ | ⟨abort, _⟩
      · exact sent
      · rw [split, next, sends_append, sent]
        simp [Effect.line?, Streamer.pending, Streamer.idle]
      · exact absurd abort harmless.1
  have inFlight := Streamer.inFlight_step coherent harmless.1 harmless.2
  refine ⟨Streamer.coherent_step coherent event, ?_, ?_⟩
  · simp only [take, outstanding, List.length_append] at counted ⊢
    omega
  · rw [← lines, ← sent]
    simp [take, received]

theorem balanced_begin (program : String) : Balanced program (begin program) := by
  have coherent := Streamer.coherent_step Streamer.coherent_idle (.start program)
  by_cases empty : sentLines program = []
  · have still : begin program = rest := by simp [begin, take, rest, Streamer.start_empty empty]
    rw [still]
    exact ⟨Streamer.coherent_idle, rfl, by rw [empty]; rfl⟩
  · obtain ⟨_, _, sent, inFlight, _⟩ :=
      Streamer.step_of_start Streamer.coherent_idle rfl empty
    refine ⟨coherent, ?_, ?_⟩
    · simpa [begin, take, rest, outstanding] using inFlight.symm
    · simpa [begin, take, rest, received] using sent

/-- What an act comes to: a line moves on, or the streamer takes a harmless event. -/
inductive ActCase (l : ClosedLoop) : ClosedLoop → List Effect → Prop where
  | delivered (line : String) (more : List String) (outbound : l.outbound = line :: more) :
      ActCase l { l with outbound := more, waiting := l.waiting ++ [line] } []
  | processed (line : String) (more : List String) (waiting : l.waiting = line :: more) :
      ActCase l { l with waiting := more, processed := l.processed ++ [line],
                         answers := l.answers + 1 } []
  | taken (event : StreamEvent) (more : Nat) (harmless : Harmless event)
      (answers : l.answers = more + Streamer.answered event) :
      ActCase l ({ l with answers := more }.take event).1 ({ l with answers := more }.take event).2

theorem act_cases (acted : l.act a = some (l', effects)) : ActCase l l' effects := by
  cases a with
  | deliver =>
    simp only [act] at acted
    split at acted
    · contradiction
    · rename_i line more outbound
      cases acted
      exact .delivered line more outbound
  | process =>
    simp only [act] at acted
    split at acted
    · contradiction
    · rename_i line more waiting
      cases acted
      exact .processed line more waiting
  | answer =>
    simp only [act] at acted
    split at acted
    · contradiction
    · rename_i more answers
      cases acted
      exact .taken .ack more ⟨nofun, nofun⟩ answers
  | pause =>
    cases acted
    exact .taken .pause l.answers ⟨nofun, nofun⟩ rfl
  | resume =>
    cases acted
    exact .taken .resume l.answers ⟨nofun, nofun⟩ rfl
  | poll =>
    cases acted
    exact .taken .poll l.answers ⟨nofun, nofun⟩ rfl

/-- Every act keeps the balance. -/
theorem balanced_act (balanced : Balanced program l) (acted : l.act a = some (l', effects)) :
    Balanced program l' := by
  obtain ⟨coherent, counted, lines⟩ := balanced
  cases act_cases acted with
  | delivered line more outbound =>
    simp only [outstanding, received, outbound, List.length_cons] at counted lines
    refine ⟨coherent, ?_, by simpa [received] using lines⟩
    simp only [outstanding, List.length_append, List.length_cons, List.length_nil]
    omega
  | processed line more waiting =>
    simp only [outstanding, received, waiting, List.length_cons] at counted lines
    refine ⟨coherent, ?_, by simpa [received] using lines⟩
    simp only [outstanding]
    omega
  | taken event more harmless answers =>
    refine balanced_take harmless coherent ?_ lines
    simp only [outstanding] at counted ⊢
    omega

theorem balanced_reachable (reached : Reachable program l) : Balanced program l := by
  induction reached with
  | begin => exact balanced_begin program
  | next _ acted ih => exact balanced_act ih acted

/-- Once the streamer is idle, nothing is outstanding and every line is processed. -/
theorem processed_of_idle (balanced : Balanced program l) (free : l.streamer.phase = .idle) :
    l.processed = sentLines program := by
  have empty := balanced.coherent.empty free
  have nothing : l.outstanding = 0 := by rw [balanced.counted, empty]; rfl
  have waiting : l.waiting = [] := List.eq_nil_of_length_eq_zero (by
    unfold outstanding at nothing; omega)
  have outbound : l.outbound = [] := List.eq_nil_of_length_eq_zero (by
    unfold outstanding at nothing; omega)
  rw [← balanced.lines, received, waiting, outbound, empty]
  simp [Streamer.pending, Streamer.idle]

/-- Only a job that comes to its end reports completion. -/
theorem idle_of_completed (coherent : l.streamer.Coherent) (harmless : Harmless event)
    (completed : .completed ∈ (l.take event).2) : (l.take event).1.streamer.phase = .idle := by
  simp only [take] at completed ⊢
  by_cases free : l.streamer.phase = .idle
  · rw [harmless.step_of_idle coherent free] at completed
    contradiction
  · rcases Streamer.step_of_active coherent free event with
      ⟨_, _, _, goesOn⟩ | ⟨next, _⟩ | ⟨abort, _⟩
    · exact absurd trivial (goesOn _ completed)
    · rw [next]
      rfl
    · exact absurd abort harmless.1

/-- Completion is reported only after the controller has processed every line. -/
theorem processed_of_completed (balanced : Balanced program l)
    (acted : l.act a = some (l', effects)) (completed : .completed ∈ effects) :
    l.processed = sentLines program := by
  have after := balanced_act balanced acted
  cases act_cases acted with
  | delivered => contradiction
  | processed => contradiction
  | taken event more harmless =>
    -- Taking an event leaves the controller alone, so what holds after it held before.
    have processed := processed_of_idle after
      (idle_of_completed balanced.coherent harmless completed)
    exact processed

/-- A job is not complete as it begins. -/
theorem begin_not_completed (program : String) : .completed ∉ (rest.take (.start program)).2 := by
  intro completed
  by_cases empty : sentLines program = []
  · simp [take, rest, Streamer.start_empty empty] at completed
  · obtain ⟨_, _, _, _, goesOn⟩ := Streamer.step_of_start Streamer.coherent_idle rfl empty
    exact goesOn _ completed trivial

/-- While something is outstanding, the loop can move without the user. -/
theorem moves_of_outstanding (pending : 0 < l.outstanding) :
    ∃ a ∈ [Act.deliver, .process, .answer], (l.act a).isSome := by
  unfold outstanding at pending
  cases outbound : l.outbound with
  | cons line rest => exact ⟨.deliver, by simp, by simp [act, outbound]⟩
  | nil =>
    cases waiting : l.waiting with
    | cons line rest => exact ⟨.process, by simp, by simp [act, waiting]⟩
    | nil =>
      cases answers : l.answers with
      | succ more => exact ⟨.answer, by simp, by simp [act, answers]⟩
      | zero => simp [outbound, waiting, answers] at pending

/-- Flow control of one job, whatever the order in which lines, answers and the user move. What is
outstanding is what the streamer counts as unanswered, and it fits the window; the controller receives
the lines of the program in order; completion is reported only after all of them are processed; and
a running job always has something outstanding that can move. An idle streamer is one whose job is
over, so no job is left behind. -/
theorem flow_controlled (reached : Reachable program l) :
    (l.outbound.length + l.waiting.length + l.answers = l.streamer.inFlight ∧
        l.streamer.inFlight ≤ window) ∧
      l.received <+: sentLines program ∧
      (.completed ∉ (rest.take (.start program)).2 ∧
        ∀ a l' effects, l.act a = some (l', effects) → .completed ∈ effects →
          l.processed = sentLines program) ∧
      (l.streamer.phase = .running →
        0 < l.outbound.length + l.waiting.length + l.answers ∧
          ∃ a ∈ [Act.deliver, .process, .answer], (l.act a).isSome) ∧
      (l.streamer.phase = .idle → l.processed = sentLines program) := by
  have balanced := balanced_reachable reached
  refine ⟨⟨balanced.counted, balanced.coherent.inFlight_le_window⟩, ?_, ⟨?_, ?_⟩, ?_, ?_⟩
  · exact ⟨l.outbound ++ l.streamer.pending, by rw [← balanced.lines, List.append_assoc]⟩
  · exact begin_not_completed program
  · intro a l' effects acted completed
    exact processed_of_completed balanced acted completed
  · intro running
    have pending : 0 < l.outstanding := by
      rw [balanced.counted]
      exact (balanced.coherent.filled running).1
    exact ⟨pending, moves_of_outstanding pending⟩
  · exact processed_of_idle balanced

/-- A job of four lines, paused before the first answer arrives: two lines are outstanding, and the
streamer counts two. -/
theorem flow_controlled_paused :
    let l : ClosedLoop := ⟨⟨.paused, ["A", "B", "C", "D"], 3, 2⟩, ["B", "C"], [], ["A"], 0⟩
    Reachable "A\nB\nC\nD\n" l ∧
      l.outbound.length + l.waiting.length + l.answers = l.streamer.inFlight ∧
      l.received <+: sentLines "A\nB\nC\nD\n" := by
  intro l
  have reached : Reachable "A\nB\nC\nD\n" l := by
    have begun : Reachable "A\nB\nC\nD\n" _ := .begin
    have delivered := begun.next (a := .deliver) rfl
    have processed := delivered.next (a := .process) rfl
    have paused := processed.next (a := .pause) rfl
    exact paused.next (a := .answer) rfl
  obtain ⟨⟨outstanding, _⟩, received, _⟩ := flow_controlled reached
  exact ⟨reached, outstanding, received⟩

end ClosedLoop

end LaserCutter
