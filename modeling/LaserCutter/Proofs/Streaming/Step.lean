import LaserCutter.Controller.Streamer

/-!
# What one step of the streamer can do

Every event comes to one of seven cases (`Streamer.StepCase`), and only two of them send: a job that
begins and a job whose window is filled. What filling the window does is said once
(`Streamer.fill_cases`); the rest is read off these two.

A streamer is `Coherent` if its counters are in order and, while it runs, its window is as full as
the lines that are left allow. Every step keeps this.
-/

namespace LaserCutter

/-- The line that an effect sends. -/
def Effect.line? : Effect → Option String
  | .send line => some line
  | _ => none

/-- The lines that effects send, in order. -/
def sends (effects : List Effect) : List String := effects.filterMap Effect.line?

/-- The job ends with this effect. -/
def Effect.Ends : Effect → Prop
  | .completed | .aborted => True
  | _ => False

@[simp] theorem sends_nil : sends [] = [] := rfl

@[simp] theorem sends_cons (effect : Effect) (rest : List Effect) :
    sends (effect :: rest) = effect.line?.toList ++ sends rest := by
  cases effect <;> rfl

@[simp] theorem sends_append (front back : List Effect) :
    sends (front ++ back) = sends front ++ sends back := List.filterMap_append

@[simp] theorem sends_map_send (lines : List String) : sends (lines.map .send) = lines := by
  induction lines with
  | nil => rfl
  | cons line rest ih => exact congrArg (line :: ·) ih

namespace Streamer

variable {s : Streamer} {event : StreamEvent}

/-- How many lines an event answers. -/
def answered : StreamEvent → Nat
  | .ack => 1
  | _ => 0

/-- What one event comes to: the next state and the effects. -/
inductive StepCase (s : Streamer) : StreamEvent → Streamer × List Effect → Prop where
  /-- No job, and none that begins. -/
  | ignored (event : StreamEvent) (free : s.phase = .idle)
      (empty : ∀ program, event = .start program → sentLines program = []) :
      StepCase s event (idle, [])
  | begun (program : String) (free : s.phase = .idle) (filled : sentLines program ≠ []) :
      StepCase s (.start program) (fill ⟨.running, sentLines program, 0, 0⟩)
  | aborted (active : s.phase ≠ .idle) : StepCase s .abort (idle, [.signal .reset, .aborted])
  /-- A job that does not mind the event. -/
  | kept (event : StreamEvent) (active : s.phase ≠ .idle) (silent : event ≠ .ack) :
      StepCase s event (s, [])
  | held (running : s.phase = .running) :
      StepCase s .pause ({ s with phase := .paused }, [.signal .hold])
  /-- An answer while the job is paused. -/
  | drained (paused : s.phase = .paused) : StepCase s .ack ({ s with inFlight := s.inFlight - 1 }, [])
  /-- A running or resumed job fills its window. -/
  | refilled (event : StreamEvent) (signals : List Effect) (active : s.phase ≠ .idle)
      (resumed : signals = [] ∨ signals = [.signal .resume]) :
      StepCase s event
        ((fill ⟨.running, s.lines, s.sent, s.inFlight - answered event⟩).1,
          signals ++ (fill ⟨.running, s.lines, s.sent, s.inFlight - answered event⟩).2)

/-- A program without lines begins no job. -/
theorem start_empty {program : String} (empty : sentLines program = []) :
    idle.step (.start program) = (idle, []) := by
  simp [step, idle, empty]

theorem start_filled {program : String} (filled : sentLines program ≠ []) :
    idle.step (.start program) = fill ⟨.running, sentLines program, 0, 0⟩ := by
  simp [step, idle, filled]

/-- The seven cases are all there are. An idle streamer has to be the empty one. -/
theorem step_cases (empty : s.phase = .idle → s = idle) (event : StreamEvent) :
    StepCase s event (s.step event) := by
  obtain ⟨phase, lines, sent, inFlight⟩ := s
  cases phase with
  | idle =>
    obtain ⟨rfl, rfl, rfl⟩ : lines = [] ∧ sent = 0 ∧ inFlight = 0 := by
      simpa [idle] using empty rfl
    cases event with
    | start program =>
      change StepCase idle (.start program) (idle.step (.start program))
      by_cases empty : sentLines program = []
      · rw [start_empty empty]
        refine .ignored _ rfl fun other equal => ?_
        cases equal
        exact empty
      · rw [start_filled empty]
        exact .begun program rfl empty
    | _ => exact .ignored _ rfl nofun
  | running =>
    cases event with
    | start program => exact .kept _ nofun nofun
    | pause => exact .held rfl
    | resume => exact .kept _ nofun nofun
    | abort => exact .aborted nofun
    | ack => exact .refilled .ack [] nofun (.inl rfl)
    | poll => exact .refilled .poll [] nofun (.inl rfl)
  | paused =>
    cases event with
    | start program => exact .refilled (.start program) [.signal .resume] nofun (.inr rfl)
    | pause => exact .kept _ nofun nofun
    | resume => exact .refilled .resume [.signal .resume] nofun (.inr rfl)
    | abort => exact .aborted nofun
    | ack => exact .drained rfl
    | poll => exact .kept _ nofun nofun

/-- The counters are in order, an idle streamer is empty, and while a job runs its window is as full
as the lines that are left allow. -/
structure Coherent (s : Streamer) : Prop where
  inFlight_le_sent : s.inFlight ≤ s.sent
  sent_le_total : s.sent ≤ s.total
  inFlight_le_window : s.inFlight ≤ window
  empty : s.phase = .idle → s = idle
  filled : s.phase = .running → 0 < s.inFlight ∧ s.inFlight = min window (s.total - s.done)

theorem coherent_idle : Coherent idle := by
  refine ⟨Nat.le_refl _, Nat.le_refl _, Nat.zero_le _, fun _ => rfl, nofun⟩

/-- The effects of a filled window, up to the report that the job is complete. -/
def fillEffects (s : Streamer) : List Effect :=
  s.batch.map .send ++ [.progress s.afterBatch.done s.afterBatch.total]

/-- Filling the window sends the batch; if nothing is left then, the job is complete. -/
theorem fill_cases (running : s.phase = .running) :
    (s.fill = (s.afterBatch, s.fillEffects) ∧
        ¬ (s.afterBatch.total ≤ s.afterBatch.sent ∧ s.afterBatch.inFlight = 0)) ∨
      (s.fill = (idle, s.fillEffects ++ [.completed]) ∧
        s.afterBatch.total ≤ s.afterBatch.sent ∧ s.afterBatch.inFlight = 0) := by
  by_cases done : s.afterBatch.total ≤ s.afterBatch.sent ∧ s.afterBatch.inFlight = 0
  · exact .inr ⟨by simp only [fill, if_pos running, if_pos done]; rfl, done⟩
  · exact .inl ⟨by simp only [fill, if_pos running, if_neg done]; rfl, done⟩

@[simp] theorem sends_fillEffects (s : Streamer) : sends s.fillEffects = s.batch := by
  simp [fillEffects, Effect.line?]

theorem fillEffects_not_ends (s : Streamer) : ∀ effect ∈ s.fillEffects, ¬ effect.Ends := by
  intro effect member
  rcases List.mem_append.mp member with sent | progress
  · obtain ⟨line, _, rfl⟩ := List.mem_map.mp sent
    exact id
  · rw [List.mem_singleton.mp progress]
    exact id

theorem batch_append_pending (s : Streamer) : s.batch ++ s.afterBatch.pending = s.pending := by
  have rest : s.afterBatch.pending = s.pending.drop s.batch.length := by
    simp [pending, afterBatch, List.drop_drop]
  rw [rest, batch, List.length_take]
  rcases Nat.le_total (window - s.inFlight) s.pending.length with fits | short
  · rw [Nat.min_eq_left fits, List.take_append_drop]
  · rw [Nat.min_eq_right short, List.take_of_length_le short, List.drop_length, List.append_nil]

theorem length_batch (s : Streamer) :
    s.batch.length = min (window - s.inFlight) (s.total - s.sent) := by
  simp [batch, pending, total]

/-- Sending does not change how many lines are answered. -/
theorem done_afterBatch (s : Streamer) : s.afterBatch.done = s.done := by
  simp only [done, afterBatch]
  omega

/-- Filling the window sends the next lines and counts each of them as unanswered. -/
theorem fill_sends (running : s.phase = .running) :
    sends s.fill.2 ++ s.fill.1.pending = s.pending ∧
      s.fill.1.inFlight = s.inFlight + (sends s.fill.2).length := by
  rcases fill_cases running with ⟨equal, _⟩ | ⟨equal, nothingLeft, answered⟩
  · rw [equal]
    refine ⟨?_, ?_⟩
    · rw [sends_fillEffects]
      exact batch_append_pending s
    · rw [sends_fillEffects]
      rfl
  · have spent : s.afterBatch.pending = [] := List.drop_eq_nil_of_le nothingLeft
    rw [equal]
    refine ⟨?_, ?_⟩
    · rw [← batch_append_pending s, spent]
      simp [Effect.line?, idle, pending]
    · have counted : s.inFlight + s.batch.length = 0 := answered
      simp [Effect.line?, idle, counted]

/-- Filling the window keeps the job and its lines, or completes it once every line is sent. -/
theorem fill_ends (running : s.phase = .running) :
    (s.fill.1.phase = .running ∧ s.fill.1.lines = s.lines ∧ ∀ effect ∈ s.fill.2, ¬ effect.Ends) ∨
      (s.fill.1 = idle ∧ ∃ front, s.fill.2 = front ++ [.completed] ∧
        (∀ effect ∈ front, ¬ effect.Ends) ∧ sends front = s.pending) := by
  rcases fill_cases running with ⟨equal, _⟩ | ⟨equal, nothingLeft, _⟩
  · rw [equal]
    exact .inl ⟨running, rfl, fillEffects_not_ends s⟩
  · have spent : s.afterBatch.pending = [] := List.drop_eq_nil_of_le nothingLeft
    rw [equal]
    refine .inr ⟨rfl, s.fillEffects, rfl, fillEffects_not_ends s, ?_⟩
    rw [sends_fillEffects, ← batch_append_pending s, spent, List.append_nil]

/-- Filling the window makes it as full as the lines that are left allow. -/
theorem coherent_fill (running : s.phase = .running) (counted : s.inFlight ≤ s.sent)
    (bounded : s.sent ≤ s.total) (fits : s.inFlight ≤ window) : Coherent s.fill.1 := by
  have size := length_batch s
  rcases fill_cases running with ⟨equal, unfinished⟩ | ⟨equal, _⟩
  · rw [equal]
    refine ⟨?_, ?_, ?_, fun free => ?_, fun _ => ⟨?_, ?_⟩⟩
    all_goals simp only [afterBatch, total, done] at *
    · omega
    · omega
    · omega
    · rw [running] at free
      contradiction
    · unfold window at *
      omega
    · omega
  · rw [equal]
    exact coherent_idle

theorem coherent_step (coherent : s.Coherent) (event : StreamEvent) :
    Coherent (s.step event).1 := by
  have cases := step_cases coherent.empty event
  generalize s.step event = result at cases
  cases cases with
  | ignored => exact coherent_idle
  | begun program => exact coherent_fill rfl (Nat.le_refl _) (Nat.zero_le _) (Nat.zero_le _)
  | aborted => exact coherent_idle
  | kept => exact coherent
  | held => exact ⟨coherent.inFlight_le_sent, coherent.sent_le_total, coherent.inFlight_le_window,
      nofun, nofun⟩
  | drained paused =>
    refine ⟨?_, coherent.sent_le_total, ?_, fun free => ?_, fun running => ?_⟩
    · exact Nat.le_trans (Nat.sub_le _ _) coherent.inFlight_le_sent
    · exact Nat.le_trans (Nat.sub_le _ _) coherent.inFlight_le_window
    · rw [paused] at free
      contradiction
    · rw [paused] at running
      contradiction
  | refilled event =>
    apply coherent_fill rfl
    · exact Nat.le_trans (Nat.sub_le _ _) coherent.inFlight_le_sent
    · exact coherent.sent_le_total
    · exact Nat.le_trans (Nat.sub_le _ _) coherent.inFlight_le_window

theorem coherent_run (coherent : s.Coherent) (events : List StreamEvent) :
    Coherent (s.run events).1 := by
  induction events generalizing s with
  | nil => exact coherent
  | cons event rest ih => exact ih (coherent_step coherent event)

/-- Without a job only a program with lines makes a difference. -/
theorem step_of_idle (coherent : s.Coherent) (free : s.phase = .idle)
    (nothing : ∀ program, event = .start program → sentLines program = []) :
    s.step event = (idle, []) := by
  have cases := step_cases coherent.empty event
  generalize s.step event = result at cases ⊢
  cases cases with
  | ignored => rfl
  | begun program _ filled => exact absurd (nothing program rfl) filled
  | aborted active => exact absurd free active
  | kept _ active => exact absurd free active
  | held running => simp [free] at running
  | drained paused => simp [free] at paused
  | refilled _ _ active => exact absurd free active

/-- A program with lines begins a job, which sends the first lines and does not end at once. -/
theorem step_of_start {program : String} (coherent : s.Coherent) (free : s.phase = .idle)
    (filled : sentLines program ≠ []) :
    (s.step (.start program)).1.phase = .running ∧
      (s.step (.start program)).1.lines = sentLines program ∧
      sends (s.step (.start program)).2 ++ (s.step (.start program)).1.pending =
        sentLines program ∧
      (s.step (.start program)).1.inFlight = (sends (s.step (.start program)).2).length ∧
      ∀ effect ∈ (s.step (.start program)).2, ¬ effect.Ends := by
  rw [coherent.empty free, start_filled filled]
  generalize full : (⟨.running, sentLines program, 0, 0⟩ : Streamer) = f
  have running : f.phase = .running := by rw [← full]
  have lines : f.pending = sentLines program := by rw [← full]; rfl
  obtain ⟨sent, inFlight⟩ := fill_sends running
  rw [lines] at sent
  rw [show f.inFlight = 0 by rw [← full], Nat.zero_add] at inFlight
  rcases fill_ends running with ⟨goesOn, kept, open'⟩ | ⟨next, _⟩
  · exact ⟨goesOn, kept.trans (by rw [← full]), sent, inFlight, open'⟩
  · rw [next] at sent inFlight
    have unsent : sends f.fill.2 = [] := List.eq_nil_of_length_eq_zero inFlight.symm
    rw [unsent] at sent
    exact absurd sent.symm filled

/-- An abort ends an active job. -/
theorem step_abort (active : s.phase ≠ .idle) : s.step .abort = (idle, [.signal .reset, .aborted]) := by
  cases phase : s.phase with
  | idle => exact absurd phase active
  | running | paused => simp [step, phase]

/-- Only the step of an active job ends a job. -/
theorem active_of_ends {effect : Effect} (coherent : s.Coherent)
    (member : effect ∈ (s.step event).2) (ends : effect.Ends) : s.phase ≠ .idle := by
  intro free
  have quiet (nothing : ∀ program, event = .start program → sentLines program = []) : False := by
    rw [step_of_idle coherent free nothing] at member
    contradiction
  cases event with
  | start program =>
    by_cases filled : sentLines program = []
    · exact quiet fun other equal => by cases equal; exact filled
    · obtain ⟨_, _, _, _, open'⟩ := step_of_start coherent free filled
      exact open' effect member ends
  | _ => exact quiet nofun

/-- A job goes on, is completed by sending the last of its lines, or is aborted. Where it goes on, its
lines stay the same, and what is sent and what is left are together what was left before. -/
theorem step_of_active (coherent : s.Coherent) (active : s.phase ≠ .idle) (event : StreamEvent) :
    ((s.step event).1.phase ≠ .idle ∧ (s.step event).1.lines = s.lines ∧
        sends (s.step event).2 ++ (s.step event).1.pending = s.pending ∧
        ∀ effect ∈ (s.step event).2, ¬ effect.Ends) ∨
      ((s.step event).1 = idle ∧ ∃ front, (s.step event).2 = front ++ [.completed] ∧
        sends front = s.pending ∧ ∀ effect ∈ front, ¬ effect.Ends) ∨
      (event = .abort ∧ s.step event = (idle, [.signal .reset, .aborted])) := by
  have cases := step_cases coherent.empty event
  generalize s.step event = result at cases ⊢
  cases cases with
  | ignored _ free => exact absurd free active
  | begun _ free => exact absurd free active
  | aborted => exact .inr (.inr ⟨rfl, rfl⟩)
  | kept => exact .inl ⟨active, rfl, rfl, nofun⟩
  | held => exact .inl ⟨nofun, rfl, rfl, by simp [Effect.Ends]⟩
  | drained => exact .inl ⟨active, rfl, rfl, nofun⟩
  | refilled event signals _ resumed =>
    have quiet : sends signals = [] ∧ ∀ effect ∈ signals, ¬ effect.Ends := by
      rcases resumed with rfl | rfl <;> simp [Effect.Ends, Effect.line?]
    generalize full : (⟨.running, s.lines, s.sent, s.inFlight - answered event⟩ : Streamer) = f
    have running : f.phase = .running := by rw [← full]
    have lines : f.lines = s.lines := by rw [← full]
    have pending : f.pending = s.pending := by rw [← full]; rfl
    rcases fill_ends running with ⟨goesOn, kept, open'⟩ | ⟨equal, front, split, open', rest⟩
    · refine .inl ⟨by simp [goesOn], kept.trans lines, ?_, ?_⟩
      · rw [sends_append, quiet.1, List.nil_append, (fill_sends running).1, pending]
      · intro effect member
        exact (List.mem_append.mp member).elim (quiet.2 effect) (open' effect)
    · refine .inr (.inl ⟨equal, signals ++ front, by simp [split], ?_, ?_⟩)
      · rw [sends_append, quiet.1, List.nil_append, rest, pending]
      · intro effect member
        exact (List.mem_append.mp member).elim (quiet.2 effect) (open' effect)

/-- While a job is active, and without an abort, an event takes its answer off what is unanswered and
everything that is sent comes on top. -/
theorem inFlight_of_active (coherent : s.Coherent) (active : s.phase ≠ .idle)
    (keeps : event ≠ .abort) :
    (s.step event).1.inFlight = s.inFlight - answered event + (sends (s.step event).2).length := by
  have cases := step_cases coherent.empty event
  generalize s.step event = result at cases ⊢
  cases cases with
  | ignored _ free => exact absurd free active
  | begun _ free => exact absurd free active
  | aborted => exact absurd rfl keeps
  | kept _ _ silent => cases event <;> simp [answered] at silent ⊢
  | held => simp [answered, Effect.line?]
  | drained => simp [answered]
  | refilled event signals _ resumed =>
    have quiet : sends signals = [] := by rcases resumed with rfl | rfl <;> simp [Effect.line?]
    rw [sends_append, quiet, List.nil_append]
    exact (fill_sends rfl).2

/-- The same without a job, as long as none begins. -/
theorem inFlight_step (coherent : s.Coherent) (keeps : event ≠ .abort)
    (same : ∀ program, event ≠ .start program) :
    (s.step event).1.inFlight = s.inFlight - answered event + (sends (s.step event).2).length := by
  by_cases free : s.phase = .idle
  · rw [step_of_idle coherent free fun program equal => absurd equal (same program),
      coherent.empty free]
    simp [idle]
  · exact inFlight_of_active coherent free keeps

end Streamer

end LaserCutter
