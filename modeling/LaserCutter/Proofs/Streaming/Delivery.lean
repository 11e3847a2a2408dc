import LaserCutter.Proofs.Streaming.Step

/-!
# Every line once and in order

A run of the streamer may hold many jobs. Its effects are cut at the programs that begin a job
(`Streamer.logs`), so that each job has the effects from its beginning up to the next one. A log
`Delivers` its lines if it sends them in order, each at most once, and reports at most one end, after
which nothing follows; a completed job has sent all of them.
-/

namespace LaserCutter

/-- What a job was to send, and all effects from its beginning to the next job. -/
structure JobLog where
  lines : List String
  effects : List Effect
  deriving DecidableEq, Repr

/-- The effects send the lines in order, as far as they get, and end at most once. -/
structure Delivers (lines : List String) (effects : List Effect) : Prop where
  in_order : sends effects <+: lines
  single_end : ∃ front last, effects = front ++ last ∧ (∀ effect ∈ front, ¬ effect.Ends) ∧
    (last = [] ∨ last = [.completed] ∨ last = [.aborted])
  complete : .completed ∈ effects → sends effects = lines

namespace Delivers

variable {lines rest : List String} {front effects : List Effect}

theorem nil (lines : List String) : Delivers lines [] :=
  ⟨List.nil_prefix, ⟨[], [], rfl, nofun, .inl rfl⟩, nofun⟩

theorem append (open' : ∀ effect ∈ front, ¬ effect.Ends) (sent : sends front ++ rest = lines)
    (delivers : Delivers rest effects) : Delivers lines (front ++ effects) := by
  obtain ⟨in_order, ⟨middle, last, split, middleOpen, shape⟩, complete⟩ := delivers
  refine ⟨?_, ⟨front ++ middle, last, by rw [split, List.append_assoc], ?_, shape⟩, ?_⟩
  · rw [sends_append, ← sent]
    exact (List.prefix_append_right_inj _).mpr in_order
  · intro effect member
    exact (List.mem_append.mp member).elim (open' effect) (middleOpen effect)
  · intro completed
    rcases List.mem_append.mp completed with early | late
    · exact absurd trivial (open' _ early)
    · rw [sends_append, complete late, sent]

theorem completed (open' : ∀ effect ∈ front, ¬ effect.Ends) (sent : sends front = lines) :
    Delivers lines (front ++ [.completed]) := by
  have all : sends (front ++ [.completed]) = lines := by simp [Effect.line?, sent]
  refine ⟨?_, ⟨front, _, rfl, open', .inr (.inl rfl)⟩, fun _ => all⟩
  exact ⟨[], by rw [all, List.append_nil]⟩

theorem aborted (lines : List String) : Delivers lines [.signal .reset, .aborted] := by
  refine ⟨List.nil_prefix, ⟨[.signal .reset], [.aborted], rfl, ?_, .inr (.inr rfl)⟩, ?_⟩
  · simp [Effect.Ends]
  · simp

end Delivers

namespace Streamer

variable {s : Streamer} {event : StreamEvent}

/-- The lines of the job that an event begins, if it begins one. -/
def begun? (s : Streamer) : StreamEvent → Option (List String)
  | .start program =>
    if s.phase = .idle ∧ sentLines program ≠ [] then some (sentLines program) else none
  | _ => none

/-- The effects of a run before its first job begins, and the logs of its jobs. -/
def logs (s : Streamer) : List StreamEvent → List Effect × List JobLog
  | [] => ([], [])
  | event :: rest =>
    let (next, effects) := s.step event
    let (more, jobs) := next.logs rest
    match s.begun? event with
    | some lines => ([], ⟨lines, effects ++ more⟩ :: jobs)
    | none => (effects ++ more, jobs)

/-- The logs leave no effect out and keep their order. -/
theorem run_eq_logs (s : Streamer) (events : List StreamEvent) :
    (s.run events).2 = (s.logs events).1 ++ (s.logs events).2.flatMap JobLog.effects := by
  induction events generalizing s with
  | nil => rfl
  | cons event rest ih =>
    simp only [run, logs]
    cases s.begun? event <;> simp [ih]

theorem begun?_of_active (active : s.phase ≠ .idle) (event : StreamEvent) :
    s.begun? event = none := by
  cases event <;> simp [begun?, active]

theorem step_of_begun?_none (coherent : s.Coherent) (free : s.phase = .idle)
    (nothing : s.begun? event = none) : s.step event = (idle, []) := by
  apply step_of_idle coherent free
  intro program equal
  simpa [equal, begun?, free] using nothing

/-- From an idle streamer nothing happens before a job begins; from an active one the effects deliver
the lines that are left; and every later job is delivered. -/
theorem logs_deliver (coherent : s.Coherent) (events : List StreamEvent) :
    (s.phase = .idle → (s.logs events).1 = []) ∧
      (s.phase ≠ .idle → Delivers s.pending (s.logs events).1) ∧
      ∀ log ∈ (s.logs events).2, Delivers log.lines log.effects := by
  induction events generalizing s with
  | nil => exact ⟨fun _ => rfl, fun _ => .nil _, nofun⟩
  | cons event rest ih =>
    obtain ⟨idleRest, activeRest, jobs⟩ := ih (coherent_step coherent event)
    by_cases free : s.phase = .idle
    · cases begins : s.begun? event with
      | none =>
        have still := step_of_begun?_none coherent free begins
        simp only [logs, begins]
        refine ⟨fun _ => ?_, fun active => absurd free active, jobs⟩
        rw [idleRest (by rw [still]; rfl), still]
        rfl
      | some lines =>
        simp only [logs, begins]
        refine ⟨fun _ => trivial, fun active => absurd free active, ?_⟩
        intro log member
        rcases List.mem_cons.mp member with rfl | member
        · cases event with
          | start program =>
            have filled : sentLines program ≠ [] ∧ sentLines program = lines := by
              simpa [begun?, free] using begins
            obtain ⟨running, _, sent, _, open'⟩ := step_of_start coherent free filled.1
            rw [filled.2] at sent
            exact .append open' sent (activeRest (by simp [running]))
          | _ => simp [begun?] at begins
        · exact jobs log member
    · simp only [logs, begun?_of_active free]
      refine ⟨fun idle => absurd idle free, fun _ => ?_, jobs⟩
      rcases step_of_active coherent free event with
        ⟨active, _, sent, open'⟩ | ⟨next, front, split, sent, open'⟩ | ⟨_, result⟩
      · exact .append open' sent (activeRest active)
      · rw [idleRest (by rw [next]; rfl), split, List.append_nil]
        exact .completed open' sent
      · rw [idleRest (by rw [result]; rfl), result]
        exact .aborted _

/-- A start while a job is active leaves the lines of the job alone, unless that job has nothing left
to wait for: then it is completed by sending the last of its lines. -/
theorem start_of_active (coherent : s.Coherent) (active : s.phase ≠ .idle) (program : String) :
    (s.step (.start program)).1.lines = s.lines ∨
      ((s.step (.start program)).1 = idle ∧ .completed ∈ (s.step (.start program)).2 ∧
        sends (s.step (.start program)).2 = s.pending) := by
  rcases step_of_active coherent active (.start program) with
    ⟨_, same, _⟩ | ⟨next, front, split, sent, _⟩ | ⟨abort, _⟩
  · exact .inl same
  · refine .inr ⟨next, by simp [split], ?_⟩
    simp [split, Effect.line?, sent]
  · contradiction

/-- A step into the pause sends nothing. -/
theorem sends_of_paused (coherent : s.Coherent) (event : StreamEvent)
    (paused : (s.step event).1.phase = .paused) : sends (s.step event).2 = [] := by
  have filled {f : Streamer} (running : f.phase = .running) : f.fill.1.phase ≠ .paused := by
    rcases fill_ends running with ⟨goesOn, _⟩ | ⟨next, _⟩
    · simp [goesOn]
    · simp [next, idle]
  have cases := step_cases coherent.empty event
  generalize s.step event = result at cases paused ⊢
  cases cases with
  | begun => exact absurd paused (filled rfl)
  | refilled => exact absurd paused (filled rfl)
  | _ => rfl

/-- Whatever events a new streamer gets: it does nothing outside its jobs, and each job delivers its
lines in order, ends at most once and, if it is completed, has delivered all of them. No later start
changes the lines of an active job, nothing is sent into a pause, and without a job nothing is sent
unless a new one begins. -/
theorem run_delivers (events : List StreamEvent) :
    let s := (idle.run events).1
    let jobs := (idle.logs events).2
    (idle.logs events).1 = [] ∧
      (idle.run events).2 = jobs.flatMap JobLog.effects ∧
      (∀ log ∈ jobs, Delivers log.lines log.effects) ∧
      (∀ program, s.phase ≠ .idle →
        (s.step (.start program)).1.lines = s.lines ∨
          ((s.step (.start program)).1 = idle ∧ .completed ∈ (s.step (.start program)).2 ∧
            sends (s.step (.start program)).2 = s.pending)) ∧
      (∀ event, (s.step event).1.phase = .paused → sends (s.step event).2 = []) ∧
      ∀ event, s.phase = .idle → s.begun? event = none → (s.step event).2 = [] := by
  intro s jobs
  have coherent : s.Coherent := coherent_run coherent_idle events
  obtain ⟨before, _, delivered⟩ := logs_deliver coherent_idle events
  refine ⟨before rfl, ?_, delivered, ?_, ?_, ?_⟩
  · rw [run_eq_logs, before rfl, List.nil_append]
  · intro program active
    exact start_of_active coherent active program
  · intro event paused
    exact sends_of_paused coherent event paused
  · intro event free nothing
    rw [step_of_begun?_none coherent free nothing]

/-- A job that a second start only resumes and that is then aborted, a late answer, and a job that is
completed; and a paused job whose last answer has come, which a second start completes. -/
theorem run_delivers_two_jobs :
    let events : List StreamEvent :=
      [.start "A\nB\n", .pause, .start "X\n", .abort, .ack, .start "C\n", .ack]
    let second : JobLog := ⟨["C"], [.send "C", .progress 0 1, .progress 1 1, .completed]⟩
    let answered := (idle.run [.start "A\n", .pause, .ack]).1
    (second ∈ (idle.logs events).2 ∧ Delivers second.lines second.effects) ∧
      (answered.phase ≠ .idle ∧ .completed ∈ (answered.step (.start "X\n")).2) ∧
      ((answered.step .poll).1.phase = .paused ∧ sends (answered.step .poll).2 = []) ∧
      (idle.run events).1.phase = .idle ∧ ((idle.run events).1.step .ack).2 = [] := by
  intro events second answered
  have member : second ∈ (idle.logs events).2 := by decide
  have active : answered.phase ≠ .idle := by decide
  have paused : (answered.step .poll).1.phase = .paused := by decide
  have free : (idle.run events).1.phase = .idle := by decide
  obtain ⟨_, _, jobs, _, _, nothing⟩ := run_delivers events
  obtain ⟨_, _, _, starts, pauses, _⟩ := run_delivers [.start "A\n", .pause, .ack]
  refine ⟨⟨member, jobs second member⟩, ⟨active, ?_⟩, ⟨paused, pauses .poll paused⟩, free,
    nothing .ack free rfl⟩
  rcases starts "X\n" active with same | ⟨_, completed, _⟩
  · have cleared : (answered.step (.start "X\n")).1.lines ≠ answered.lines := by decide
    exact absurd same cleared
  · exact completed

end Streamer

end LaserCutter
