import LaserCutter.Proofs.Streaming.Delivery

/-!
# Progress and completion

While a job is active, its answers count the lines that are done: sending leaves their number alone
and each answer makes it one more. Every report carries that number, and the job is completed when
it has come to the total and the job is not paused. One step says this (`Streamer.step_accounted`);
it is carried along a run as long as the job is open.
-/

namespace LaserCutter

/-- What an effect reports: the lines done and the total. -/
def Effect.report? : Effect → Option (Nat × Nat)
  | .progress done total => some (done, total)
  | _ => none

/-- The reports among effects, in order. -/
def progressOf (effects : List Effect) : List (Nat × Nat) := effects.filterMap Effect.report?

@[simp] theorem progressOf_append (front back : List Effect) :
    progressOf (front ++ back) = progressOf front ++ progressOf back := List.filterMap_append

/-- The phase of a job that goes on, after an event. -/
def Phase.after (phase : Phase) : StreamEvent → Phase
  | .pause => .paused
  | .resume | .start _ => .running
  | _ => phase

theorem Phase.after_active (phase : Phase) (active : phase ≠ .idle) (event : StreamEvent) :
    phase.after event ≠ .idle := by
  cases event <;> simp [after, active]

namespace Streamer

variable {s : Streamer} {event : StreamEvent} {events before : List StreamEvent}

/-- Nothing aborts, and every answer comes while a line is unanswered. -/
def Orderly (s : Streamer) : List StreamEvent → Prop
  | [] => True
  | event :: rest =>
    (event ≠ .abort ∧ (event = .ack → 0 < s.inFlight)) ∧ (s.step event).1.Orderly rest

instance : (s : Streamer) → (events : List StreamEvent) → Decidable (s.Orderly events)
  | _, [] => isTrue trivial
  | s, event :: rest =>
    have := instDecidableOrderly (s.step event).1 rest
    inferInstanceAs (Decidable (_ ∧ _))

/-- These events finish the job of `s`: they answer every line, and leave it unpaused. -/
def Finished (s : Streamer) (events : List StreamEvent) : Prop :=
  s.done + events.count .ack = s.total ∧ events.foldl Phase.after s.phase = .running

instance (s : Streamer) (events : List StreamEvent) : Decidable (s.Finished events) :=
  inferInstanceAs (Decidable (_ ∧ _))

theorem orderly_append (s : Streamer) (front back : List StreamEvent) :
    s.Orderly (front ++ back) ↔ s.Orderly front ∧ (s.run front).1.Orderly back := by
  induction front generalizing s with
  | nil => simp [Orderly, run]
  | cons event rest ih => simp [Orderly, run, ih, and_assoc]

/-- The effects of a filled window report what is done, and do not complete the job. -/
theorem progressOf_fillEffects (s : Streamer) :
    progressOf s.fillEffects = [(s.done, s.total)] ∧ .completed ∉ s.fillEffects := by
  have silent : progressOf (s.batch.map .send) = [] := by
    simp [progressOf, Effect.report?]
  refine ⟨?_, fun completed => fillEffects_not_ends s _ completed trivial⟩
  rw [fillEffects, progressOf_append, silent, done_afterBatch]
  rfl

/-- Filling the window leaves what is done alone, and completes the job exactly if all is done. Then
there is nothing to send. -/
theorem fill_accounted (running : s.phase = .running) (counted : s.inFlight ≤ s.sent)
    (bounded : s.sent ≤ s.total) :
    (s.done ≠ s.total ∧ s.fill.1.phase = .running ∧ s.fill.1.lines = s.lines ∧
        s.fill.1.done = s.done ∧ progressOf s.fill.2 = [(s.done, s.total)] ∧
        .completed ∉ s.fill.2) ∨
      (s.done = s.total ∧ s.fill = (idle, [.progress s.total s.total, .completed])) := by
  have size := length_batch s
  have done' := done_afterBatch s
  rcases fill_cases running with ⟨equal, unfinished⟩ | ⟨equal, nothingLeft, answered⟩
  · rw [equal]
    refine .inl ⟨?_, running, rfl, done', progressOf_fillEffects s⟩
    simp only [done, afterBatch, total] at unfinished done' size bounded ⊢
    omega
  · have all : s.done = s.total := by
      simp only [done, afterBatch, total] at nothingLeft answered done' size bounded ⊢
      omega
    have nothing : s.batch = [] := by
      apply List.eq_nil_of_length_eq_zero
      simp only [afterBatch] at answered
      omega
    rw [equal, fillEffects, nothing, done', all]
    exact .inr ⟨rfl, rfl⟩

/-- What an event comes to for an active job that nothing aborts: the job goes on, or it is
completed because all is done and it is not paused. -/
inductive Accounted (s : Streamer) (event : StreamEvent) : Streamer × List Effect → Prop where
  | open (next : Streamer) (effects : List Effect) (unfinished : ¬ s.Finished [event])
    (phase : next.phase = s.phase.after event) (lines : next.lines = s.lines)
    (done : next.done = s.done + answered event)
    (reported : ∀ report ∈ progressOf effects, report = (s.done + answered event, s.total))
    (silent : .completed ∉ effects) : Accounted s event (next, effects)
  | completed (signals : List Effect) (finished : s.Finished [event])
    (quiet : progressOf signals = [] ∧ .completed ∉ signals) :
    Accounted s event (idle, signals ++ [.progress s.total s.total, .completed])

theorem count_ack_cons (event : StreamEvent) (rest : List StreamEvent) :
    (event :: rest).count .ack = answered event + rest.count .ack := by
  cases event <;> simp [answered, Nat.add_comm]

theorem finished_singleton (s : Streamer) (event : StreamEvent) :
    s.Finished [event] ↔ s.done + answered event = s.total ∧ s.phase.after event = .running := by
  simp [Finished, count_ack_cons]

theorem Accounted.reported {result : Streamer × List Effect}
    (accounted : Accounted s event result) :
    ∀ report ∈ progressOf result.2, report = (s.done + answered event, s.total) := by
  cases accounted with
  | «open» _ _ _ _ _ _ reported => exact reported
  | completed signals finished quiet =>
    rw [((finished_singleton s event).mp finished).1, progressOf_append, quiet.1]
    simp [progressOf, Effect.report?]

/-- An event with which the job goes on, without a word about its lines. -/
theorem accounted_quietly {next : Streamer} {effects : List Effect}
    (unfinished : ¬ s.Finished [event]) (phase : next.phase = s.phase.after event)
    (lines : next.lines = s.lines) (done : next.done = s.done + answered event)
    (quiet : progressOf effects = [] ∧ .completed ∉ effects) :
    Accounted s event (next, effects) :=
  .open next effects unfinished phase lines done (by simp [quiet.1]) quiet.2

/-- An event on which the window is filled, after a signal perhaps. -/
theorem accounted_fill (event : StreamEvent) (signals : List Effect) (f : Streamer)
    (running : f.phase = .running) (counted : f.inFlight ≤ f.sent) (bounded : f.sent ≤ f.total)
    (lines : f.lines = s.lines) (done : f.done = s.done + answered event)
    (quiet : progressOf signals = [] ∧ .completed ∉ signals)
    (after : s.phase.after event = .running) :
    Accounted s event (f.fill.1, signals ++ f.fill.2) := by
  have total : f.total = s.total := congrArg List.length lines
  rcases fill_accounted running counted bounded with
    ⟨unfinished, again, same, doneNext, reported, silent⟩ | ⟨all, equal⟩
  · refine .open _ _ ?_ (again.trans after.symm) (same.trans lines) (doneNext.trans done) ?_ ?_
    · rw [finished_singleton, ← done, ← total]
      exact fun finished => unfinished finished.1
    · rw [progressOf_append, quiet.1, reported, done, total]
      simp
    · simp [quiet.2, silent]
  · rw [equal, total]
    refine .completed signals ((finished_singleton s event).mpr ⟨?_, after⟩) quiet
    rw [← done, all, total]

theorem step_accounted (coherent : s.Coherent) (active : s.phase ≠ .idle) (keeps : event ≠ .abort)
    (unanswered : event = .ack → 0 < s.inFlight) : Accounted s event (s.step event) := by
  have counted := coherent.inFlight_le_sent
  have bounded := coherent.sent_le_total
  have filled := coherent.filled
  have paused (after : s.phase.after event = .paused) : ¬ s.Finished [event] := by
    simp [finished_singleton, after]
  obtain ⟨phase, lines, sent, inFlight⟩ := s
  cases phase with
  | idle => exact absurd rfl active
  | running =>
    obtain ⟨outstanding, _⟩ := filled rfl
    cases event with
    | start | resume =>
      refine accounted_quietly ?_ rfl rfl rfl ⟨rfl, by simp⟩
      rw [finished_singleton]
      simp only [answered, done, total] at *
      omega
    | pause => exact accounted_quietly (paused rfl) rfl rfl rfl ⟨rfl, by simp⟩
    | abort => exact absurd rfl keeps
    | ack =>
      refine accounted_fill .ack [] ⟨.running, lines, sent, inFlight - 1⟩ rfl ?_ bounded rfl ?_
        ⟨rfl, by simp⟩ rfl
      all_goals simp only [done, answered, total] at *
      all_goals omega
    | poll =>
      exact accounted_fill .poll [] ⟨.running, lines, sent, inFlight⟩ rfl counted bounded rfl rfl
        ⟨rfl, by simp⟩ rfl
  | paused =>
    cases event with
    | start program =>
      exact accounted_fill (.start program) [.signal .resume] ⟨.running, lines, sent, inFlight⟩ rfl
        counted bounded rfl rfl ⟨rfl, by simp⟩ rfl
    | resume =>
      exact accounted_fill .resume [.signal .resume] ⟨.running, lines, sent, inFlight⟩ rfl counted
        bounded rfl rfl ⟨rfl, by simp⟩ rfl
    | pause | poll => exact accounted_quietly (paused rfl) rfl rfl rfl ⟨rfl, by simp⟩
    | abort => exact absurd rfl keeps
    | ack =>
      have outstanding := unanswered rfl
      refine accounted_quietly (paused rfl) rfl rfl ?_ ⟨rfl, by simp⟩
      simp only [done, answered] at *
      omega

/-- Where the job goes on with `next` after an event, it is finished by the rest if it was to be
finished by both. -/
theorem finished_cons {next : Streamer} (phase : next.phase = s.phase.after event)
    (lines : next.lines = s.lines) (done : next.done = s.done + answered event)
    (rest : List StreamEvent) : s.Finished (event :: rest) ↔ next.Finished rest := by
  have count : s.done + (event :: rest).count .ack = next.done + rest.count .ack := by
    rw [count_ack_cons, done, Nat.add_assoc]
  simp only [Finished, count, List.foldl_cons, ← phase, total, lines]

/-- A job that is open is not finished already. -/
theorem not_finished_nil (coherent : s.Coherent) : ¬ s.Finished [] := by
  rintro ⟨all, running⟩
  obtain ⟨outstanding, filled⟩ := coherent.filled running
  simp only [List.count_nil, Nat.add_zero] at all
  omega

theorem exists_prefix_cons {p : List StreamEvent → Prop} (first : ¬ p []) :
    (∃ before, before <+: event :: events ∧ p before) ↔
      ∃ before, before <+: events ∧ p (event :: before) := by
  constructor
  · rintro ⟨before, front, holds⟩
    cases before with
    | nil => exact absurd holds first
    | cons other before =>
      obtain ⟨rfl, shorter⟩ := List.cons_prefix_cons.mp front
      exact ⟨before, shorter, holds⟩
  · rintro ⟨before, front, holds⟩
    exact ⟨event :: before, List.cons_prefix_cons.mpr ⟨rfl, front⟩, holds⟩

/-- A job is completed exactly once its lines are all answered and it is not paused. -/
theorem completed_iff_finished (coherent : s.Coherent) (active : s.phase ≠ .idle)
    (orderly : s.Orderly events) :
    .completed ∈ (s.run events).2 ↔ ∃ before, before <+: events ∧ s.Finished before := by
  have unfinished := not_finished_nil coherent
  induction events generalizing s with
  | nil => simp [run, unfinished]
  | cons event rest ih =>
    obtain ⟨⟨keeps, unanswered⟩, orderlyRest⟩ := orderly
    have coherentNext := coherent_step coherent event
    have accounted := step_accounted coherent active keeps unanswered
    rw [exists_prefix_cons unfinished]
    simp only [run]
    generalize s.step event = result at accounted coherentNext orderlyRest
    cases accounted with
    | «open» next effects _ phase lines done _ silent =>
      have activeNext : next.phase ≠ .idle := phase ▸ s.phase.after_active active event
      have later := ih coherentNext activeNext orderlyRest (not_finished_nil coherentNext)
      simp only [List.mem_append, silent, false_or, later, finished_cons phase lines done]
    | completed _ finished => simpa using ⟨[], List.nil_prefix, finished⟩

/-- As long as the job is not completed, what is done is what the answers so far have made it. -/
theorem run_accounted (coherent : s.Coherent) (active : s.phase ≠ .idle)
    (orderly : s.Orderly events) (uncompleted : .completed ∉ (s.run events).2) :
    (s.run events).1.phase ≠ .idle ∧
      (s.run events).1.phase = events.foldl Phase.after s.phase ∧
      (s.run events).1.lines = s.lines ∧
      (s.run events).1.done = s.done + events.count .ack := by
  induction events generalizing s with
  | nil => exact ⟨active, rfl, rfl, rfl⟩
  | cons event rest ih =>
    obtain ⟨⟨keeps, unanswered⟩, orderlyRest⟩ := orderly
    have coherentNext := coherent_step coherent event
    have accounted := step_accounted coherent active keeps unanswered
    simp only [run, List.mem_append, not_or] at uncompleted ⊢
    generalize s.step event = result at accounted coherentNext orderlyRest uncompleted
    cases accounted with
    | «open» next effects _ phase lines done _ _ =>
      have activeNext : next.phase ≠ .idle := phase ▸ s.phase.after_active active event
      obtain ⟨still, phases, same, counted⟩ := ih coherentNext activeNext orderlyRest uncompleted.2
      refine ⟨still, by rw [phases, phase]; rfl, same.trans lines, ?_⟩
      rw [counted, done, count_ack_cons, Nat.add_assoc]
    | completed => simp at uncompleted

/-- Reports of one number stand in order before reports that are not below it. -/
theorem sorted_append {front back : List (Nat × Nat)} {n : Nat}
    (equal : ∀ report ∈ front, report.1 = n) (above : ∀ report ∈ back, n ≤ report.1)
    (sorted : back.Pairwise fun earlier later => earlier.1 ≤ later.1) :
    (front ++ back).Pairwise fun earlier later => earlier.1 ≤ later.1 := by
  refine List.pairwise_append.mpr ⟨List.pairwise_of_forall_mem_list ?_, sorted, ?_⟩
  · intro earlier first later second
    exact Nat.le_of_eq ((equal earlier first).trans (equal later second).symm)
  · intro earlier first later second
    rw [equal earlier first]
    exact above later second

/-- Before any new job begins, the reports do not decrease, and the job is completed if the run
completes any: right after the report that says so, and once. -/
theorem logs_accounted (coherent : s.Coherent) (active : s.phase ≠ .idle)
    (orderly : s.Orderly events) :
    (∀ report ∈ progressOf (s.logs events).1, s.done ≤ report.1) ∧
      (progressOf (s.logs events).1).Pairwise (fun earlier later => earlier.1 ≤ later.1) ∧
      (.completed ∈ (s.run events).2 → ∃ front,
        (s.logs events).1 = front ++ [.progress s.total s.total, .completed] ∧
          .completed ∉ front) := by
  induction events generalizing s with
  | nil => exact ⟨nofun, .nil, nofun⟩
  | cons event rest ih =>
    obtain ⟨⟨keeps, unanswered⟩, orderlyRest⟩ := orderly
    have coherentNext := coherent_step coherent event
    have accounted := step_accounted coherent active keeps unanswered
    simp only [run, logs, begun?_of_active active, List.mem_append]
    generalize s.step event = result at accounted coherentNext orderlyRest
    cases accounted with
    | «open» next effects _ phase lines done reported silent =>
      have activeNext : next.phase ≠ .idle := phase ▸ s.phase.after_active active event
      obtain ⟨above, sorted, ends⟩ := ih (s := next) coherentNext activeNext orderlyRest
      have equal : ∀ report ∈ progressOf effects, report.1 = next.done := by
        intro report member
        rw [reported report member, done]
      refine ⟨?_, ?_, ?_⟩
      · intro report member
        rw [progressOf_append] at member
        rcases List.mem_append.mp member with now | later
        · rw [equal report now]
          omega
        · have := above report later
          omega
      · rw [progressOf_append]
        exact sorted_append equal above sorted
      · intro completed
        obtain ⟨front, split, once⟩ := ends (completed.resolve_left silent)
        have total : next.total = s.total := congrArg List.length lines
        exact ⟨effects ++ front, by rw [split, total, List.append_assoc], by simp [silent, once]⟩
    | completed signals finished quiet =>
      have nothing : (idle.logs rest).1 = [] := (logs_deliver coherent_idle rest).1 rfl
      have all := ((finished_singleton s event).mp finished).1
      have only : progressOf (signals ++ [.progress s.total s.total, .completed]) =
          [(s.total, s.total)] := by
        rw [progressOf_append, quiet.1]
        rfl
      rw [nothing, List.append_nil, only]
      refine ⟨?_, List.pairwise_singleton _ _, fun _ => ⟨signals, rfl, quiet.2⟩⟩
      simp only [List.mem_singleton, forall_eq]
      omega

/-- For an active job, however it was reached, and events without an abort whose answers all answer
something. As long as the job is open it stays active with its total, what is done goes up by one
with each answer, and a report is of that and the total. The job is completed as soon as all lines
are answered and it is not paused, and not before. Until a new job begins, reports do not decrease
and the completion comes once, right after the report of the total. -/
theorem job_accounted (history events : List StreamEvent) :
    let s := (idle.run history).1
    s.phase ≠ .idle → s.Orderly events →
      (∀ before, before <+: events →
        (.completed ∈ (s.run before).2 ↔ ∃ earlier, earlier <+: before ∧ s.Finished earlier) ∧
          (.completed ∉ (s.run before).2 →
            let now := (s.run before).1
            now.phase ≠ .idle ∧ now.phase = before.foldl Phase.after s.phase ∧
              now.total = s.total ∧ now.done = s.done + before.count .ack ∧
              ∀ event, before ++ [event] <+: events → ∀ report ∈ progressOf (now.step event).2,
                report = (s.done + (before ++ [event]).count .ack, s.total))) ∧
        let own := (s.logs events).1
        (progressOf own).Pairwise (fun earlier later => earlier.1 ≤ later.1) ∧
          (.completed ∈ own ↔ ∃ before, before <+: events ∧ s.Finished before) ∧
          (.completed ∈ own → ∃ front,
            own = front ++ [.progress s.total s.total, .completed] ∧ .completed ∉ front) := by
  intro s active orderly
  have coherent : s.Coherent := coherent_run coherent_idle history
  obtain ⟨_, sorted, once⟩ := logs_accounted coherent active orderly
  refine ⟨fun before front => ?_, sorted, ?_, fun own => once ?_⟩
  · obtain ⟨after, rfl⟩ := front
    have orderlyBefore := ((orderly_append s before after).mp orderly).1
    refine ⟨completed_iff_finished coherent active orderlyBefore, fun uncompleted => ?_⟩
    obtain ⟨still, phases, lines, counted⟩ :=
      run_accounted coherent active orderlyBefore uncompleted
    have total : (s.run before).1.total = s.total := congrArg List.length lines
    refine ⟨still, phases, total, counted, fun event front => ?_⟩
    obtain ⟨rest, split⟩ := front
    rw [← split, orderly_append, orderly_append] at orderly
    obtain ⟨⟨_, ⟨keeps, unanswered⟩, _⟩, _⟩ := orderly
    have accounted := step_accounted (coherent_run coherent before) still keeps unanswered
    intro report member
    rw [accounted.reported report member, counted, total, List.count_append, count_ack_cons,
      Nat.add_assoc]
    rfl
  · rw [← completed_iff_finished coherent active orderly]
    refine ⟨fun own => ?_, fun completed => ?_⟩
    · rw [run_eq_logs]
      exact List.mem_append_left _ own
    · obtain ⟨front, split, _⟩ := once completed
      simp [split]
  · rw [run_eq_logs]
    exact List.mem_append_left _ own

/-- The last answer comes into a pause, which a second start ends: that completes the job. What
follows is of a new job. -/
theorem job_accounted_over_pause :
    let s := (idle.run [.start "A\nB\n"]).1
    let events : List StreamEvent :=
      [.ack, .pause, .ack, .poll, .start "C\n", .start "D\n", .ack, .poll]
    s.phase ≠ .idle ∧ s.Orderly events ∧
      (s.logs events).1 =
        [.progress 1 2, .signal .hold, .signal .resume, .progress 2 2, .completed] ∧
      (progressOf (s.logs events).1).Pairwise (fun earlier later => earlier.1 ≤ later.1) ∧
      ¬ s.Finished [.ack, .pause, .ack, .poll] ∧
      s.Finished [.ack, .pause, .ack, .poll, .start "C\n"] := by
  intro s events
  have active : s.phase ≠ .idle := by decide
  have orderly : s.Orderly events := by decide
  obtain ⟨_, sorted, _, _⟩ := job_accounted [.start "A\nB\n"] events active orderly
  refine ⟨active, orderly, by decide, sorted, ?_⟩
  decide

end Streamer

end LaserCutter
