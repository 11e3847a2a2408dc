import LaserCutter.Proofs.Streaming.Step

/-!
# How full the window is

In every state that a new streamer can come to, the counters are in order, and a running job has as
many lines unanswered as the window and the lines that are left allow. So there is never an occasion
to send that was not used at once, and a poll finds nothing to do.
-/

namespace LaserCutter.Streamer

variable {s : Streamer}

/-- No line fits into the window of a running job any more. -/
theorem Coherent.batch_eq_nil (coherent : s.Coherent) (running : s.phase = .running) :
    s.batch = [] := by
  obtain ⟨_, full⟩ := coherent.filled running
  have counted := coherent.inFlight_le_sent
  have size := length_batch s
  apply List.eq_nil_of_length_eq_zero
  unfold done at full
  omega

/-- Filling a window that is full already reports progress and changes nothing. -/
theorem Coherent.fill_eq (coherent : s.Coherent) (running : s.phase = .running) :
    s.fill = (s, [.progress s.done s.total]) := by
  have nothing := coherent.batch_eq_nil running
  have same : s.afterBatch = s := by simp [afterBatch, nothing]
  have effects : s.fillEffects = [.progress s.done s.total] := by simp [fillEffects, nothing, same]
  obtain ⟨outstanding, _⟩ := coherent.filled running
  rcases fill_cases running with ⟨equal, _⟩ | ⟨_, _, answered⟩
  · rw [equal, same, effects]
  · rw [same] at answered
    omega

theorem Coherent.step_poll (coherent : s.Coherent) :
    (s.step .poll).1 = s ∧ sends (s.step .poll).2 = [] := by
  cases phase : s.phase with
  | idle =>
    rw [coherent.empty phase]
    exact ⟨rfl, rfl⟩
  | running =>
    have filled : s.step .poll = s.fill := by simp [step, phase]
    rw [filled, coherent.fill_eq phase]
    exact ⟨rfl, rfl⟩
  | paused =>
    have filled : s.step .poll = s.fill := by simp [step, phase]
    have kept : s.fill = (s, []) := by simp [fill, phase]
    rw [filled, kept]
    exact ⟨rfl, rfl⟩

/-- Whatever events a new streamer gets, its counters are in order, so that what is answered and
what is unanswered make up what is sent, and what is sent and what is pending make up the job.
Without a job it is the new streamer again; with a running one its window is as full as the lines
that are left allow. So a poll changes nothing and sends nothing. -/
theorem window_full (events : List StreamEvent) :
    let s := (idle.run events).1
    (s.inFlight ≤ s.sent ∧ s.sent ≤ s.total) ∧
      (s.done + s.inFlight = s.sent ∧ s.sent + s.pending.length = s.total) ∧
      s.inFlight ≤ window ∧
      (s.phase = .idle → s = idle) ∧
      (s.phase = .running → 1 ≤ s.inFlight ∧ s.inFlight = min window (s.total - s.done)) ∧
      (s.step .poll).1 = s ∧ sends (s.step .poll).2 = [] := by
  intro s
  have coherent : s.Coherent := coherent_run coherent_idle events
  have counted := coherent.inFlight_le_sent
  have bounded := coherent.sent_le_total
  refine ⟨⟨counted, bounded⟩, ⟨?_, ?_⟩, coherent.inFlight_le_window, coherent.empty,
    coherent.filled, coherent.step_poll⟩
  · unfold done
    omega
  · unfold total at bounded
    simp only [pending, total, List.length_drop]
    omega

/-- A job of five lines that is paused, answered and resumed with two lines left, and the same job
once it is aborted. -/
theorem window_full_resumed :
    let events : List StreamEvent := [.start "A\nB\nC\nD\nE\n", .pause, .ack, .ack, .ack, .resume]
    let s := (idle.run events).1
    let after := (idle.run (events ++ [.abort])).1
    (s.phase = .running ∧ s.inFlight = 2 ∧ s.inFlight = min window (s.total - s.done)) ∧
      after.phase = .idle ∧ after = idle := by
  intro events s after
  have running : s.phase = .running := by decide
  have free : after.phase = .idle := by decide
  obtain ⟨_, _, _, _, filled, _⟩ := window_full events
  obtain ⟨_, _, _, empty, _⟩ := window_full (events ++ [.abort])
  exact ⟨⟨running, by decide, (filled running).2⟩, free, empty free⟩

end LaserCutter.Streamer
