import LaserCutter.Proofs.Streaming.Answers

/-!
# Turns one after the other

Going on from turn to turn is associative, so a run may be cut at any point (`Turn.run_eq_andThen`).
As long as the wire is whole, everything that a session writes goes out and its channel stays as it
is; then an event comes to its effects and to nothing else (`Session.handle_whole`), and a job with
lines begins with the first of them (`Session.begin_filled`). To listen is to hear the lines that are
ready one by one, and then to notice the end of the channel (`Session.listen_eq`).
-/

namespace LaserCutter

namespace Turn

variable {turn : Turn} {f g : Session → Turn}

theorem wait_andThen (s : Session) (f : Session → Turn) : (wait s).andThen f = f s := rfl

theorem andThen_wait (turn : Turn) : turn.andThen wait = turn := by
  obtain ⟨activity, state⟩ := turn
  cases state <;> simp [andThen, wait]

theorem andThen_over {result : Except ChannelError JobEnding} (ended : turn.state = .over result)
    (f : Session → Turn) : turn.andThen f = turn := by
  simp [andThen, ended]

theorem andThen_running {s : Session} (goesOn : turn.state = .running s) (f : Session → Turn) :
    turn.andThen f = ⟨turn.activity ++ (f s).activity, (f s).state⟩ := by
  simp [andThen, goesOn]

theorem andThen_assoc (turn : Turn) (f g : Session → Turn) :
    (turn.andThen f).andThen g = turn.andThen fun s => (f s).andThen g := by
  cases state : turn.state with
  | running s =>
    rw [andThen_running state, andThen_running state]
    cases next : (f s).state with
    | running t =>
      rw [andThen_running next, andThen_running rfl, Activity.append_assoc]
    | _ result =>
      rw [andThen_over next, andThen_over rfl, next]
  | _ result => rw [andThen_over state, andThen_over state, andThen_over state]

theorem andThen_after (turn : Turn) (activity : Activity) (f : Session → Turn) :
    (turn.after activity).andThen f = (turn.andThen f).after activity := by
  have same : (turn.after activity).state = turn.state := rfl
  cases state : turn.state with
  | running s =>
    rw [andThen_running (same.trans state), andThen_running state]
    simp [after, Activity.append_assoc]
  | _ result => rw [andThen_over (same.trans state), andThen_over state]

/-- What a run leads to, seen from its first turn. -/
theorem run_eq_andThen (turn : Turn) (happenings : List Happening) :
    turn.run happenings = turn.andThen fun s => (wait s).run happenings := by
  induction happenings generalizing turn with
  | nil => exact (andThen_wait turn).symm
  | cons happening rest ih =>
    calc turn.run (happening :: rest)
      _ = (turn.andThen (·.step happening)).run rest := rfl
      _ = (turn.andThen (·.step happening)).andThen fun s => (wait s).run rest := ih _
      _ = turn.andThen fun s => (s.step happening).andThen fun s => (wait s).run rest :=
        andThen_assoc ..
      _ = turn.andThen fun s => (wait s).run (happening :: rest) := by
        congr 1
        funext s
        exact (ih (s.step happening)).symm

theorem run_append (turn : Turn) (front back : List Happening) :
    turn.run (front ++ back) = (turn.run front).run back := List.foldl_append

end Turn

/-- What filling the window writes. -/
theorem Streamer.unitsOf_fill_eq {s : Streamer} (running : s.phase = .running) :
    unitsOf s.fill.2 = s.batch.map .line := by
  have sent : unitsOf s.fillEffects = s.batch.map .line := by
    rw [fillEffects, unitsOf_append, unitsOf_sends]
    exact List.append_nil _
  rcases fill_cases running with ⟨equal, _⟩ | ⟨equal, _⟩
  · rw [equal, sent]
  · rw [equal, unitsOf_append, sent]
    exact List.append_nil _

namespace Session

variable {s : Session}

theorem write_whole (whole : s.channel.cut = false) (units : List WireUnit) :
    s.write units = ⟨.sent units, .running s⟩ := by
  simp [write, Channel.put, whole]

/-- What an event comes to on a wire that is whole: its effects go out, and they may end the job. -/
theorem handle_whole (whole : s.channel.cut = false) (event : StreamEvent) :
    s.handle event = ⟨.sent (unitsOf (s.streamer.step event).2),
      match standingOf (s.streamer.step event) with
      | .running streamer => .running { s with streamer }
      | .ended result => .over result⟩ := by
  have written := write_whole (s := { s with streamer := (s.streamer.step event).1 }) whole
    (unitsOf (s.streamer.step event).2)
  simp only [handle, perform, written, Turn.andThen, standingOf]
  cases (s.streamer.step event).2.findSome? Effect.outcome? <;> simp [Turn.wait]

/-- Hears lines one after the other, until one of them ends the job. -/
def hearAll (s : Session) : List (List UInt8) → Turn
  | [] => .wait s
  | line :: rest => (s.hear line).andThen (·.hearAll rest)

/-- Notices the end of the channel once every line is heard. -/
def hangUp (s : Session) : Turn :=
  if s.channel.inbox.closed then ⟨.hearing [.disconnected], .over (.ok .disconnected)⟩ else .wait s

theorem foldl_hear (turn : Turn) (lines : List (List UInt8)) :
    lines.foldl (fun turn line => turn.andThen (·.hear line)) turn =
      turn.andThen (·.hearAll lines) := by
  induction lines generalizing turn with
  | nil => exact (Turn.andThen_wait turn).symm
  | cons line rest ih => rw [List.foldl_cons, ih, Turn.andThen_assoc]; rfl

theorem hearAll_append (s : Session) (front back : List (List UInt8)) :
    s.hearAll (front ++ back) = (s.hearAll front).andThen (·.hearAll back) := by
  induction front generalizing s with
  | nil => rfl
  | cons line rest ih =>
    simp only [List.cons_append, hearAll, ih, Turn.andThen_assoc]

theorem listen_eq (s : Session) :
    s.listen = (hearAll { s with channel.inbox := s.channel.inbox.emptied }
      s.channel.inbox.lines).andThen hangUp :=
  congrArg (Turn.andThen · hangUp) (foldl_hear (.wait _) s.channel.inbox.lines)

/-- A running job on a wire that is whole. -/
structure Healthy (s : Session) : Prop where
  coherent : s.streamer.Coherent
  running : s.streamer.phase = .running
  whole : s.channel.cut = false

/-- How many lines of the job are not accepted. -/
def left (s : Session) : Nat := s.streamer.total - s.streamer.done

/-- A job with lines begins with those that fit into the window, and none is accepted yet. -/
theorem begin_filled {program : String} (filled : sentLines program ≠ []) (interval : Option Nat) :
    ∃ s : Session, Session.begin .fresh program interval =
        ⟨.sent (((sentLines program).take window).map .line), .running s⟩ ∧
      s.Healthy ∧ s.left = (sentLines program).length ∧ s.channel = .fresh ∧
        s.polling = Polling.every? interval := by
  have coherent := Streamer.coherent_step Streamer.coherent_idle (.start program)
  have begins : Session.begin .fresh program interval =
      handle ⟨.idle, .fresh, true, Polling.every? interval⟩ (.start program) := by
    have effects : (Streamer.idle.step (.start program)).2.isEmpty = false := by
      rw [Streamer.start_filled filled]
      rcases Streamer.fill_cases (s := ⟨.running, sentLines program, 0, 0⟩) rfl with
        ⟨equal, _⟩ | ⟨equal, _⟩ <;> simp [equal, Streamer.fillEffects]
    simp [Session.begin, handle, effects]
  have wrote : unitsOf (Streamer.idle.step (.start program)).2 =
      ((sentLines program).take window).map .line := by
    rw [Streamer.start_filled filled, Streamer.unitsOf_fill_eq rfl]
    rfl
  have standing : standingOf (Streamer.idle.step (.start program)) =
        .running (Streamer.idle.step (.start program)).1 ∧
      (Streamer.idle.step (.start program)).1.phase = .running ∧
      (Streamer.idle.step (.start program)).1.lines = sentLines program ∧
      (Streamer.idle.step (.start program)).1.done = 0 := by
    rw [Streamer.start_filled filled]
    rcases Streamer.standing_fill (s := ⟨.running, sentLines program, 0, 0⟩) rfl (Nat.zero_le _)
      with goesOn | ⟨_, _, total⟩
    · exact goesOn
    · exact absurd (List.eq_nil_of_length_eq_zero total) filled
  rw [begins, handle_whole rfl]
  -- Only what is known of the first step counts from here on; unfolding it is slow.
  generalize Streamer.idle.step (.start program) = begun at *
  obtain ⟨goesOn, running, lines, done⟩ := standing
  rw [goesOn, wrote]
  refine ⟨_, rfl, ⟨coherent, running, rfl⟩, ?_, rfl, rfl⟩
  simp [left, Streamer.total, lines, done]

/-- Time that passes on a wire that is whole: a query goes out if it falls due. -/
theorem tick_whole (whole : s.channel.cut = false) (passed : Nat) :
    s.tick passed =
      match s.polling with
      | none => .wait s
      | some p =>
        if passed < p.left then .wait { s with polling := some { p with left := p.left - passed } }
        else ⟨.sent [.signal .status],
          .running { s with polling := some { p with left := p.interval } }⟩ := by
  unfold tick
  cases s.polling with
  | none => rfl
  | some p =>
    dsimp only
    split
    · rfl
    · exact write_whole (s := { s with polling := some { p with left := p.interval } }) whole
        [.signal .status]

/-- A job with lines asks for the status right after the first of them, if it asks at all. -/
theorem start_filled {program : String} (filled : sentLines program ≠ []) (interval : Option Nat) :
    ∃ s : Session, Session.start program interval =
        ⟨.sent (((sentLines program).take window).map .line ++
          (Polling.every? interval).toList.map fun _ => .signal .status), .running s⟩ ∧
      s.Healthy ∧ s.left = (sentLines program).length ∧ s.channel = .fresh ∧
        s.polling = (Polling.every? interval).map fun p => { p with left := p.interval } := by
  obtain ⟨s, begun, healthy, left, channel, polling⟩ := begin_filled filled interval
  have ticked := tick_whole healthy.whole 0
  rw [Session.start, begun, Turn.andThen_running rfl, ticked, polling]
  cases every : Polling.every? interval with
  | none =>
    rw [every] at polling
    refine ⟨s, ?_, healthy, left, channel, polling⟩
    simp [Turn.wait]
  | some p =>
    have due : p.left = 0 := by
      obtain ⟨period, _, rfl⟩ := Option.map_eq_some_iff.mp every
      rfl
    refine ⟨{ s with polling := some { p with left := p.interval } }, ?_, ?_, left, channel, rfl⟩
    · simp only [due, Nat.lt_irrefl, if_false]
      rfl
    · exact ⟨healthy.coherent, healthy.running, healthy.whole⟩

theorem start_empty {program : String} (empty : sentLines program = []) (interval : Option Nat) :
    Session.start program interval = ⟨.none, .over (.ok .nothingToSend)⟩ := by
  rw [Session.start, Turn.begin_empty empty, Turn.andThen_over rfl]

end Session

end LaserCutter
