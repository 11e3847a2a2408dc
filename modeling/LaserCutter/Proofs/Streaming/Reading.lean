import LaserCutter.Proofs.Streaming.Turns

/-!
# How a job reads

Bytes arrive in chunks that may end anywhere: inside an answer, between the two bytes of a line end,
inside a character. A job makes the same of all of them (`Session.run_received`), since hearing a
line does not look at the inbox and an inbox forms its lines byte by byte. So what a job does is a
function of the lines of the whole stream, and it reads these up to the one that ends it (`Reading`).
-/

namespace LaserCutter

/-- A carriage return right before a line feed belongs to the line end. -/
def withoutReturn (line : List UInt8) : List UInt8 :=
  if line.getLast? = some Inbox.carriageReturn then line.dropLast else line

/-- The lines of a byte stream. What follows the last line feed is a line once the stream has ended,
unless it is empty. -/
def receivedLines (ended : Bool) (bytes : List UInt8) : List (List UInt8) :=
  let pieces := bytes.splitOn Inbox.lineFeed
  pieces.dropLast.map withoutReturn ++
    if ended then pieces.getLast?.toList.filter (· ≠ []) else []

namespace Inbox

theorem endedLine_eq (backwards : List UInt8) :
    endedLine backwards = withoutReturn backwards.reverse := by
  cases backwards with
  | nil => rfl
  | cons b before => simp [endedLine, withoutReturn]

/-- An inbox splits what arrives at the line feeds, and keeps what follows the last of them. -/
theorem receive_eq (ready : List (List UInt8)) (backwards : List UInt8) (closed : Bool)
    (bytes : List UInt8) :
    (⟨ready, backwards, closed⟩ : Inbox).receive bytes =
      let pieces := bytes.splitOnPPrepend (· == lineFeed) backwards
      ⟨ready ++ pieces.dropLast.map withoutReturn, (pieces.getLast?.getD []).reverse, closed⟩ := by
  induction bytes generalizing ready backwards with
  | nil => simp [receive]
  | cons b rest ih =>
    change (push ⟨ready, backwards, closed⟩ b).receive rest = _
    by_cases ends : b = lineFeed
    · have filled : rest.splitOnP (· == lineFeed) ≠ [] := List.splitOnP_ne_nil _ _
      rw [push, if_pos ends, ih, List.splitOnPPrepend_cons_pos (by simpa using ends)]
      simp [endedLine_eq, List.dropLast_cons_of_ne_nil filled, List.getLast?_cons_of_ne_nil filled]
    · rw [push, if_neg ends, ih, List.splitOnPPrepend_cons_neg (by simpa using ends)]

theorem receive_append (inbox : Inbox) (front back : List UInt8) :
    inbox.receive (front ++ back) = (inbox.receive front).receive back := List.foldl_append

theorem closed_receive (inbox : Inbox) (bytes : List UInt8) :
    (inbox.receive bytes).closed = inbox.closed := by
  obtain ⟨ready, backwards, closed⟩ := inbox
  rw [receive_eq]

/-- Taking the lines that have ended makes no difference to those that are still to come. -/
theorem receive_emptied (inbox : Inbox) (bytes : List UInt8) (opened : inbox.closed = false) :
    inbox.receive bytes =
      { inbox.emptied.receive bytes with
        ready := inbox.ready ++ (inbox.emptied.receive bytes).ready } := by
  obtain ⟨ready, backwards, closed⟩ := inbox
  cases opened
  simp [emptied, receive_eq]

/-- The lines that can be taken are those of the stream. -/
theorem lines_receive (ended : Bool) (bytes : List UInt8) :
    lines { empty.receive bytes with closed := ended } = receivedLines ended bytes := by
  have filled : bytes.splitOn lineFeed ≠ [] := List.splitOn_ne_nil _ _
  obtain ⟨last, equal⟩ := Option.isSome_iff_exists.mp (List.getLast?_isSome.mpr filled)
  simp only [empty, receive_eq, List.splitOnPPrepend_nil_right, ← List.splitOn_eq_splitOnP]
  cases ended <;> by_cases last = [] <;>
    simp_all [lines, remainder, receivedLines]

end Inbox

/-- Writing does not look at the inbox. -/
theorem Channel.put_inbox (c : Channel) (inbox : Inbox) (units : List WireUnit) :
    put { c with inbox } units =
      ((c.put units).1, (c.put units).2.map fun c => { c with inbox }) := by
  unfold put
  split
  · dsimp only
    split <;> rfl
  · rfl

namespace Turn

/-- The turn with another inbox in the session that it leads to. -/
def holding (turn : Turn) (inbox : Inbox) : Turn :=
  turn.andThen fun s => .wait { s with channel.inbox := inbox }

theorem holding_andThen (turn : Turn) (inbox : Inbox) (f : Session → Turn) :
    (turn.holding inbox).andThen f =
      turn.andThen fun s => f { s with channel.inbox := inbox } := andThen_assoc ..

theorem andThen_holding (turn : Turn) (f : Session → Turn) (inbox : Inbox) :
    (turn.andThen f).holding inbox = turn.andThen fun s => (f s).holding inbox := andThen_assoc ..

theorem after_holding (turn : Turn) (activity : Activity) (inbox : Inbox) :
    (turn.after activity).holding inbox = (turn.holding inbox).after activity :=
  andThen_after ..

end Turn

namespace Session

variable {s : Session} {inbox : Inbox}

theorem write_holding (s : Session) (inbox : Inbox) (units : List WireUnit) :
    write { s with channel.inbox := inbox } units = (s.write units).holding inbox := by
  simp only [write, Channel.put_inbox]
  rcases s.channel.put units with ⟨activity, _ | channel⟩
  · rfl
  · simp [Turn.holding, Turn.andThen, Turn.wait]

theorem perform_holding (s : Session) (inbox : Inbox) (effects : List Effect) :
    perform { s with channel.inbox := inbox } effects = (s.perform effects).holding inbox := by
  unfold perform
  rw [write_holding, Turn.holding_andThen, Turn.andThen_holding]
  congr 1
  funext s
  cases effects.findSome? Effect.outcome? <;> rfl

theorem handle_holding (s : Session) (inbox : Inbox) (event : StreamEvent) :
    handle { s with channel.inbox := inbox } event = (s.handle event).holding inbox :=
  perform_holding { s with streamer := (s.streamer.step event).1 } inbox (s.streamer.step event).2

/-- Hearing a line does not look at the inbox. -/
theorem hear_holding (s : Session) (inbox : Inbox) (line : List UInt8) :
    hear { s with channel.inbox := inbox } line = (s.hear line).holding inbox := by
  unfold hear
  cases responseOf? line with
  | error fault => rfl
  | ok said =>
    cases said with
    | none => rfl
    | some r =>
      by_cases ack : r = .ack
      · simp only [if_pos ack, Turn.after_holding]
        rw [handle_holding]
      · simp only [if_neg ack, Turn.after_holding]
        rfl

theorem hearAll_holding (s : Session) (inbox : Inbox) (lines : List (List UInt8)) :
    hearAll { s with channel.inbox := inbox } lines = (s.hearAll lines).holding inbox := by
  induction lines generalizing s with
  | nil => rfl
  | cons line rest ih =>
    rw [hearAll, hearAll, hear_holding, Turn.holding_andThen, Turn.andThen_holding]
    congr 1
    funext s
    exact ih s

/-- The end of the channel is noticed just if it has come. -/
theorem hangUp_opened (opened : inbox.closed = false) (turn : Turn) :
    (turn.holding inbox).andThen hangUp = turn.holding inbox := by
  rw [Turn.holding_andThen]
  congr 1
  funext s
  simp [hangUp, opened]

theorem hangUp_closed (closed : inbox.closed = true) (turn : Turn) :
    (turn.holding inbox).andThen hangUp =
      turn.andThen fun _ => ⟨.hearing [.disconnected], .over (.ok .disconnected)⟩ := by
  rw [Turn.holding_andThen]
  congr 1
  funext s
  simp [hangUp, closed]

/-- The lines that end in a chunk are heard, and its rest stays in the inbox. -/
theorem step_received (s : Session) (inbox : Inbox) (opened : inbox.closed = false)
    (bytes : List UInt8) :
    step { s with channel.inbox := inbox } (.received bytes) =
      (s.hearAll (inbox.receive bytes).ready).holding (inbox.receive bytes).emptied := by
  have still : (inbox.receive bytes).closed = false := by
    rw [Inbox.closed_receive, opened]
  have lines : (inbox.receive bytes).lines = (inbox.receive bytes).ready := by
    simp [Inbox.lines, Inbox.remainder, still]
  have emptied : (inbox.receive bytes).emptied.closed = false := still
  change listen { s with channel.inbox := inbox.receive bytes } = _
  rw [listen_eq, ← hangUp_opened emptied, ← hearAll_holding, ← lines]

/-- Chunks are heard like the bytes that they are cut from. -/
theorem run_received (s : Session) (inbox : Inbox) (opened : inbox.closed = false)
    (taken : inbox.ready = []) (chunks : List (List UInt8)) :
    (Turn.wait { s with channel.inbox := inbox }).run (chunks.map .received) =
      (s.hearAll (inbox.receive chunks.flatten).ready).holding
        (inbox.receive chunks.flatten).emptied := by
  induction chunks generalizing s inbox with
  | nil =>
    obtain ⟨ready, backwards, closed⟩ := inbox
    cases opened
    cases taken
    rfl
  | cons chunk rest ih =>
    have still : (inbox.receive chunk).emptied.closed = false := by
      change (inbox.receive chunk).closed = false
      rw [Inbox.closed_receive, opened]
    have whole : inbox.receive (chunk :: rest).flatten =
        { (inbox.receive chunk).emptied.receive rest.flatten with
          ready := (inbox.receive chunk).ready ++
            ((inbox.receive chunk).emptied.receive rest.flatten).ready } := by
      rw [List.flatten_cons, Inbox.receive_append]
      exact Inbox.receive_emptied _ _ still
    calc (Turn.wait { s with channel.inbox := inbox }).run ((chunk :: rest).map .received)
      _ = (step { s with channel.inbox := inbox } (.received chunk)).run (rest.map .received) := rfl
      _ = (s.hearAll (inbox.receive chunk).ready).andThen fun s =>
          (Turn.wait { s with channel.inbox := (inbox.receive chunk).emptied }).run
            (rest.map .received) := by
        rw [step_received s inbox opened, Turn.run_eq_andThen, Turn.holding_andThen]
      _ = (s.hearAll (inbox.receive chunk).ready).andThen fun s =>
          (s.hearAll ((inbox.receive chunk).emptied.receive rest.flatten).ready).holding
            ((inbox.receive chunk).emptied.receive rest.flatten).emptied := by
        congr 1
        funext s
        exact ih s _ still rfl
      _ = _ := by
        rw [whole, hearAll_append, Turn.andThen_holding]
        rfl

end Session

/-- A stream that arrives in chunks, and its end if it has one. -/
def arrivals (ended : Bool) (chunks : List (List UInt8)) : List Happening :=
  chunks.map .received ++ if ended then [.closed] else []

/-- What a line is reported as: nothing if it says nothing or is no text. -/
def report? (line : List UInt8) : Option Heard :=
  match responseOf? line with
  | .ok (some r) => some (.response r)
  | _ => none

/-- What lines are reported as, in order. -/
def reports (lines : List (List UInt8)) : List Heard := lines.filterMap report?

/-- Every line is text. -/
def Legible (lines : List (List UInt8)) : Prop := ∀ line ∈ lines, (responseOf? line).isOk

/-- How a job reads lines when `left` of its own are not accepted: what it hears, and how it stands
then. -/
inductive Reading (left : Nat) (ended : Bool) (lines : List (List UInt8)) :
    List Heard → SessionState → Prop where
  /-- It has read all lines and waits for more. -/
  | waits (session : Session) (opened : ended = false) (read : Legible lines)
      (short : accepted (reports lines) < left) :
      Reading left ended lines (reports lines) (.running session)
  /-- It has read all lines when the channel ends. -/
  | cutOff (closed : ended = true) (read : Legible lines)
      (short : accepted (reports lines) < left) :
      Reading left ended lines (reports lines ++ [.disconnected]) (.over (.ok .disconnected))
  /-- The last of its own lines is accepted. -/
  | completes (front : List (List UInt8)) (line : List UInt8) (behind : List (List UInt8))
      (split : lines = front ++ line :: behind) (read : Legible front)
      (ack : responseOf? line = .ok (some .ack)) (last : accepted (reports front) + 1 = left) :
      Reading left ended lines (reports (front ++ [line])) (.over (.ok .completed))
  /-- A line is no text. -/
  | givesUp (front : List (List UInt8)) (line : List UInt8) (behind : List (List UInt8))
      (fault : WireFault) (split : lines = front ++ line :: behind) (read : Legible front)
      (garbled : responseOf? line = .error fault) (short : accepted (reports front) < left) :
      Reading left ended lines (reports front) (.over (.error (.wire fault)))

theorem Legible.cons {line : List UInt8} {said : Option Response} {rest : List (List UInt8)}
    (text : responseOf? line = .ok said) (read : Legible rest) : Legible (line :: rest) := by
  simp only [Legible, List.forall_mem_cons, text]
  exact ⟨rfl, read⟩

/-- One more line in front, which is text and does not end the job. -/
theorem Reading.cons {left next : Nat} {ended : Bool} {line : List UInt8}
    {rest : List (List UInt8)} {said : Option Response} {heard : List Heard} {state : SessionState}
    (text : responseOf? line = .ok said)
    (counted : left = next + if said = some .ack then 1 else 0)
    (reading : Reading next ended rest heard state) :
    Reading left ended (line :: rest) (reports [line] ++ heard) state := by
  have split (lines : List (List UInt8)) :
      reports (line :: lines) = reports [line] ++ reports lines :=
    List.filterMap_append (l := [line])
  have own : accepted (reports [line]) = if said = some .ack then 1 else 0 := by
    cases said with
    | none => simp [reports, report?, text, accepted]
    | some r => cases r <;> simp [reports, report?, text, accepted]
  have count (lines : List (List UInt8)) : accepted (reports (line :: lines)) =
      accepted (reports lines) + if said = some .ack then 1 else 0 := by
    rw [split, accepted_append, own, Nat.add_comm]
  cases reading with
  | waits session opened read short =>
    rw [← split]
    refine .waits session opened (.cons text read) ?_
    rw [count]
    omega
  | cutOff closed read short =>
    rw [← List.append_assoc, ← split]
    refine .cutOff closed (.cons text read) ?_
    rw [count]
    omega
  | completes front last behind equal read ack done =>
    rw [← split, ← List.cons_append]
    refine .completes (line :: front) last behind (by rw [equal]; rfl) (.cons text read) ack ?_
    rw [count]
    omega
  | givesUp front bad behind fault equal read garbled short =>
    rw [← split]
    refine .givesUp (line :: front) bad behind fault (by rw [equal]; rfl) (.cons text read)
      garbled ?_
    rw [count]
    omega

namespace Session

variable {s : Session}

theorem Healthy.left_pos (healthy : s.Healthy) : 0 < s.left := by
  obtain ⟨outstanding, _⟩ := healthy.coherent.filled healthy.running
  have counted := healthy.coherent.inFlight_le_sent
  have bounded := healthy.coherent.sent_le_total
  simp only [left, Streamer.done]
  omega

/-- An answer accepts one more line, and the last of them completes the job. -/
theorem Healthy.answered (healthy : s.Healthy) :
    ((∃ next : Session, (s.handle .ack).state = .running next ∧ next.Healthy ∧
        s.left = next.left + 1) ∨
      ((s.handle .ack).state = .over (.ok .completed) ∧ s.left = 1)) ∧
      (s.handle .ack).activity.heard = [] := by
  have unfinished := healthy.left_pos
  obtain ⟨coherent, running, whole⟩ := healthy
  rw [handle_whole whole]
  refine ⟨?_, rfl⟩
  obtain ⟨_, ⟨standing, goesOn, lines, done⟩ | ⟨standing, _, total⟩⟩ :=
    Streamer.standing_of_running coherent running (show StreamEvent.ack ≠ .pause from nofun) nofun
  · left
    rw [standing]
    refine ⟨_, rfl, ⟨Streamer.coherent_step coherent .ack, goesOn, whole⟩, ?_⟩
    simp only [Session.left, Streamer.total, lines, done, Streamer.answered] at unfinished ⊢
    omega
  · right
    rw [standing]
    refine ⟨rfl, ?_⟩
    simp only [Session.left, total, Streamer.answered]
    omega

/-- A job reads lines up to the one that ends it. -/
theorem reading_hearAll (healthy : s.Healthy) (lines : List (List UInt8)) :
    Reading s.left false lines (s.hearAll lines).activity.heard (s.hearAll lines).state := by
  induction lines generalizing s with
  | nil => exact .waits s rfl nofun healthy.left_pos
  | cons line rest ih =>
    cases said : responseOf? line with
    | error fault =>
      have heard : s.hear line = .fail fault := by simp [hear, said]
      rw [hearAll, heard, Turn.andThen_over rfl]
      exact .givesUp [] line rest fault rfl nofun said healthy.left_pos
    | ok said' =>
      cases said' with
      | none =>
        have heard : s.hear line = .wait s := by simp [hear, said]
        have silent : reports [line] = [] := by simp [reports, report?, said]
        rw [hearAll, heard, Turn.wait_andThen]
        have read : Reading s.left false (line :: rest) _ _ := .cons said (by simp) (ih healthy)
        rwa [silent, List.nil_append] at read
      | some r =>
        have told : reports [line] = [.response r] := by simp [reports, report?, said]
        by_cases ack : r = .ack
        · have heard : s.hear line = (s.handle .ack).after (.hearing [.response r]) := by
            simp [hear, said, ack]
          rw [hearAll, heard, Turn.andThen_after, ← told]
          obtain ⟨⟨next, state, again, count⟩ | ⟨state, count⟩, quiet⟩ := healthy.answered
          · have read : Reading s.left false (line :: rest) _ _ :=
              .cons said (by simp [ack, count]) (ih again)
            rw [Turn.andThen_running state]
            simpa [Turn.after, Activity.hearing, quiet] using read
          · rw [Turn.andThen_over state, count]
            have read : Reading 1 false (line :: rest) (reports [line]) (.over (.ok .completed)) :=
              .completes [] line rest rfl nofun (by rw [said, ack]) rfl
            simpa [Turn.after, Activity.hearing, quiet, state] using read
        · have heard : s.hear line = (Turn.wait s).after (.hearing [.response r]) := by
            simp [hear, said, ack]
          rw [hearAll, heard, Turn.andThen_after, Turn.wait_andThen]
          have read : Reading s.left false (line :: rest) _ _ :=
            .cons said (by simp [ack]) (ih healthy)
          rwa [told] at read

/-- The end of the channel makes a line of what is unfinished, and it is noticed. -/
theorem step_closed (s : Session) (inbox : Inbox) (taken : inbox.ready = []) :
    step { s with channel.inbox := inbox } .closed =
      ((s.hearAll inbox.close.remainder).holding inbox.close.emptied).andThen hangUp := by
  have lines : inbox.close.lines = inbox.close.remainder := by
    simp [Inbox.lines, Inbox.close, taken]
  change listen { s with channel.inbox := inbox.close } = _
  rw [listen_eq, ← hearAll_holding, ← lines]

/-- What a job makes of a stream: it hears the lines, and then notices the end if there is one. -/
theorem run_arrivals (s : Session) (ended : Bool) (chunks : List (List UInt8)) :
    (Turn.wait { s with channel.inbox := .empty }).run (arrivals ended chunks) =
      ((s.hearAll (receivedLines ended chunks.flatten)).holding
        { Inbox.empty.receive chunks.flatten with closed := ended }.emptied).andThen hangUp := by
  have heard := run_received s .empty rfl rfl chunks
  rw [← Inbox.lines_receive]
  generalize inbox : Inbox.empty.receive chunks.flatten = received at heard ⊢
  have opened : received.closed = false := by
    rw [← inbox, Inbox.closed_receive]
    rfl
  cases ended with
  | false =>
    have same : { received with closed := false } = received := by rw [← opened]
    rw [arrivals, same, hangUp_opened (by exact opened)]
    simpa [Inbox.lines, Inbox.remainder, opened] using heard
  | true =>
    rw [arrivals, Turn.run_append, heard]
    calc ((s.hearAll received.ready).holding received.emptied).run [.closed]
      _ = ((s.hearAll received.ready).holding received.emptied).andThen (·.step .closed) := rfl
      _ = (s.hearAll received.ready).andThen fun s =>
          ((s.hearAll received.emptied.close.remainder).holding
            received.emptied.close.emptied).andThen hangUp := by
        rw [Turn.holding_andThen]
        congr 1
        funext s
        exact step_closed s received.emptied rfl
      _ = ((s.hearAll (received.ready ++ received.emptied.close.remainder)).holding
            received.emptied.close.emptied).andThen hangUp := by
        rw [hearAll_append, Turn.andThen_holding, Turn.andThen_assoc]
      _ = _ := by
        have closed : received.emptied.close = ⟨[], received.unfinished, true⟩ := by
          simp [Inbox.emptied, Inbox.close, opened]
        rw [closed]
        rfl

/-- A job that still waits when the channel ends is cut off. -/
theorem reading_hangUp {turn : Turn} {left : Nat} {lines : List (List UInt8)} (inbox : Inbox)
    (reading : Reading left false lines turn.activity.heard turn.state) :
    Reading left inbox.closed lines ((turn.holding inbox).andThen hangUp).activity.heard
      ((turn.holding inbox).andThen hangUp).state := by
  generalize heard : turn.activity.heard = told at reading
  generalize stands : turn.state = state at reading
  cases reading with
  | waits session _ read short =>
    cases closed : inbox.closed with
    | false =>
      rw [hangUp_opened closed, Turn.holding, Turn.andThen_running stands]
      simpa [Turn.wait, heard] using Reading.waits _ rfl read short
    | true =>
      rw [hangUp_closed closed, Turn.andThen_running stands]
      simpa [Activity.hearing, heard] using Reading.cutOff rfl read short
  | cutOff => contradiction
  | completes front line behind split read ack last =>
    rw [Turn.holding, Turn.andThen_over stands, Turn.andThen_over stands, heard, stands]
    exact .completes front line behind split read ack last
  | givesUp front line behind fault split read garbled short =>
    rw [Turn.holding, Turn.andThen_over stands, Turn.andThen_over stands, heard, stands]
    exact .givesUp front line behind fault split read garbled short

end Session

/-- What a job does with the bytes that come in does not depend on the chunks in which they come: all
that is written and heard, and the outcome, are the same for all chunks of the same stream. The job
hears what the lines of the stream say, in order and each once, up to and including the one that
ends it; if the stream ends first, it hears that last, after an unterminated line. -/
theorem job_reads_stream (program : String) (interval : Option Nat) (ended : Bool)
    (chunks : List (List UInt8)) :
    let turn := (Session.start program interval).run (arrivals ended chunks)
    (∀ other : List (List UInt8), other.flatten = chunks.flatten →
      (Session.start program interval).run (arrivals ended other) = turn) ∧
    (sentLines program = [] → turn = ⟨.none, .over (.ok .nothingToSend)⟩) ∧
    (sentLines program ≠ [] →
      Reading (sentLines program).length ended (receivedLines ended chunks.flatten)
        turn.activity.heard turn.state) := by
  intro turn
  by_cases empty : sentLines program = []
  · have nothing (chunks : List (List UInt8)) :
        (Session.start program interval).run (arrivals ended chunks) =
          ⟨.none, .over (.ok .nothingToSend)⟩ := by
      rw [Session.start_empty empty]
      exact Turn.run_over rfl _
    exact ⟨fun other _ => (nothing other).trans (nothing chunks).symm, fun _ => nothing chunks,
      fun filled => absurd empty filled⟩
  · obtain ⟨s, started, healthy, left, channel, _⟩ := Session.start_filled empty interval
    have unread : s.channel.inbox = .empty := by
      rw [channel]
      rfl
    have fresh : { s with channel.inbox := .empty } = s := by rw [← unread]
    have arrived (chunks : List (List UInt8)) :
        (Session.start program interval).run (arrivals ended chunks) =
          (Session.start program interval).andThen fun _ =>
            ((s.hearAll (receivedLines ended chunks.flatten)).holding
              { Inbox.empty.receive chunks.flatten with closed := ended }.emptied).andThen
                Session.hangUp := by
      rw [Turn.run_eq_andThen, started, Turn.andThen_running rfl, Turn.andThen_running rfl,
        ← Session.run_arrivals, fresh]
    refine ⟨fun other same => ?_, fun nothing => absurd nothing empty, fun _ => ?_⟩
    · simp only [turn, arrived, same]
    · have reading := Session.reading_hearAll healthy (receivedLines ended chunks.flatten)
      simp only [turn, arrived]
      rw [started, Turn.andThen_running rfl, ← left]
      exact Session.reading_hangUp { Inbox.empty.receive chunks.flatten with closed := ended }.emptied
        reading

/-- A stream that is cut inside an answer, between the bytes of a line end and inside a character, and
that ends without a line feed. -/
theorem job_reads_stream_cut :
    let chunks : List (List UInt8) :=
      [[0x6F], [0x6B, 0x0D], [0x0A, 0xC3], [0xA9, 0x0A, 0x6F, 0x6B]]
    let turn := (Session.start "A\nB\n" none).run (arrivals true chunks)
    turn.activity.heard = [.response .ack, .response (.status "é"), .response .ack] ∧
      turn.state = .over (.ok .completed) ∧
      (Session.start "A\nB\n" none).run (arrivals true [chunks.flatten]) = turn ∧
      Reading 2 true [[0x6F, 0x6B], [0xC3, 0xA9], [0x6F, 0x6B]] turn.activity.heard turn.state := by
  intro chunks turn
  obtain ⟨alike, _, reads⟩ := job_reads_stream "A\nB\n" none true chunks
  have heard : turn.activity.heard =
      [.response .ack, .response (.status "é"), .response .ack] := by decide
  have lines : receivedLines true chunks.flatten =
      [[0x6F, 0x6B], [0xC3, 0xA9], [0x6F, 0x6B]] := by decide
  refine ⟨heard, rfl, alike [chunks.flatten] (by simp), ?_⟩
  rw [← lines]
  exact reads (by decide)

end LaserCutter
