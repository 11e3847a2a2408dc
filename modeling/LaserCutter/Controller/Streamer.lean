import LaserCutter.Program.Lines

/-!
# Streaming under flow control

At most three lines of a program are on their way without an answer. The streamer is a state and a
step: an event gives the next state and what is to be done about it. Events that mean nothing in a
state change nothing: late answers, a second start, a pause while paused.
-/

namespace LaserCutter

/-- How many lines may be unanswered. -/
def window : Nat := 3

inductive Phase where
  | idle
  | running
  | paused
  deriving DecidableEq, Repr

/-- Signals of one byte that go past the queue of lines. -/
inductive Signal where
  | hold
  | resume
  | reset
  | status
  deriving DecidableEq, Repr

def Signal.byte : Signal → UInt8
  | .hold => 0x21
  | .resume => 0x7E
  | .reset => 0x18
  | .status => 0x3F

inductive StreamEvent where
  /-- Begin with the lines of a program. -/
  | start (program : String)
  | pause
  | resume
  | abort
  /-- The controller has taken a line. -/
  | ack
  /-- An occasion to send. -/
  | poll
  deriving DecidableEq, Repr

inductive Effect where
  | send (line : String)
  | signal (s : Signal)
  | progress (done total : Nat)
  | completed
  | aborted
  deriving DecidableEq, Repr

structure Streamer where
  phase : Phase
  lines : List String
  /-- How many of the lines are sent. -/
  sent : Nat
  /-- How many of those are unanswered. -/
  inFlight : Nat
  deriving DecidableEq, Repr

namespace Streamer

def idle : Streamer := ⟨.idle, [], 0, 0⟩

/-- The lines not yet sent. -/
def pending (s : Streamer) : List String := s.lines.drop s.sent

def total (s : Streamer) : Nat := s.lines.length

/-- How many lines are sent and answered. -/
def done (s : Streamer) : Nat := s.sent - s.inFlight

/-- The lines that fit into the window now. -/
def batch (s : Streamer) : List String := s.pending.take (window - s.inFlight)

/-- The state once the batch is sent. -/
def afterBatch (s : Streamer) : Streamer :=
  { s with sent := s.sent + s.batch.length, inFlight := s.inFlight + s.batch.length }

/-- Fills the window of a running job and reports progress; a job with nothing left is complete. -/
def fill (s : Streamer) : Streamer × List Effect :=
  if s.phase = .running then
    let full := s.afterBatch
    let effects := s.batch.map .send ++ [.progress full.done full.total]
    if full.total ≤ full.sent ∧ full.inFlight = 0 then (idle, effects ++ [.completed])
    else (full, effects)
  else (s, [])

def step (s : Streamer) (event : StreamEvent) : Streamer × List Effect :=
  match s.phase, event with
  | .idle, .start program =>
    let lines := sentLines program
    if lines.isEmpty then (idle, []) else fill ⟨.running, lines, 0, 0⟩
  | .paused, .start _ | .paused, .resume =>
    let (next, effects) := { s with phase := .running }.fill
    (next, .signal .resume :: effects)
  | .running, .pause => ({ s with phase := .paused }, [.signal .hold])
  | .running, .abort | .paused, .abort => (idle, [.signal .reset, .aborted])
  | .running, .ack | .paused, .ack => { s with inFlight := s.inFlight - 1 }.fill
  | .running, .poll | .paused, .poll => s.fill
  | _, _ => (s, [])

/-- The state after a list of events, and all effects in order. -/
def run (s : Streamer) : List StreamEvent → Streamer × List Effect
  | [] => (s, [])
  | event :: rest =>
    let (next, effects) := s.step event
    let (last, more) := next.run rest
    (last, effects ++ more)

end Streamer

end LaserCutter
