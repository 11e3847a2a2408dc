import LaserCutter.Controller.Channel

/-!
# Running a job on a channel

A session is a streamer on a channel. What happens from outside (bytes, the end of the channel,
the user's events, the clock, a cut of the wire) turns one session into the next, with the units
written and the things heard on the way, until the job is over. Things that happen at the same time
may be taken up in any order; the order of the happenings is the one in which they are taken up.
While the job runs, the controller is asked for its status at a fixed interval, and for the first
time as soon as the clock is looked at.
-/

namespace LaserCutter

inductive JobEnding where
  | completed
  | aborted
  /-- The controller closed the channel before the job was done. -/
  | disconnected
  /-- The program has no lines. -/
  | nothingToSend
  deriving DecidableEq, Repr

/-- The interval of status queries, and how long it is to the next one, in milliseconds. -/
structure Polling where
  interval : Nat
  left : Nat
  deriving DecidableEq, Repr

namespace Polling

def standardInterval : Nat := 250

/-- The first query is due at once. An interval of zero means no queries. -/
def every? (interval : Option Nat) : Option Polling :=
  (interval.filter (0 < ·)).map fun interval => ⟨interval, 0⟩

end Polling

structure Session where
  streamer : Streamer
  channel : Channel
  /-- The user can still send events. -/
  controls : Bool
  polling : Option Polling
  deriving DecidableEq, Repr

inductive SessionState where
  | running (session : Session)
  | over (result : Except ChannelError JobEnding)

/-- What a session does at one go, and the state that it leads to. -/
structure Turn where
  activity : Activity
  state : SessionState

namespace Turn

/-- The session waits for something to happen. -/
def wait (session : Session) : Turn := ⟨.none, .running session⟩

def fail (fault : WireFault) : Turn := ⟨.none, .over (.error (.wire fault))⟩

/-- Goes on with `next` unless the job is over. -/
def andThen (turn : Turn) (next : Session → Turn) : Turn :=
  match turn.state with
  | .over _ => turn
  | .running session =>
    let more := next session
    ⟨turn.activity ++ more.activity, more.state⟩

/-- Puts what went on right before the turn in front of it. -/
def after (turn : Turn) (activity : Activity) : Turn :=
  { turn with activity := activity ++ turn.activity }

end Turn

/-- What an effect puts on the wire. -/
def Effect.unit? : Effect → Option WireUnit
  | .send line => some (.line line)
  | .signal s => some (.signal s)
  | _ => none

/-- The units that effects put on the wire, in order. -/
def unitsOf (effects : List Effect) : List WireUnit := effects.filterMap Effect.unit?

/-- How an effect ends the job. -/
def Effect.outcome? : Effect → Option JobEnding
  | .completed => some .completed
  | .aborted => some .aborted
  | _ => none

/-- Something that happens to a session from outside. -/
inductive Happening where
  | received (bytes : List UInt8)
  /-- The controller closes the channel. -/
  | closed
  /-- The user's event. -/
  | control (event : StreamEvent)
  /-- The user will send no more events. -/
  | controlsClosed
  /-- Milliseconds pass, at most as many as are left to the next status query. -/
  | clock (passed : Nat)
  /-- The wire is cut: it takes so many more bytes, and all later writes fail. -/
  | wireEnds (room : Nat)
  deriving DecidableEq, Repr

/-- All later writes fail. -/
def Happening.wireCut : Happening := .wireEnds 0

namespace Session

/-- Writes units and waits. -/
def write (s : Session) (units : List WireUnit) : Turn :=
  match s.channel.put units with
  | (activity, some channel) => ⟨activity, .running { s with channel }⟩
  | (activity, none) => ⟨activity, .over (.error (.wire .cut))⟩

/-- Carries out the effects of one event. -/
def perform (s : Session) (effects : List Effect) : Turn :=
  (s.write (unitsOf effects)).andThen fun s =>
    match effects.findSome? Effect.outcome? with
    | some outcome => ⟨.none, .over (.ok outcome)⟩
    | none => .wait s

/-- Gives an event to the streamer. -/
def handle (s : Session) (event : StreamEvent) : Turn :=
  let (streamer, effects) := s.streamer.step event
  { s with streamer }.perform effects

/-- Only an acknowledgement moves the job on; every response is heard. -/
def hear (s : Session) (line : List UInt8) : Turn :=
  match responseOf? line with
  | .error fault => .fail fault
  | .ok none => .wait s
  | .ok (some r) => (if r = .ack then s.handle .ack else .wait s).after (.hearing [.response r])

/-- Hears all lines that are ready, and then the end of the channel if it has come. -/
def listen (s : Session) : Turn :=
  let emptied := Turn.wait { s with channel.inbox := s.channel.inbox.emptied }
  let lines := s.channel.inbox.lines
  (lines.foldl (fun turn line => turn.andThen (·.hear line)) emptied).andThen fun s =>
    if s.channel.inbox.closed then ⟨.hearing [.disconnected], .over (.ok .disconnected)⟩ else .wait s

def askStatus (s : Session) : Turn := s.write [.signal .status]

/-- A status query falls due when no time is left to it. -/
def tick (s : Session) (passed : Nat) : Turn :=
  match s.polling with
  | none => .wait s
  | some p =>
    if passed < p.left then .wait { s with polling := some { p with left := p.left - passed } }
    else { s with polling := some { p with left := p.interval } }.askStatus

def step (s : Session) : Happening → Turn
  | .received bytes => { s with channel := s.channel.receive bytes }.listen
  | .closed => { s with channel := s.channel.close }.listen
  | .control event => if s.controls then s.handle event else .wait s
  | .controlsClosed => .wait { s with controls := false }
  | .clock passed => s.tick passed
  | .wireEnds room => .wait { s with channel.cut := true, channel.room := room }

/-- Begins a job: the first lines go out. -/
def begin (channel : Channel) (program : String) (interval : Option Nat) : Turn :=
  let (streamer, effects) := Streamer.idle.step (.start program)
  if effects.isEmpty then ⟨.none, .over (.ok .nothingToSend)⟩
  else Session.perform ⟨streamer, channel, true, Polling.every? interval⟩ effects

/-- Begins a job where nothing has happened yet, and asks for the status. Here the clock is looked
at before anything else happens. No source goes before the others, so where a line or an event of
the user is ready by then, it may be taken up ahead of the first status query: that is `begin`, with
the happenings behind it in the order in which they are taken up. -/
def start (program : String) (interval : Option Nat) : Turn :=
  (begin .fresh program interval).andThen (·.tick 0)

end Session

/-- All that a list of happenings leads to. -/
def Turn.run (turn : Turn) (happenings : List Happening) : Turn :=
  happenings.foldl (fun turn happening => turn.andThen (·.step happening)) turn

end LaserCutter
