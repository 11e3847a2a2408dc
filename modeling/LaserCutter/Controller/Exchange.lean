import LaserCutter.Controller.Channel

/-!
# Control lines and their replies

A control line is written and the controller's reply to it is awaited. Responses that are no reply
are heard and passed over; what comes after the reply stays in the inbox for the next line.
-/

namespace LaserCutter

/-- How an exchange stands. -/
inductive Reply where
  | accepted
  /-- The reply has not come. -/
  | awaited
  | failed (error : ChannelError)
  deriving DecidableEq, Repr

/-- Hears lines up to the reply to `line`; gives the inbox without them, the things heard and the
reply. -/
def replyIn (line : String) (inbox : Inbox) : Inbox × List Heard × Reply :=
  match _taken : inbox.next? with
  | none =>
    if inbox.closed then (inbox, [.disconnected], .failed .disconnected) else (inbox, [], .awaited)
  | some (bytes, rest) =>
    match responseOf? bytes with
    | .error fault => (rest, [], .failed (.wire fault))
    | .ok none => replyIn line rest
    | .ok (some .ack) => (rest, [.response .ack], .accepted)
    | .ok (some (.error reply)) =>
      (rest, [.response (.error reply)], .failed (.rejected line reply))
    | .ok (some r) =>
      let (left, heard, reply) := replyIn line rest
      (left, .response r :: heard, reply)
termination_by inbox.lines.length
decreasing_by all_goals exact Inbox.length_lines_of_next? ‹_›

namespace Channel

/-- Awaits the reply to a line that is already written. -/
def await (c : Channel) (line : String) : Channel × Activity × Reply :=
  let (inbox, heard, reply) := replyIn line c.inbox
  ({ c with inbox }, .hearing heard, reply)

/-- Writes a line without waiting for a reply. -/
def post (c : Channel) (line : String) : Activity × Reply :=
  match c.put [.line line] with
  | (sent, some _) => (sent, .accepted)
  | (sent, none) => (sent, .failed (.wire .cut))

/-- Writes a line and awaits its reply. -/
def exchange (c : Channel) (line : String) : Channel × Activity × Reply :=
  match c.put [.line line] with
  | (sent, some c) =>
    let (c, activity, reply) := c.await line
    (c, sent ++ activity, reply)
  | (sent, none) => ({ c with room := 0 }, sent, .failed (.wire .cut))

/-- Exchanges one line after the other, up to the first that is not accepted. -/
def exchangeAll (c : Channel) : List String → Channel × Activity × Reply
  | [] => (c, .none, .accepted)
  | line :: rest =>
    match c.exchange line with
    | (c, activity, .accepted) =>
      let (c, more, reply) := c.exchangeAll rest
      (c, activity ++ more, reply)
    | stopped => stopped

end Channel

end LaserCutter
