import LaserCutter.Controller.Exchange
import LaserCutter.Controller.Session

/-!
# Controllers that answer by a script

A scripted controller greets, answers every line it takes with the next of its answers, and with
`ok` when it has none left. It may close the channel after a number of lines. Jobs and control
lines can be run against it to their end.
-/

namespace LaserCutter

structure Script where
  greeting : String
  answers : List String
  /-- How many lines are taken before the controller closes the channel, if it does. -/
  closeAfter : Option Nat
  deriving DecidableEq, Repr

namespace Script

def said (text : String) : List Happening :=
  if text.isEmpty then [] else [.received text.toUTF8.toList]

/-- What the script does when the channel is opened. -/
def opening (script : Script) : List Happening :=
  said script.greeting ++ if script.closeAfter = some 0 then [.closed] else []

/-- What the script does about a line, once it has taken `taken` lines before. -/
def answer (script : Script) (taken : Nat) : List Happening :=
  said (script.answers.getD taken "ok\r\n") ++
    if script.closeAfter = some (taken + 1) then [.closed] else []

/-- Answers the units on the wire one after the other, `steps` of them at most; gives the lines
taken and how the job ends, if it does. -/
def serve (script : Script) : Nat → List String → List WireUnit → Turn →
    List String × Option (Except ChannelError JobEnding)
  | steps + 1, taken, .line text :: rest, turn =>
    let next := Turn.run { turn with activity := .none } (script.answer taken.length)
    serve script steps (text :: taken) (rest ++ next.activity.wrote) next
  | steps + 1, taken, .signal _ :: rest, turn => serve script steps taken rest turn
  | _, taken, _, turn =>
    match turn.state with
    | .over result => (taken.reverse, some result)
    | .running _ => (taken.reverse, none)

/-- Runs a job against the script, without status queries. -/
def runJob (script : Script) (program : String) :
    List String × Option (Except ChannelError JobEnding) :=
  let turn := (Session.start program none).run script.opening
  script.serve ((sentLines program).length + 1) [] turn.activity.wrote turn

/-- Sends one control line to the script. -/
def runExchange (script : Script) (line : String) : List String × Reply :=
  let heed (c : Channel) (happening : Happening) : Channel :=
    match happening with
    | .received bytes => c.receive bytes
    | .closed => c.close
    | _ => c
  let channel := (script.opening ++ script.answer 0).foldl heed .fresh
  let (_, _, reply) := channel.exchange line
  ([line], reply)

end Script

end LaserCutter
