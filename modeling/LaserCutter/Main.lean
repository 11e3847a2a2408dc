import LaserCutter.CommandLine.Run
import LaserCutter.Controller.Address
import LaserCutter.Image.Png
import Std.Async.DNS
import Std.Async.Select
import Std.Async.TCP
import Std.Async.Timer

/-!
# The command line program

Files, sockets and serial devices of the system the program runs on. A serial device is expected
to be in raw mode at the baud rate of the machine.
-/

namespace LaserCutter.CommandLine

open Std.Async

/-- An open channel: how to write bytes, and how to wait for bytes for at most some milliseconds. -/
structure Wire where
  write : ByteArray → IO Unit
  /-- Either the time is over, or bytes come; no bytes mean that the channel is closed. -/
  await : Option Nat → IO (Option ByteArray)

namespace Wire

def ofSocket (client : TCP.Socket.Client) : Wire where
  write bytes := (client.send bytes).block
  await limit := Async.block do
    let incoming : Selectable (Option ByteArray) :=
      .case (client.recvSelector 4096) fun bytes => return some (bytes.getD .empty)
    match limit with
    | none => Selectable.one #[incoming]
    | some ms =>
      let timer ← Selector.sleep (.ofNat ms)
      Selectable.one #[incoming, .case timer fun _ => return none]

/-- Waits until a task is done, at most until the clock shows `deadline`. -/
partial def awaitTask (task : Task (Except IO.Error α)) (deadline : Option Nat) :
    IO (Option α) := do
  if ← IO.hasFinished task then return some (← IO.ofExcept task.get)
  if let some time := deadline then
    if time ≤ (← IO.monoMsNow) then return none
  IO.sleep 5
  awaitTask task deadline

/-- A device is read line by line; a line that has begun is waited for again. -/
def ofDevice (input output : IO.FS.Handle) : IO Wire := do
  let reading ← IO.mkRef (none : Option (Task (Except IO.Error String)))
  return {
    write := fun bytes => do output.write bytes; output.flush
    await := fun limit => do
      let task ← match ← reading.get with
        | some task => pure task
        | none => IO.asTask input.getLine
      reading.set (some task)
      let deadline ← limit.mapM fun ms => do return (← IO.monoMsNow) + ms
      let line ← awaitTask task deadline
      if line.isSome then reading.set none
      return line.map (·.toUTF8) }

def writeUnits (wire : Wire) (units : List WireUnit) : IO Bool := do
  try
    wire.write ⟨(units.flatMap WireUnit.bytes).toArray⟩
    return true
  catch _ => return false

/-- What comes within a time, as happenings. -/
def happenings (wire : Wire) (limit : Option Nat) : IO (List Happening) := do
  let began ← IO.monoMsNow
  let bytes ← try wire.await limit catch _ => pure (some .empty)
  let passed := (← IO.monoMsNow) - began
  let clock : List Happening := limit.toList.map fun ms => .clock (min ms passed)
  match bytes with
  | none => return limit.toList.map .clock
  | some bytes => return clock ++ [if bytes.isEmpty then .closed else .received bytes.toList]

/-- Carries a job on to its end. -/
partial def runJob (wire : Wire) (turn : Turn) : IO (Except ChannelError JobEnding) := do
  unless ← wire.writeUnits turn.activity.wrote do return .error (.wire .cut)
  match turn.state with
  | .over result => return result
  | .running session =>
    let next ← wire.happenings (session.polling.map Polling.left)
    wire.runJob ((Turn.wait session).run next)

/-- Waits for the reply to a line that is written. -/
partial def awaitReply (wire : Wire) (channel : Channel) (line : String) :
    IO (Except ChannelError Unit) := do
  match channel.await line with
  | (_, _, .accepted) => return .ok ()
  | (_, _, .failed e) => return .error e
  | (channel, _, .awaited) =>
    match ← try wire.await none catch _ => pure none with
    | none => wire.awaitReply channel.close line
    | some bytes =>
      wire.awaitReply (if bytes.isEmpty then channel.close else channel.receive bytes.toList) line

def exchange (wire : Wire) (line : String) : IO (Except ChannelError Unit) := do
  if ← wire.writeUnits [.line line] then wire.awaitReply .fresh line else return .error (.wire .cut)

def connect (address : Address) : IO Wire := do
  let found ← (DNS.getAddrInfo address.host (toString address.port)).block
  match found[0]? with
  | none => throw (IO.userError "failed to lookup address information")
  | some ip =>
    let client ← TCP.Socket.Client.mk
    let socket : Std.Net.SocketAddress :=
      match ip with
      | .v4 addr => .v4 ⟨addr, address.port⟩
      | .v6 addr => .v6 ⟨addr, address.port⟩
    (client.connect socket).block
    return ofSocket client

def open? (target : Target) : IO (Except ChannelError Wire) := do
  match target with
  | .device path =>
    try
      return .ok (← ofDevice (← IO.FS.Handle.mk path .read) (← IO.FS.Handle.mk path .readWrite))
    catch _ => return .error (.unconfigured path)
  | .address text =>
    match Address.ofText text with
    | .error fault => return .error (.unreachable text fault.message)
    | .ok address =>
      try return .ok (← connect address)
      catch e => return .error (.unreachable text (toString e))

end Wire

def FileFault.ofError : IO.Error → FileFault
  | .noFileOrDirectory .. => .notFound
  | .permissionDenied .. => .denied
  | .inappropriateType _ code _ => if code = 20 then .notDirectory else .isDirectory
  | .userError _ => .notText
  | e => .other (toString e)

/-- The system the program runs on. -/
def system : Host IO where
  pictures := Image.decodePng
  read path := do
    try return .ok (← IO.FS.readFile path)
    catch e => return .error (.ofError e)
  write path text := do
    try
      IO.FS.writeFile path text
      return .ok ()
    catch e => return .error (.ofError e)
  stream target _ program := do
    match ← Wire.open? target with
    | .error e => return .error e
    | .ok wire => wire.runJob (Session.start program Polling.standardInterval)
  exchange target _ line := do
    match ← Wire.open? target with
    | .error e => return .error e
    | .ok wire => wire.exchange line

end LaserCutter.CommandLine

def main (args : List String) : IO UInt32 := do
  let report ← LaserCutter.CommandLine.system.run args
  IO.print report.output
  IO.eprint report.errors
  return report.code.toUInt32
