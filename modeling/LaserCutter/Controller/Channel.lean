import LaserCutter.Controller.Inbox
import LaserCutter.Controller.Response
import LaserCutter.Controller.Streamer

/-!
# The channel to a controller

What goes out is a sequence of units: lines, each with a line feed, and signals of one byte. What
comes in is heard as responses, and as the end of the channel. A wire that is cut takes a number of
bytes more, and then writing fails; it may fail inside a unit.
-/

namespace LaserCutter

/-- One thing that is put on the wire. -/
inductive WireUnit where
  | line (text : String)
  | signal (s : Signal)
  deriving DecidableEq, Repr

def WireUnit.bytes : WireUnit → List UInt8
  | .line text => text.toUTF8.data.toList ++ [Inbox.lineFeed]
  | .signal s => [s.byte]

/-- One thing that is reported of a controller. -/
inductive Heard where
  | response (r : Response)
  | disconnected
  deriving DecidableEq, Repr

/-- What has gone out and what has come in. -/
structure Activity where
  /-- The units that went out whole. -/
  wrote : List WireUnit
  heard : List Heard
  /-- If a write failed: the bytes of the next unit that still went out. -/
  torn : Option (List UInt8)
  deriving DecidableEq, Repr

namespace Activity

def none : Activity := ⟨[], [], .none⟩

def sent (units : List WireUnit) : Activity := ⟨units, [], .none⟩

def hearing (heard : List Heard) : Activity := ⟨[], heard, .none⟩

/-- The bytes that went out. -/
def bytes (a : Activity) : List UInt8 := a.wrote.flatMap WireUnit.bytes ++ a.torn.getD []

def append (a b : Activity) : Activity :=
  ⟨a.wrote ++ b.wrote, a.heard ++ b.heard, a.torn.or b.torn⟩

instance : Append Activity := ⟨append⟩

variable (a b c : Activity)

@[simp] theorem wrote_append : (a ++ b).wrote = a.wrote ++ b.wrote := rfl

@[simp] theorem heard_append : (a ++ b).heard = a.heard ++ b.heard := rfl

@[simp] theorem torn_append : (a ++ b).torn = a.torn.or b.torn := rfl

@[ext] theorem ext_parts {a b : Activity} (wrote : a.wrote = b.wrote) (heard : a.heard = b.heard)
    (torn : a.torn = b.torn) : a = b := by
  cases a; cases b; simp_all

@[simp] theorem none_append : none ++ a = a := rfl

@[simp] theorem append_none : a ++ none = a := by
  ext1 <;> simp [none]

theorem append_assoc : a ++ b ++ c = a ++ (b ++ c) := by
  ext1 <;> simp [Option.or_assoc]

end Activity

/-- What goes wrong on the wire itself. -/
inductive WireFault where
  /-- A write fails. -/
  | cut
  /-- A line that comes in is not UTF-8. -/
  | garbled (fault : Text.Utf8Fault)
  deriving DecidableEq, Repr

def WireFault.message : WireFault → String
  | .cut => "wire cut"
  | .garbled fault => fault.message

inductive ChannelError where
  | wire (fault : WireFault)
  | rejected (line reply : String)
  | disconnected
  /-- No connection could be made, for a reason that the system gives. -/
  | unreachable (address reason : String)
  /-- A serial device could not be set to raw mode. -/
  | unconfigured (device : String)
  deriving DecidableEq, Repr

def ChannelError.message : ChannelError → String
  | .wire fault => "io error: " ++ fault.message
  | .rejected line reply => s!"channel error: '{line}' rejected: {reply}"
  | .disconnected => "channel error: controller disconnected"
  | .unreachable address reason => s!"channel error: cannot connect to {address}: {reason}"
  | .unconfigured device => s!"channel error: stty failed for {device} (exit status: 1)"

structure Channel where
  inbox : Inbox
  /-- Writes fail, once the wire has taken `room` more bytes. -/
  cut : Bool
  room : Nat
  deriving DecidableEq, Repr

namespace Channel

def fresh : Channel := ⟨.empty, false, 0⟩

def receive (c : Channel) (bytes : List UInt8) : Channel :=
  { c with inbox := c.inbox.receive bytes }

def close (c : Channel) : Channel := { c with inbox := c.inbox.close }

/-- The units that fit into a number of bytes, and what fits of the next one. -/
def fitting : List WireUnit → Nat → List WireUnit × List UInt8
  | [], _ => ([], [])
  | u :: rest, room =>
    if u.bytes.length ≤ room then
      let (whole, torn) := fitting rest (room - u.bytes.length)
      (u :: whole, torn)
    else ([], u.bytes.take room)

/-- Writes units; gives what goes out, and the channel after it unless a write fails. Nothing at all
can always be written. -/
def put (c : Channel) (units : List WireUnit) : Activity × Option Channel :=
  if c.cut then
    let size := (units.flatMap WireUnit.bytes).length
    if size ≤ c.room then (.sent units, some { c with room := c.room - size })
    else
      let (whole, torn) := fitting units c.room
      (⟨whole, [], some torn⟩, none)
  else (.sent units, some c)

end Channel

/-- What a line says, read off its bytes. -/
def responseOf? (line : List UInt8) : Except WireFault (Option Response) :=
  match Text.decodeUtf8 line with
  | .error fault => .error (.garbled fault)
  | .ok text => .ok (Response.ofLine? text)

end LaserCutter
