import LaserCutter.CommandLine.Words
import LaserCutter.Number.DecimalReader
import LaserCutter.Program.Manual

/-!
# Requests

What the user asks for on the command line: the version, to compile or estimate a scene, to stream
it, or to send one control line. Whatever talks to a controller names exactly one address or serial device.
-/

namespace LaserCutter.CommandLine

/-- Where the controller is reached. -/
inductive Target where
  /-- Host and port of a bridge. -/
  | address (text : String)
  /-- The path of a serial device. -/
  | device (path : String)
  deriving DecidableEq, Repr

def Target.text : Target → String
  | .address text => text
  | .device path => path

inductive Control where
  | jog (dx dy : Float) (feed : Int)
  | goto (x y : Float) (feed : Int)
  | home
  | setOrigin
  | pointer (on : Bool)
  deriving DecidableEq, Repr

/-- The line that is sent for a control. -/
def Control.line (machine : Machine) : Control → String
  | .jog dx dy feed => Manual.jog dx dy feed
  | .goto x y feed => Manual.goto x y feed
  | .home => Manual.home
  | .setOrigin => Manual.setOrigin
  | .pointer on => Manual.pointer on machine.maxPower

/-- Scenes, outputs and machine settings are given by the paths of their files. -/
inductive Request where
  | version
  | compile (scene : String) (output machine : Option String)
  | estimate (scene : String) (machine : Option String)
  | send (scene : String) (target : Target) (machine : Option String)
  | control (control : Control) (target : Target) (machine : Option String)
  deriving DecidableEq, Repr

/-- A path is never empty. -/
def path? (text : String) : Option String := if text.isEmpty then none else some text

namespace Words

/-- The value of an option, if it is given and can be read. The outer `none` is a bad value. -/
def option? (words : Words) (name : String) (read : String → Option α) : Option (Option α) :=
  match words.options.lookup name with
  | none => some none
  | some text => (read text).map some

/-- The value of an option, or another one where it is not given. -/
def optionOr (words : Words) (name : String) (read : String → Option α) (other : α) : Option α :=
  (words.option? name read).map (·.getD other)

def machine? (words : Words) : Option (Option String) := words.option? "machine" path?

def target? (words : Words) : Option Target := do
  match ← words.option? "addr" some, ← words.option? "port" path? with
  | some text, none => some (.address text)
  | none, some path => some (.device path)
  | _, _ => none

def scene? (words : Words) : Option String :=
  match words.positionals with
  | [scene] => path? scene
  | _ => none

def feed? (words : Words) : Option Int := words.optionOr "feed" Number.readInt64? 1000

/-- A control that goes to the target named in the words. -/
def control? (words : Words) (control : Control) : Option Request := do
  return .control control (← words.target?) (← words.machine?)

end Words

/-- An option with a value that is no negative number. -/
def valued (name : String) : OptionRule := ⟨name, none, true, false⟩

/-- An option with a value that may be a negative number. -/
def distance (name : String) : OptionRule := ⟨name, none, true, true⟩

def targetOptions : List OptionRule := [valued "addr", valued "port", valued "machine"]

/-- The words that a command takes, and the request that they make. -/
structure CommandRule where
  name : String
  grammar : Grammar
  request? : Words → Option Request

def commandRules : List CommandRule := [
  { name := "compile"
    grammar := ⟨[⟨"output", some 'o', true, false⟩, valued "machine"], 1, false⟩
    request? := fun words => do
      return .compile (← words.scene?) (← words.option? "output" path?) (← words.machine?) },
  { name := "estimate"
    grammar := ⟨[valued "machine"], 1, false⟩
    request? := fun words => do return .estimate (← words.scene?) (← words.machine?) },
  { name := "send"
    grammar := ⟨targetOptions, 1, false⟩
    request? := fun words => do
      return .send (← words.scene?) (← words.target?) (← words.machine?) },
  { name := "jog"
    grammar := ⟨distance "dx" :: distance "dy" :: valued "feed" :: targetOptions, 0, false⟩
    request? := fun words => do
      let dx ← words.optionOr "dx" Number.readDecimal? 0
      let dy ← words.optionOr "dy" Number.readDecimal? 0
      words.control? (.jog dx dy (← words.feed?)) },
  { name := "goto"
    grammar := ⟨valued "feed" :: targetOptions, 2, true⟩
    request? := fun words => do
      let [x, y] ← words.positionals.mapM Number.readDecimal? | none
      words.control? (.goto x y (← words.feed?)) },
  { name := "home", grammar := ⟨targetOptions, 0, false⟩
    request? := fun words => words.control? .home },
  { name := "origin", grammar := ⟨targetOptions, 0, false⟩
    request? := fun words => words.control? .setOrigin },
  { name := "pointer"
    grammar := ⟨⟨"off", none, false, false⟩ :: targetOptions, 0, false⟩
    request? := fun words => words.control? (.pointer (words.options.lookup "off").isNone) }]

/-- The word asks for the version. What is attached to the short form does not matter. -/
def asksVersion (word : String) : Bool :=
  match shapeOf word with
  | .long name none => name = "version".toList
  | .short name _ => name = 'V'
  | _ => false

/-- The request that arguments make; `none` if they are not well formed. -/
def Request.ofArguments? : List String → Option Request
  | [] => none
  | name :: rest =>
    if asksVersion name then some .version
    else do
      let rule ← commandRules.find? (·.name = name)
      rule.request? (← rule.grammar.sort? ⟨[], []⟩ rest)

end LaserCutter.CommandLine
