import LaserCutter.CommandLine.FileTree
import LaserCutter.CommandLine.Request
import LaserCutter.Controller.Exchange
import LaserCutter.Controller.Session
import LaserCutter.Motion.Playhead
import LaserCutter.Program.Writer
import LaserCutter.Scene.Reading
import LaserCutter.Toolpath

/-!
# Carrying out requests

A request is carried out on a host: whatever reads and writes files and talks to controllers. The
report tells what is printed and with which code the program ends: 1 for arguments that are not well
formed, 2 for a file that cannot be read, 3 for one with wrong content, 4 for everything that fails
later, and 101 for a scene that cannot be compiled.
-/

namespace LaserCutter.CommandLine

/-- What the program needs from the system it runs on. Files are named by their paths, and serial
devices are opened at a baud rate. -/
structure Host (m : Type → Type) where
  /-- How the pictures of a scene are read. -/
  pictures : PictureReader
  read : String → m (Except FileFault String)
  write : String → String → m (Except FileFault Unit)
  /-- Streams a program to its end. -/
  stream : Target → UInt32 → String → m (Except ChannelError JobEnding)
  /-- Sends one control line and awaits its reply. -/
  exchange : Target → UInt32 → String → m (Except ChannelError Unit)

/-- What is printed, and the code with which the program ends. -/
structure Report where
  code : Nat
  output : String
  errors : String
  deriving DecidableEq, Repr

namespace Report

def print (output : String) : Report := ⟨0, output, ""⟩

def fail (code : Nat) (message : String) : Report := ⟨code, "", message ++ "\n"⟩

end Report

/-- Times are whole seconds, lengths have one decimal place. -/
def estimateText (scene : Scene) (machine : Machine) (job : Job) : String :=
  let short := Number.shortest
  let tenths := Number.fixed 1
  let space := scene.workspace
  let lines := [
    "Commands:    " ++ toString job.moves.length,
    "Cut length:  " ++ tenths job.cutLength ++ " mm",
    "Job time:    " ++ durationText job.totalTime,
    "Workspace:   " ++ short space.width ++ " x " ++ short space.height ++ " mm"]
  let corner (x y : Float) := "(" ++ tenths x ++ ", " ++ tenths y ++ ")"
  let reach (b : Box) :=
    ["Extents:     " ++ corner b.minX b.minY ++ " to " ++ corner b.maxX b.maxY ++ " mm"]
  let bed := short machine.width ++ " x " ++ short machine.height ++ " mm bed"
  let warning := ["Warning:     job leaves the " ++ bed]
  let more :=
    match job.extents with
    | none => []
    | some b => reach b ++ if machine.bedHolds b then [] else warning
  String.join ((lines ++ more).map (· ++ "\n"))

/-- Either a value or the report with which the program ends at once. -/
abbrev Step (m : Type → Type) := ExceptT Report m

namespace Host

variable {m : Type → Type} [Monad m] (host : Host m)

/-- Reads the file at `path` as a `what`. -/
def load (what path : String) (parse : String → Except String α) : Step m α := do
  match ← host.read path with
  | .error fault => throw (.fail 2 s!"Error reading {what} '{path}': {fault.message}")
  | .ok text =>
    match parse text with
    | .error message => throw (.fail 3 s!"Error parsing {what} '{path}': {message}")
    | .ok a => return a

def loadScene (path : String) : Step m Scene :=
  host.load "scene" path fun text => (Scene.ofText text).mapError fun _ => "json error"

def loadMachine : Option String → Step m Machine
  | none => return .standard
  | some path =>
    host.load "machine settings" path fun text => (Machine.ofText text).mapError (·.message)

def jobOf (scene : Scene) (machine : Machine) : Step m Job :=
  match scene.job host.pictures machine with
  | .error fault => throw (.fail 101 s!"Error: {fault.message}")
  | .ok job => return job

def compile (scenePath : String) (output machinePath : Option String) : Step m Report := do
  let scene ← host.loadScene scenePath
  let machine ← host.loadMachine machinePath
  let program := (← host.jobOf scene machine).program machine
  match output with
  | none => return .print program
  | some path =>
    match ← host.write path program with
    | .error fault => return .fail 4 s!"Error writing output file '{path}': {fault.message}"
    | .ok () =>
      let count := (Text.lines program).length
      return ⟨0, "", s!"Wrote {count} lines to '{path}'\n"⟩

def send (scenePath : String) (target : Target) (machinePath : Option String) : Step m Report := do
  let scene ← host.loadScene scenePath
  let machine ← host.loadMachine machinePath
  let program := (← host.jobOf scene machine).program machine
  match ← host.stream target machine.baud program with
  | .ok .completed => return .print "Job completed\n"
  | .ok .nothingToSend => return .print "Nothing to send (no paths on output layers)\n"
  | .ok .aborted => return .fail 4 "Job aborted"
  | .ok .disconnected => return .fail 4 "Controller disconnected before the job finished"
  | .error e => return .fail 4 s!"Error streaming to '{target.text}': {e.message}"

def control (control : Control) (target : Target) (machinePath : Option String) :
    Step m Report := do
  let machine ← host.loadMachine machinePath
  match ← host.exchange target machine.baud (control.line machine) with
  | .ok () => return .print ""
  | .error e => return .fail 4 s!"Error talking to '{target.text}': {e.message}"

def estimate (scenePath : String) (machinePath : Option String) : Step m Report := do
  let scene ← host.loadScene scenePath
  let machine ← host.loadMachine machinePath
  return .print (estimateText scene machine (← host.jobOf scene machine))

/-- The name and version of the program. -/
def versionText : String := "laser-job 0.1.0\n"

def steps : Request → Step m Report
  | .version => return .print versionText
  | .compile scene output machine => host.compile scene output machine
  | .estimate scene machine => host.estimate scene machine
  | .send scene target machine => host.send scene target machine
  | .control c target machine => host.control c target machine

/-- Carries out what the arguments ask for. -/
def run (arguments : List String) : m Report :=
  match Request.ofArguments? arguments with
  | none => return .fail 1 "Error: the arguments are not well formed"
  | some request => do
    match ← (host.steps request).run with
    | .ok report | .error report => return report

end Host

end LaserCutter.CommandLine
