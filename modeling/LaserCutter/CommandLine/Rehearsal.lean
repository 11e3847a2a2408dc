import LaserCutter.CommandLine.FileTree
import LaserCutter.CommandLine.Offline
import LaserCutter.CommandLine.Run
import LaserCutter.Controller.Script
import LaserCutter.Image.Png

/-!
# Rehearsing requests

A stage is a host without a machine: a file tree and perhaps one scripted controller at a given
address. There is no network to other addresses, and no serial device can be configured.
-/

namespace LaserCutter.CommandLine

structure Stage where
  tree : FileTree
  controller : Option (String × Script)
  /-- The lines that the controller has taken. -/
  taken : List String

namespace Stage

/-- The script of the controller at a target. -/
def reach (stage : Stage) : Target → Except ChannelError Script
  | .device path => .error (.unconfigured path)
  | .address text =>
    match stage.controller.filter (·.1 = text), Address.ofText text with
    | some (_, script), _ => .ok script
    | none, .error fault => .error (.unreachable text fault.message)
    | none, .ok address => .error (.unreachable text (offlineFault address.host).message)

/-- The stage once the controller has taken lines. -/
def took (lines : List String) (stage : Stage) : Stage :=
  { stage with taken := stage.taken ++ lines }

/-- What a request does on a stage. A job that would wait forever counts as cut off, and so does a
reply that never comes. -/
def host : Host (StateM Stage) where
  pictures := Image.decodePng
  read path := return (← get).tree.read path
  write path text := do
    match (← get).tree.write path text with
    | .error fault => return .error fault
    | .ok tree => modify fun stage => { stage with tree }; return .ok ()
  stream target _ program := do
    match (← get).reach target with
    | .error e => return .error e
    | .ok script =>
      let (lines, result) := script.runJob program
      modify (took lines)
      return result.getD (.ok .disconnected)
  exchange target _ line := do
    match (← get).reach target with
    | .error e => return .error e
    | .ok script =>
      let (lines, reply) := script.runExchange line
      modify (took lines)
      match reply with
      | .accepted => return .ok ()
      | .awaited => return .error .disconnected
      | .failed e => return .error e

/-- Carries out what the arguments ask for. What went to the program's output and errors as to files
was printed first. -/
def run (arguments : List String) (stage : Stage) : Report × Stage :=
  let (report, stage) := (host.run arguments).run stage
  let output := stage.tree.sentTo .output ++ report.output
  let errors := stage.tree.sentTo .errors ++ report.errors
  ({ report with output, errors }, stage)

end Stage

end LaserCutter.CommandLine
