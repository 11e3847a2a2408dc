/-!
# Files by their paths

A file tree holds files, directories and devices at places, and a place is the list of names that
lead to it from the root. A path is followed name by name: every name before the last one has to
lead to a directory, and so has the last one where a slash ends the path.
-/

namespace LaserCutter.CommandLine

/-- Why a file cannot be read or written. -/
inductive FileFault where
  | notFound
  | notDirectory
  | isDirectory
  | denied
  | nameTooLong
  | noSpace
  | notText
  | other (text : String)
  deriving DecidableEq, Repr

def FileFault.message : FileFault → String
  | .notFound => "No such file or directory (os error 2)"
  | .denied => "Permission denied (os error 13)"
  | .notDirectory => "Not a directory (os error 20)"
  | .isDirectory => "Is a directory (os error 21)"
  | .noSpace => "No space left on device (os error 28)"
  | .nameTooLong => "File name too long (os error 36)"
  | .notText => "stream did not contain valid UTF-8"
  | .other text => text

/-- What can be written to like a file, and read as an empty one. -/
inductive Device where
  /-- Takes everything. -/
  | null
  /-- Has room for nothing. -/
  | full
  /-- The output of the program. -/
  | output
  /-- The errors of the program. -/
  | errors
  deriving DecidableEq, Repr

inductive Node where
  | directory
  | file (text : String)
  | device (d : Device)
  deriving DecidableEq, Repr

/-- The names that lead to a place from the root. -/
abbrev Place := List String

structure FileTree where
  /-- Where relative paths begin. -/
  here : Place
  directories : List Place
  files : List (Place × String)
  devices : List (Place × Device)
  /-- What was written to devices. -/
  sent : List (Device × String)
  deriving DecidableEq, Repr

namespace FileTree

/-- The bytes of the longest name. -/
def longestName : Nat := 255

/-- The bytes of the longest path. -/
def longestPath : Nat := 4095

/-- Every place that leads to another one is a directory. -/
def isDirectory (tree : FileTree) (place : Place) : Bool :=
  place.isPrefixOf tree.here || tree.directories.any (place.isPrefixOf ·) ||
    (tree.files.map (·.1) ++ tree.devices.map (·.1)).any (place.isPrefixOf ·.dropLast)

def node? (tree : FileTree) (place : Place) : Option Node :=
  match tree.files.lookup place, tree.devices.lookup place with
  | some text, _ => some (.file text)
  | none, some d => some (.device d)
  | none, none => if tree.isDirectory place then some .directory else none

/-- The names of a path; an empty one stands between two slashes or at an end with a slash. -/
def names (path : String) : List String := path.splitOn "/"

/-- Where a path begins. -/
def start (tree : FileTree) (path : String) : Place :=
  if path.startsWith "/" then [] else tree.here

/-- The place that a name leads to from a place, whether there is anything or not. The root is its
own parent. -/
def child (tree : FileTree) (place : Place) (name : String) : Except FileFault Place :=
  if !tree.isDirectory place then .error .notDirectory
  else if name = "" ∨ name = "." then .ok place
  else if name = ".." then .ok place.dropLast
  else if longestName < name.utf8ByteSize then .error .nameTooLong
  else .ok (place ++ [name])

/-- Follows a name to where there is something. -/
def step (tree : FileTree) (place : Place) (name : String) : Except FileFault Place := do
  let next ← tree.child place name
  if (tree.node? next).isSome then return next else throw .notFound

def read (path : String) (tree : FileTree) : Except FileFault String := do
  if longestPath < path.utf8ByteSize then throw .nameTooLong
  match tree.node? (← (names path).foldlM tree.step (tree.start path)) with
  | some (.file text) => return text
  | some (.device _) => return ""
  | some .directory => throw .isDirectory
  | none => throw .notFound

/-- Replaces the file at a place, or puts a new one there. -/
def put (place : Place) (text : String) (tree : FileTree) : Except FileFault FileTree :=
  match tree.node? place with
  | some .directory => .error .isDirectory
  | some (.device .full) => if text = "" then .ok tree else .error .noSpace
  | some (.device d) => .ok { tree with sent := tree.sent ++ [(d, text)] }
  | some (.file _) =>
    .ok { tree with files := tree.files.map fun f => if f.1 = place then (place, text) else f }
  | none => .ok { tree with files := tree.files ++ [(place, text)] }

/-- Writes a file into a directory that there is. A path that can only name a directory is refused
as one. -/
def write (path text : String) (tree : FileTree) : Except FileFault FileTree := do
  if longestPath < path.utf8ByteSize then throw .nameTooLong
  let backwards := (names path).reverse
  match backwards.dropWhile (· = "") with
  | [] => throw .isDirectory
  | last :: before =>
    let directory ← before.reverse.foldlM tree.step (tree.start path)
    if !tree.isDirectory directory then throw .notDirectory
    if backwards.head? = some "" ∨ last = "." ∨ last = ".." then throw .isDirectory
    tree.put (← tree.child directory last) text

/-- All that was written to a device. -/
def sentTo (tree : FileTree) (d : Device) : String :=
  String.join ((tree.sent.filter (·.1 = d)).map (·.2))

/-- The directories at the root of a system. -/
def rootDirectories : List String :=
  ["bin", "boot", "dev", "etc", "home", "lib", "media", "mnt", "opt", "proc", "root", "run", "sbin",
    "srv", "sys", "tmp", "usr", "var"]

/-- Devices that every system has. -/
def standardDevices : List (Place × Device) :=
  [(["dev", "null"], .null), (["dev", "stdin"], .null), (["dev", "full"], .full),
    (["dev", "stdout"], .output), (["dev", "stderr"], .errors)]

/-- A directory of its own for a program that is run once. -/
def scratch : Place := ["tmp", "stage"]

/-- A system on which relative paths name the given files. The one other file holds no text. -/
def ofFiles (files : List (String × String)) : FileTree where
  here := scratch
  directories := rootDirectories.map ([·])
  files := (["etc", "passwd"], "") :: files.map fun (path, text) =>
    (scratch ++ (names path).filter fun name => name ≠ "" ∧ name ≠ ".", text)
  devices := standardDevices
  sent := []

end FileTree

end LaserCutter.CommandLine
