/-!
# Words of a command

A command takes options and positional words. An option is written `--name value`, `--name=value`
or, with a short name, `-n value`, `-nvalue` or `-n=value`; a flag has no value. No option may
come twice. After `--` every word is positional. A word that begins with a hyphen is a value or
positional only if it reads as a negative number and negative numbers are asked for there.
-/

namespace LaserCutter.CommandLine

structure OptionRule where
  name : String
  short : Option Char
  takesValue : Bool
  /-- The value may be a negative number. -/
  negative : Bool
  deriving DecidableEq, Repr

structure Grammar where
  options : List OptionRule
  /-- How many positional words there are at most. -/
  places : Nat
  /-- Positional words may be negative numbers. -/
  negative : Bool
  deriving DecidableEq, Repr

/-- The words of a command sorted out; a flag that is set has an empty value. -/
structure Words where
  options : List (String × String)
  positionals : List String
  deriving DecidableEq, Repr

/-- Digits with at most one point among them, which is not first, and possibly an `e` and more
digits. -/
def isPlainNumber (cs : List Char) : Bool :=
  let mantissa := cs.takeWhile (· ≠ 'e')
  mantissa ≠ [] && mantissa.head? ≠ some '.' && mantissa.count '.' ≤ 1 &&
    mantissa.all (fun c => c.isDigit || c = '.') &&
    match cs.dropWhile (· ≠ 'e') with
    | [] => true
    | _ :: exponent => exponent ≠ [] && exponent.all Char.isDigit

/-- How a word looks before one knows the command. -/
inductive Shape where
  /-- The word `--`. -/
  | stop
  | long (name : List Char) (value : Option (List Char))
  | short (name : Char) (attached : List Char)
  | plain
  deriving DecidableEq, Repr

def shapeOf (word : String) : Shape :=
  match word.toList with
  | ['-', '-'] => .stop
  | '-' :: '-' :: rest =>
    match rest.dropWhile (· ≠ '=') with
    | [] => .long rest none
    | _ :: value => .long (rest.takeWhile (· ≠ '=')) (some value)
  | '-' :: c :: attached => .short c attached
  | _ => .plain

namespace Grammar

/-- Some positional word is still to come. -/
def open? (g : Grammar) (words : Words) : Bool := words.positionals.length < g.places

/-- The word may stand where a value or a positional word is read, given whether that takes negative
numbers. -/
def admits (g : Grammar) (words : Words) (negative : Bool) (word : String) : Bool :=
  match shapeOf word with
  | .plain => true
  | .short c attached => (negative || g.negative && g.open? words) && isPlainNumber (c :: attached)
  | _ => false

def addPositional (g : Grammar) (words : Words) (word : String) : Option Words :=
  if g.open? words then some { words with positionals := words.positionals ++ [word] } else none

def addOption (words : Words) (name value : String) : Option Words :=
  if (words.options.lookup name).isSome then none
  else some { words with options := words.options ++ [(name, value)] }

/-- The rule that a word names, and the value attached to it. -/
def rule? (g : Grammar) (word : String) : Option (OptionRule × Option String) :=
  match shapeOf word with
  | .long name value =>
    (g.options.find? (·.name = String.ofList name)).map fun rule => (rule, value.map String.ofList)
  | .short c attached =>
    (g.options.find? (·.short = some c)).map fun rule =>
      let value := if attached.head? = some '=' then some attached.tail
        else if attached = [] then none else some attached
      (rule, value.map String.ofList)
  | _ => none

/-- Sorts out words after those that are sorted out already. -/
def sort? (g : Grammar) : Words → List String → Option Words
  | words, [] => some words
  | words, word :: rest =>
    if shapeOf word = .stop then rest.foldlM g.addPositional words
    else if g.admits words false word then do
      let words ← g.addPositional words word
      g.sort? words rest
    else
      match g.rule? word, rest with
      | some (⟨name, _, true, _⟩, some value), rest => do
        let words ← addOption words name value
        g.sort? words rest
      | some (⟨name, _, true, negative⟩, none), value :: rest =>
        if g.admits words negative value then do
          let words ← addOption words name value
          g.sort? words rest
        else none
      | some (⟨name, _, false, _⟩, none), rest => do
        let words ← addOption words name ""
        g.sort? words rest
      | _, _ => none

end Grammar

end LaserCutter.CommandLine
