import LaserCutter.Controller.Address
import LaserCutter.Text.Lines

/-!
# Addresses without a network

A host without a network reads numeric addresses and knows the name `localhost`, but it reaches none
of them. Other names cannot be looked up; a text that is no name of a host is refused at once.
-/

namespace LaserCutter.CommandLine

/-- Why no connection is made. -/
inductive NetworkFault where
  | noRoute
  /-- The host has no address of its own to connect from. -/
  | noSource
  /-- Nobody answers for names. -/
  | unanswered
  | noHostName
  deriving DecidableEq, Repr

def NetworkFault.message : NetworkFault → String
  | .noRoute => "Network is unreachable (os error 101)"
  | .noSource => "Cannot assign requested address (os error 99)"
  | .unanswered => "failed to lookup address information: Temporary failure in name resolution"
  | .noHostName => "failed to lookup address information: Name or service not known"

/-- The value of a digit below `base`. -/
def digitBelow? (base : Nat) (c : Char) : Option Nat :=
  ("0123456789abcdef".toList.idxOf? c.toLower).filter (· < base)

/-- The number with the given digits, of which there is at least one. -/
def numberIn? (base : Nat) (digits : List Char) : Option Nat :=
  if digits = [] then none
  else digits.foldlM (fun n c => (digitBelow? base c).map (base * n + ·)) 0

/-- A part of a numeric address: a leading zero makes it octal, `0x` hexadecimal. -/
def addressPart? : List Char → Option Nat
  | '0' :: x :: digits =>
    if x = 'x' ∨ x = 'X' then numberIn? 16 digits else numberIn? 8 (x :: digits)
  | digits => numberIn? 10 digits

/-- Up to four parts with points between them. Each is a byte, but the last one fills the rest of
four bytes. -/
def isNumeric (host : List Char) : Bool :=
  match (host.splitOn '.').mapM addressPart? with
  | none => false
  | some parts =>
    parts.length ≤ 4 && parts.dropLast.all (· < 256) &&
      parts.getLast?.all (· < Nat.pow 256 (5 - parts.length))

/-- How many groups of a long address stand in a text: each has up to four hexadecimal digits, and
four bytes at the end of the address count as two groups. -/
def groupCount? (text : List Char) (atEnd : Bool) : Option Nat :=
  if text = [] then some 0
  else
    let fields := text.splitOn ':'
    let isGroup (f : List Char) : Bool := f.length ≤ 4 && (numberIn? 16 f).isSome
    let isQuad (f : List Char) : Bool :=
      let bytes := f.splitOn '.'
      bytes.length = 4 && bytes.all fun b =>
        (b.length = 1 || b.head? ≠ some '0') && (numberIn? 10 b).any (· < 256)
    if !fields.dropLast.all isGroup then none
    else
      match fields.getLast? with
      | none => none
      | some last =>
        if isGroup last then some fields.length
        else if atEnd && isQuad last then some (fields.length + 1)
        else none

/-- Eight groups, where two colons stand for one or more groups that are zero. -/
def isLongNumeric (host : List Char) : Bool :=
  match Text.splitFirst? "::".toList host with
  | none => groupCount? host true = some 8
  | some (before, after) =>
    match groupCount? before false, groupCount? after true with
    | some m, some n => m + n < 8
    | _, _ => false

/-- Labels of letters, digits, hyphens and underscores with points between them, and perhaps a point
at the end. A name does not begin with a hyphen. -/
def isHostName (host : List Char) : Bool :=
  let name := if host.getLast? = some '.' then host.dropLast else host
  let inLabel (c : Char) : Bool := c.isAlphanum || c = '-' || c = '_'
  name.length ≤ 253 && name.head? ≠ some '-' &&
    (name.splitOn '.').all fun label => label ≠ [] && label.length ≤ 63 && label.all inLabel

/-- A host in brackets is a long address. -/
def isBracketed (host : List Char) : Bool :=
  match host with
  | '[' :: rest => rest.getLast? = some ']' && isLongNumeric rest.dropLast
  | _ => false

/-- Why a host is not reached. -/
def offlineFault (host : String) : NetworkFault :=
  let cs := host.toList
  if isNumeric cs || cs.map Char.toLower = "localhost".toList then .noRoute
  else if isLongNumeric cs || isBracketed cs then .noSource
  else if isHostName cs then .unanswered
  else .noHostName

end LaserCutter.CommandLine
