import LaserCutter.Number.DecimalReader

/-!
# Network addresses

An address is a host, a colon and a port number; what stands before the last colon is the host.
-/

namespace LaserCutter

structure Address where
  host : String
  port : UInt16
  deriving DecidableEq, Repr

inductive AddressFault where
  | noPort
  | badPort
  deriving DecidableEq, Repr

def AddressFault.message : AddressFault → String
  | .noPort => "invalid socket address"
  | .badPort => "invalid port value"

/-- A port has digits only, after an optional plus sign. -/
def readPort? (cs : List Char) : Option UInt16 :=
  let ds := if cs.head? = some '+' then cs.tail else cs
  if ds = [] ∨ !ds.all Char.isDigit then none
  else
    let n := Number.digitsValue ds
    if n < UInt16.size then some n.toUInt16 else none

def Address.ofText (text : String) : Except AddressFault Address :=
  let backwards := text.toList.reverse
  match backwards.dropWhile (· ≠ ':') with
  | [] => .error .noPort
  | _ :: host =>
    match readPort? (backwards.takeWhile (· ≠ ':')).reverse with
    | none => .error .badPort
    | some port => .ok ⟨String.ofList host.reverse, port⟩

end LaserCutter
