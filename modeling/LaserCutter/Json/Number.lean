import LaserCutter.Json.Basic

/-!
# Numbers of a JSON text

The digits add up to a significand while it fits in 64 bits; whole digits beyond that only raise the
exponent and further places are dropped. A plain integer stays an integer if 64 bits hold it. Any
other number is the significand multiplied or divided once by the power of ten, each as a binary64
number; exponents beyond the range of powers are worked off in steps.
-/

namespace LaserCutter.Json

def digitOf (c : Char) : Nat := c.toNat - '0'.toNat

/-- Significand and power of ten of the digits so far; `full` once a digit did not fit. -/
structure Digits where
  significand : Nat
  exponent : Int
  full : Bool
  deriving DecidableEq, Repr

def Digits.fits (d : Digits) (c : Char) : Bool := d.significand * 10 + digitOf c < UInt64.size

def Digits.addWhole (d : Digits) (c : Char) : Digits :=
  if d.full || !d.fits c then { d with exponent := d.exponent + 1, full := true }
  else { d with significand := d.significand * 10 + digitOf c }

def Digits.addPlace (d : Digits) (c : Char) : Digits :=
  if d.full || !d.fits c then { d with full := true }
  else { d with significand := d.significand * 10 + digitOf c, exponent := d.exponent - 1 }

def powerOfTen (k : Nat) : Float := Float.ofScientific 1 false k

/-- Scales by a power of ten; a non-zero product beyond binary64 is no number. A quotient reaches
zero after at most three steps, so `steps` does not run out. -/
def scaleWithin : Nat → Float → Int → Option Float
  | 0, x, _ => some x
  | steps + 1, x, k =>
    if k.natAbs ≤ 308 then
      if 0 ≤ k then
        let y := x * powerOfTen k.natAbs
        if y.isInf then none else some y
      else some (x / powerOfTen k.natAbs)
    else if x == 0 then some x
    else if 0 ≤ k then none
    else scaleWithin steps (x / powerOfTen 308) (k + 308)

def Digits.toFloat? (d : Digits) : Option Float :=
  scaleWithin 5 d.significand.toUInt64.toFloat d.exponent

/-- An integer if it is written as one and 64 bits hold it; the integer zero has no sign. -/
def Digits.toNumber? (d : Digits) (negative plain : Bool) : Option Number :=
  if plain && !d.full then
    if !negative then some (.integer d.significand)
    else if 0 < d.significand && d.significand ≤ 0x8000000000000000 then
      some (.integer (-d.significand))
    else some (.real (-d.significand.toUInt64.toFloat))
  else d.toFloat?.map fun x => .real (if negative then -x else x)

/-- A number in a text: its value, or how its form is wrong, with what follows it. -/
inductive Numeral where
  | number (value : Option Number) (rest : List Char)
  /-- The text ends where a digit has to follow. -/
  | cut
  /-- Another character stands where a digit has to follow. -/
  | wrong

/-- Digits are due: the run of them and the rest, unless there is none. -/
def dueDigits (cs : List Char) (next : List Char → List Char → Numeral) : Numeral :=
  match cs with
  | [] => .cut
  | c :: _ =>
    if c.isDigit then next (cs.takeWhile Char.isDigit) (cs.dropWhile Char.isDigit) else .wrong

def readExponent (digits : Digits) (negative plain : Bool) (cs : List Char) : Numeral :=
  match cs with
  | c :: rest =>
    if c = 'e' ∨ c = 'E' then
      let (down, rest) :=
        match rest with
        | '-' :: after => (true, after)
        | '+' :: after => (false, after)
        | _ => (false, rest)
      dueDigits rest fun ds after =>
        let k : Nat := ds.foldl (fun n d => 10 * n + digitOf d) 0
        let exponent := if down then digits.exponent - k else digits.exponent + k
        .number ({ digits with exponent }.toNumber? negative false) after
    else .number (digits.toNumber? negative plain) cs
  | [] => .number (digits.toNumber? negative plain) []

def readPlaces (digits : Digits) (negative : Bool) (cs : List Char) : Numeral :=
  match cs with
  | '.' :: rest =>
    dueDigits rest fun ds after =>
      readExponent (ds.foldl Digits.addPlace { digits with full := false }) negative false after
  | _ => readExponent digits negative true cs

/-- Reads the number at the front: no leading zeros, no sign but a minus. -/
def readNumeral (cs : List Char) : Numeral :=
  let (negative, cs) :=
    match cs with
    | '-' :: rest => (true, rest)
    | _ => (false, cs)
  dueDigits cs fun ds after =>
    if ds.head? = some '0' ∧ 1 < ds.length then .wrong
    else readPlaces (ds.foldl Digits.addWhole ⟨0, 0, false⟩) negative after

end LaserCutter.Json
