import LaserCutter.Number.Rounding

/-!
# Reading decimal text

The grammar: an optional sign, then digits with an optional point and at least one digit, then an
optional exponent; or `inf`, `infinity` or `nan` in any case. Nothing else is a number, blanks
included. The value is the nearest binary64 number; what lies beyond the range is infinite. A whole
number has a sign and digits only, and is read if 64 bits hold it.
-/

namespace LaserCutter.Number

def digitValue (c : Char) : Nat := c.toNat - '0'.toNat

/-- The value of a run of decimal digits. -/
def digitsValue (cs : List Char) : Nat := cs.foldl (fun n c => 10 * n + digitValue c) 0

/-- Splits off a leading sign. -/
def takeSign : List Char → Bool × List Char
  | '-' :: rest => (true, rest)
  | '+' :: rest => (false, rest)
  | rest => (false, rest)

/-- The exponent after the digits: absent, or `e` with an optional sign and at least one digit. -/
def readExponent? : List Char → Option Int
  | [] => some 0
  | c :: rest =>
    if c = 'e' ∨ c = 'E' then
      let (negative, ds) := takeSign rest
      if ds ≠ [] ∧ ds.all Char.isDigit then
        some (if negative then -digitsValue ds else digitsValue ds)
      else none
    else none

/-- `m * 10 ^ k` rounded to the nearest binary64 number. -/
def ofDecimal (m : Nat) (k : Int) : Float :=
  if 0 ≤ k then Float.ofScientific m false k.toNat else Float.ofScientific m true (-k).toNat

/-- Digits with an optional point and exponent. -/
def readMagnitude? (cs : List Char) : Option Float :=
  let whole := cs.takeWhile Char.isDigit
  let rest := cs.dropWhile Char.isDigit
  let (places, rest) :=
    match rest with
    | '.' :: after => (after.takeWhile Char.isDigit, after.dropWhile Char.isDigit)
    | _ => ([], rest)
  if whole = [] ∧ places = [] then none
  else
    (readExponent? rest).map fun k => ofDecimal (digitsValue (whole ++ places)) (k - places.length)

/-- The values that have names instead of digits. -/
def named? (cs : List Char) : Option Float :=
  let name := cs.map Char.toLower
  if name = "inf".toList ∨ name = "infinity".toList then some (1.0 / 0.0)
  else if name = "nan".toList then some (0.0 / 0.0)
  else none

def readDecimal? (s : String) : Option Float :=
  let (negative, magnitude) := takeSign s.toList
  ((named? magnitude).or (readMagnitude? magnitude)).map fun x => if negative then -x else x

def readInt64? (s : String) : Option Int :=
  let (negative, ds) := takeSign s.toList
  if ds = [] ∨ !ds.all Char.isDigit then none
  else
    let n : Int := if negative then -digitsValue ds else digitsValue ds
    if int64Min ≤ n ∧ n ≤ int64Max then some n else none

end LaserCutter.Number
