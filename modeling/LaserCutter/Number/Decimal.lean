import LaserCutter.Number.Rounding

/-!
# Decimal text of binary64 numbers

Three ways to write a number: with a fixed count of places, with the fewest digits that read back
as the same number, and in scientific form. Each works on the exact value `± m · 2 ^ e`. Where the
count of digits is given, the value is rounded to nearest and a tie goes to the even digit; the
fewest digits are the nearest that read back, and a tie goes away from zero. NaN and the infinities
are `NaN`, `inf` and `-inf` everywhere.
-/

namespace LaserCutter.Number

open Float.Model Float.Model.UnpackedFloat

/-- `n / d` rounded to nearest, a tie going to the even quotient. -/
def roundQuotient (n d : Nat) : Nat :=
  let q := n / d
  let r := n % d
  if 2 * r < d ∨ (2 * r = d ∧ q % 2 = 0) then q else q + 1

def decimalDigits (n : Nat) : List Char := Nat.toDigits 10 n

/-- The decimal text of `n / 10 ^ places`. -/
def withPoint (places n : Nat) : List Char :=
  if places = 0 then decimalDigits n
  else
    let digits := (decimalDigits n).leftpad (places + 1) '0'
    let whole := digits.length - places
    digits.take whole ++ '.' :: digits.drop whole

/-- `m * 2 ^ e` as a fraction of naturals. -/
def fraction (m : Nat) (e : Int) : Nat × Nat :=
  if 0 ≤ e then (m * Nat.pow 2 e.toNat, 1) else (m, Nat.pow 2 (-e).toNat)

def signText (s : Sign) (text : List Char) : List Char :=
  match s with
  | .positive => text
  | .negative => '-' :: text

/-- Writes a number given the text of a zero and of a positive `m * 2 ^ e`. -/
def decimalText (zero : List Char) (magnitude : Nat → Int → List Char) (x : Float) : String :=
  match exact x with
  | .notANumber => "NaN"
  | .infinity s => String.ofList (signText s ['i', 'n', 'f'])
  | .zero s => String.ofList (signText s zero)
  | .finite s m e _ => String.ofList (signText s (magnitude m e))

/-- Exactly `places` digits after the point. The sign is written even where only zeros are left. -/
def fixed (places : Nat) (x : Float) : String :=
  decimalText (withPoint places 0)
    (fun m e =>
      let (n, d) := fraction m e
      withPoint places (roundQuotient (n * Nat.pow 10 places) d)) x

/-- The decimal exponent `k` with `10 ^ k ≤ n / d < 10 ^ (k + 1)`, for positive `n` and `d`. -/
def decimalExponent (n d : Nat) : Int :=
  if d ≤ n then (decimalDigits (n / d)).length - 1
  else -(decimalDigits ((d + n - 1) / n - 1)).length

/-- `n / d` in units of `10 ^ p`, as a fraction of naturals. -/
def inUnits (n d : Nat) (p : Int) : Nat × Nat :=
  if 0 ≤ p then (n, d * Nat.pow 10 p.toNat) else (n * Nat.pow 10 (-p).toNat, d)

/-- One digit before the point, `places` after it, then `e` and the exponent without padding. -/
def scientific (places : Nat) (x : Float) : String :=
  decimalText (withPoint places 0 ++ ['e', '0'])
    (fun m e =>
      let (n, d) := fraction m e
      let k := decimalExponent n d
      let (num, den) := inUnits n d (k - places)
      let scaled := roundQuotient num den
      let (scaled, k) :=
        if scaled = Nat.pow 10 (places + 1) then (Nat.pow 10 places, k + 1) else (scaled, k)
      withPoint places scaled ++ 'e' :: (toString k).toList) x

/-- The reals that round to `m * 2 ^ e`, in quarters of `2 ^ e`: from the first number to the
second. Below a power of two the neighbour is half as far. -/
def roundingInterval (m : Nat) (e : Int) : Nat × Nat :=
  (if m = 0x10000000000000 ∧ -1074 < e then 4 * m - 1 else 4 * m - 2, 4 * m + 2)

/-- The multiple of `10 ^ p` nearest to `m * 2 ^ e` among those that read back as it; of two that are
equally near, the greater. -/
def nearestOnGrid (m : Nat) (e p : Int) : Option Nat :=
  let (lo, hi) := roundingInterval m e
  let (unit, den) := fraction 1 (e - 2)
  let (loNum, gridDen) := inUnits (lo * unit) den p
  let (hiNum, _) := inUnits (hi * unit) den p
  let (num, _) := inUnits (4 * m * unit) den p
  let readsBack (c : Nat) : Bool :=
    if m % 2 = 0 then loNum ≤ c * gridDen && c * gridDen ≤ hiNum
    else loNum < c * gridDen && c * gridDen < hiNum
  let below := num / gridDen
  let above := below + 1
  match readsBack below, readsBack above with
  | true, true => some (if 2 * (num % gridDen) < gridDen then below else above)
  | true, false => some below
  | false, true => some above
  | false, false => none

/-- The fewest digits that read back as `m * 2 ^ e`, with the exponent of the last one. The coarsest
grid tried is the first power of ten above the number. -/
def shortestDigits (m : Nat) (e : Int) : Nat × Int :=
  let (n, d) := fraction m e
  let k := decimalExponent n d
  ((List.range 18).findSome? fun (i : Nat) =>
    let p := k + 1 - i
    (nearestOnGrid m e p).map (·, p)).getD (n, 0)

/-- Positional text with the fewest digits that read back as the same number: `300`, `-0`, `0.1`. -/
def shortest (x : Float) : String :=
  decimalText ['0']
    (fun m e =>
      let (c, p) := shortestDigits m e
      if 0 ≤ p then decimalDigits (c * Nat.pow 10 p.toNat) else withPoint (-p).toNat c) x

end LaserCutter.Number
