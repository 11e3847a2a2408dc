/-!
# Rounding and bounding binary64 numbers

A binary64 number is NaN, an infinity, a zero or exactly `± m · 2 ^ e`. Everything here is read off
that exact value: rounding to a whole number sends a half away from zero, and a conversion to a
bounded integer type stops at the ends of the type and sends NaN to zero.
-/

namespace LaserCutter.Number

open Float.Model Float.Model.UnpackedFloat

/-- What a number stands for: NaN, an infinity, a zero, or its exact mantissa and exponent. -/
def exact (x : Float) : UnpackedFloat := x.toModel.unpack

/-- The binary64 number nearest to `n * 2 ^ e`, a tie going to the even one. A zero takes `sign`. -/
def ofScaled (n e : Int) (sign : Sign) : Float :=
  ⟨pack (normalize Format.binary64 n e sign)⟩

def isFinite (x : Float) : Bool :=
  match exact x with
  | .finite .. | .zero _ => true
  | _ => false

/-- `m * 2 ^ e` rounded to a whole number, a half going up. -/
def wholeNearest (m : Nat) (e : Int) : Nat :=
  if 0 ≤ e then m <<< e.toNat
  else (m + Nat.pow 2 ((-e).toNat - 1)) / Nat.pow 2 (-e).toNat

/-- Rounds to a whole number, a half going away from zero. The sign of a zero is kept. -/
def round (x : Float) : Float :=
  match exact x with
  | .finite s m e _ => if 0 ≤ e then x else ofScaled (s.apply (wholeNearest m e)) 0 s
  | _ => x

/-- Brings an integer into `lo ≤ · ≤ hi`. -/
def bound (lo hi n : Int) : Int := max lo (min hi n)

def int64Min : Int := -0x8000000000000000
def int64Max : Int := 0x7FFFFFFFFFFFFFFF

/-- Rounds to the nearest 64-bit signed integer; NaN counts as zero. -/
def roundToInt64 (x : Float) : Int :=
  match exact x with
  | .notANumber | .zero _ => 0
  | .infinity .positive => int64Max
  | .infinity .negative => int64Min
  | .finite s m e _ => bound int64Min int64Max (s.apply (wholeNearest m e))

/-- The smaller of two numbers. NaN loses to a number, and of two equal numbers the first is
taken. -/
def lesser (a b : Float) : Float := if b < a || a.isNaN then b else a

/-- The larger of two numbers, with the same rule for NaN and equal numbers. -/
def greater (a b : Float) : Float := if a < b || a.isNaN then b else a

/-- Brings `x` between two bounds. There is no answer for a NaN bound or for bounds out of order;
a NaN between good bounds stays NaN. -/
def clamp? (lo hi x : Float) : Option Float :=
  if lo ≤ hi then some (if x < lo then lo else if hi < x then hi else x) else none

/-- Brings `x` into the interval from zero to `hi`, for a constant `hi` above zero. -/
def clampTo (hi x : Float) : Float := if x < 0 then 0 else if hi < x then hi else x

end LaserCutter.Number
