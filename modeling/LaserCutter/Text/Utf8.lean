/-!
# Decoding UTF-8

A character is a lead byte followed by the continuation bytes that its lead calls for. Each lead
fixes the ranges of the bytes after it, so that overlong forms, surrogates and values past the last
code point are refused at the first byte that cannot belong to a character.
-/

namespace LaserCutter.Text

inductive Utf8Fault where
  /-- The `length` bytes from `index` on begin no character. -/
  | invalid (index length : Nat)
  /-- The bytes end inside the character that starts at `index`. -/
  | incomplete (index : Nat)
  deriving DecidableEq, Repr

def Utf8Fault.message : Utf8Fault → String
  | .invalid index length => s!"invalid utf-8 sequence of {length} bytes from index {index}"
  | .incomplete index => s!"incomplete utf-8 byte sequence from index {index}"

abbrev ByteRange := Nat × Nat

def continuation : ByteRange := (0x80, 0xBF)

/-- The value bits of a lead byte and the ranges of the bytes that follow it. -/
def lead? (b : Nat) : Option (Nat × List ByteRange) :=
  if b < 0x80 then some (b, [])
  else if b < 0xC2 then none
  else if b < 0xE0 then some (b - 0xC0, [continuation])
  else if b = 0xE0 then some (0, [(0xA0, 0xBF), continuation])
  else if b = 0xED then some (0xD, [(0x80, 0x9F), continuation])
  else if b < 0xF0 then some (b - 0xE0, [continuation, continuation])
  else if b = 0xF0 then some (0, [(0x90, 0xBF), continuation, continuation])
  else if b < 0xF4 then some (b - 0xF0, [continuation, continuation, continuation])
  else if b = 0xF4 then some (4, [(0x80, 0x8F), continuation, continuation])
  else none

/-- What stops a character: the end of the bytes, or a byte out of range after `taken` good ones. -/
inductive CharacterFault where
  | ended
  | wrongByte (taken : Nat)
  deriving DecidableEq, Repr

/-- Adds the bytes of the given ranges to `value`; `taken` bytes of the character came before. -/
def follow (value taken : Nat) :
    List ByteRange → List UInt8 → Except CharacterFault (Nat × List UInt8)
  | [], bytes => .ok (value, bytes)
  | _ :: _, [] => .error .ended
  | (lo, hi) :: ranges, b :: bytes =>
    if lo ≤ b.toNat ∧ b.toNat ≤ hi then follow (value * 64 + b.toNat % 64) (taken + 1) ranges bytes
    else .error (.wrongByte taken)

/-- The character that starts with byte `b`. -/
def character (b : UInt8) (bytes : List UInt8) : Except CharacterFault (Char × List UInt8) :=
  match lead? b.toNat with
  | none => .error (.wrongByte 1)
  | some (value, ranges) => (follow value 1 ranges bytes).map fun (v, rest) => (Char.ofNat v, rest)

/-- Decodes at most `fuel` characters; `index` is the position of the next byte and `seen` holds the
characters so far, last first. -/
def decodeFrom : Nat → Nat → List Char → List UInt8 → Except Utf8Fault (List Char)
  | _, _, seen, [] => .ok seen.reverse
  | 0, _, seen, _ => .ok seen.reverse
  | fuel + 1, index, seen, b :: bytes =>
    match character b bytes with
    | .ok (c, rest) => decodeFrom fuel (index + c.utf8Size) (c :: seen) rest
    | .error .ended => .error (.incomplete index)
    | .error (.wrongByte taken) => .error (.invalid index taken)

def decodeUtf8 (bytes : List UInt8) : Except Utf8Fault String :=
  (decodeFrom bytes.length 0 [] bytes).map String.ofList

end LaserCutter.Text
