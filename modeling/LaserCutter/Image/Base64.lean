/-!
# Base64

The standard alphabet in groups of four characters. The last group is padded to four, and the bits
that the padding leaves over have to be zero, so every list of bytes has one text.
-/

namespace LaserCutter.Image

/-- The six bits that a character stands for. -/
def sextet? (c : Char) : Option Nat :=
  if 'A' ≤ c ∧ c ≤ 'Z' then some (c.toNat - 'A'.toNat)
  else if 'a' ≤ c ∧ c ≤ 'z' then some (c.toNat - 'a'.toNat + 26)
  else if '0' ≤ c ∧ c ≤ '9' then some (c.toNat - '0'.toNat + 52)
  else if c = '+' then some 62
  else if c = '/' then some 63
  else none

def sextets? (a b c d : Char) : Option Nat := do
  let a ← sextet? a
  let b ← sextet? b
  let c ← sextet? c
  let d ← sextet? d
  pure (((a * 64 + b) * 64 + c) * 64 + d)

/-- The bytes of the last group, which may be padded. -/
def lastGroup? (a b c d : Char) : Option (List UInt8) :=
  if d ≠ '=' then
    (sextets? a b c d).map fun n => [(n / 65536).toUInt8, (n / 256).toUInt8, n.toUInt8]
  else if c ≠ '=' then do
    let n ← sextets? a b c 'A'
    if n % 256 = 0 then some [(n / 65536).toUInt8, (n / 256).toUInt8] else none
  else do
    let n ← sextets? a b 'A' 'A'
    if n % 65536 = 0 then some [(n / 65536).toUInt8] else none

/-- Decodes group by group; `seen` holds the bytes so far, the last one first. -/
def decodeGroups (seen : List UInt8) : List Char → Option (List UInt8)
  | [] => some seen.reverse
  | [a, b, c, d] => (lastGroup? a b c d).map (seen.reverse ++ ·)
  | a :: b :: c :: d :: rest =>
    match sextets? a b c d with
    | some n => decodeGroups (n.toUInt8 :: (n / 256).toUInt8 :: (n / 65536).toUInt8 :: seen) rest
    | none => none
  | _ => none

def decodeBase64 (cs : List Char) : Option (List UInt8) := decodeGroups [] cs

end LaserCutter.Image
