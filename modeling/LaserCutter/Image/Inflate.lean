import LaserCutter.Image.PrefixCode

/-!
# Inflating

A compressed stream is a sequence of blocks: stored bytes, or literals and back references in a
prefix code that is fixed or that the block itself describes. A stream may break off anywhere, and
there may be less room than it has bytes. Inflating then gives the bytes up to that point, and it
fails only where what is there is already wrong.
-/

namespace LaserCutter.Image

/-- Why reading stops. -/
inductive Halt where
  /-- What is read is wrong. -/
  | broken
  /-- There are not enough bits. -/
  | starved
  deriving DecidableEq, Repr

/-- Base values and counts of extra bits of the length symbols from 257 on. -/
def lengthTable : List (Nat × Nat) :=
  [(3, 0), (4, 0), (5, 0), (6, 0), (7, 0), (8, 0), (9, 0), (10, 0), (11, 1), (13, 1), (15, 1),
   (17, 1), (19, 2), (23, 2), (27, 2), (31, 2), (35, 3), (43, 3), (51, 3), (59, 3), (67, 4),
   (83, 4), (99, 4), (115, 4), (131, 5), (163, 5), (195, 5), (227, 5), (258, 0)]

/-- Base values and counts of extra bits of the distance symbols. -/
def distanceTable : List (Nat × Nat) :=
  [(1, 0), (2, 0), (3, 0), (4, 0), (5, 1), (7, 1), (9, 2), (13, 2), (17, 3), (25, 3), (33, 4),
   (49, 4), (65, 5), (97, 5), (129, 6), (193, 6), (257, 7), (385, 7), (513, 8), (769, 8),
   (1025, 9), (1537, 9), (2049, 10), (3073, 10), (4097, 11), (6145, 11), (8193, 12), (12289, 12),
   (16385, 13), (24577, 13)]

/-- A value of a table with its extra bits added. -/
def readExtra (table : List (Nat × Nat)) (i : Nat) (r : BitReader) : Option (Nat × BitReader) :=
  (table[i]?).map fun (base, extra) =>
    let (more, r) := r.number extra
    (base + more, r)

/-- Repeats `length` bytes from `distance` bytes back. -/
def copyBack (out : Array UInt8) (distance : Nat) : Nat → Array UInt8
  | 0 => out
  | length + 1 => copyBack (out.push (out.getD (out.size - distance) 0)) distance length

structure BlockCodes where
  /-- Literals, the end of the block, and lengths. -/
  literals : PrefixCode
  distances : PrefixCode

/-- What a symbol stands for. -/
inductive Token where
  | literal (b : UInt8)
  | endOfBlock
  | reference (length distance : Nat)
  deriving DecidableEq, Repr

namespace BlockCodes

/-- Two literals in a row make one step if their code words have at most this many bits. -/
def pairBits : Nat := 12

/-- The literal makes one step with a second literal that has not come yet. The word of the second
has two bits at least. -/
def waitsForPair (codes : BlockCodes) (first : ReadSymbol) : Bool :=
  !first.after.has pairBits &&
    match codes.literals.read first.after with
    | some second =>
      second.symbol < 256 && 2 ≤ second.length && first.length + second.length ≤ pairBits &&
        second.after.past
    | none => false

/-- Reads the distance that follows a length. -/
def readReference (codes : BlockCodes) (symbol : Nat) (r : BitReader) :
    Option (Token × BitReader) := do
  let (length, r) ← readExtra lengthTable (symbol - 257) r
  let d ← codes.distances.read r
  let (distance, r) ← readExtra distanceTable d.symbol d.after
  some (.reference length distance, r)

/-- Reads the next token. A distance that no bits can mend is wrong even where bits are missing. The
two length symbols without a length end the block. -/
def readToken (codes : BlockCodes) (r : BitReader) : Except Halt (Token × BitReader) :=
  match codes.literals.read r with
  | none => .error .broken
  | some first =>
    if first.symbol < 256 then
      if first.after.past || codes.waitsForPair first then .error .starved
      else .ok (.literal first.symbol.toUInt8, first.after)
    else if first.symbol = 256 ∨ 286 ≤ first.symbol then
      if first.after.past then .error .starved else .ok (.endOfBlock, first.after)
    else
      match codes.readReference first.symbol first.after with
      | none => .error .broken
      | some (token, r) => if r.past then .error .starved else .ok (token, r)

end BlockCodes

/-- How far a stream or a block of it is inflated. -/
inductive Progress where
  | broken
  /-- Bits are missing, or there is no room for more bytes. -/
  | halted (out : Array UInt8)
  | ended (out : Array UInt8) (r : BitReader)

def Progress.ofHalt (out : Array UInt8) : Halt → Progress
  | .broken => .broken
  | .starved => .halted out

/-- Reads tokens up to the end of the block or until `room` bytes are there; each takes at least one
bit, so `fuel` is the count of bits left. -/
def inflateTokens (codes : BlockCodes) (room : Nat) : Nat → Array UInt8 → BitReader → Progress
  | 0, out, _ => .halted out
  | fuel + 1, out, r =>
    if room ≤ out.size then .halted out
    else
      match codes.readToken r with
      | .error halt => .ofHalt out halt
      | .ok (.literal b, r) => inflateTokens codes room fuel (out.push b) r
      | .ok (.endOfBlock, r) => .ended out r
      | .ok (.reference length distance, r) =>
        if out.size < distance then .broken
        else
          inflateTokens codes room fuel (copyBack out distance (min length (room - out.size))) r

def fixedLiteralLengths : List Nat :=
  List.replicate 144 8 ++ List.replicate 112 9 ++ List.replicate 24 7 ++ List.replicate 8 8

def fixedDistanceLengths : List Nat := List.replicate 32 5

def BlockCodes.fixed? : Option BlockCodes := do
  return ⟨← PrefixCode.complete? fixedLiteralLengths, ← PrefixCode.complete? fixedDistanceLengths⟩

/-- The order in which the lengths of the code for code lengths are written. -/
def lengthOrder : List Nat := [16, 17, 18, 0, 8, 7, 9, 6, 10, 5, 11, 4, 12, 3, 13, 2, 14, 1, 15]

/-- Reads `count` numbers of three bits. -/
def readTriples : Nat → BitReader → List Nat × BitReader
  | 0, r => ([], r)
  | count + 1, r =>
    let (n, r) := r.number 3
    let (ns, r) := readTriples count r
    (n :: ns, r)

/-- Base values and counts of extra bits of the symbols that repeat a code length. -/
def repeatTable : List (Nat × Nat) := [(3, 2), (3, 3), (11, 7)]

/-- A repeated code length is the last one for symbol 16, and zero for the others. -/
def repeatedLength? (symbol : Nat) (seen : List Nat) : Option Nat :=
  if symbol = 16 then seen.head? else some 0

/-- Reads code lengths until there are `count`; `seen` holds the earlier ones, the last one first.
A symbol is read only where as many bits are ahead as the longest one has. -/
def readLengths (code : PrefixCode) (count : Nat) :
    Nat → List Nat → BitReader → Except Halt (List Nat × BitReader)
  | 0, _, _ => .error .broken
  | fuel + 1, seen, r =>
    if count ≤ seen.length then .ok (seen.reverse, r)
    else if !r.has 7 then .error .starved
    else
      match code.read r with
      | none => .error .broken
      | some ⟨symbol, _, r⟩ =>
        if symbol < 16 then readLengths code count fuel (symbol :: seen) r
        else
          match readExtra repeatTable (symbol - 16) r with
          | none => .error .broken
          | some (times, r) =>
            if r.past then .error .starved
            else
              match repeatedLength? symbol seen with
              | none => .error .broken
              | some length =>
                if count < seen.length + times then .error .broken
                else readLengths code count fuel (List.replicate times length ++ seen) r

/-- There are no more symbols than these. -/
def literalLimit : Nat := 286

def distanceLimit : Nat := 30

/-- Code lengths that make no code are wrong. -/
def orBroken (a? : Option α) : Except Halt α :=
  match a? with
  | some a => .ok a
  | none => .error .broken

/-- Reads the description of a block's own codes. The end of a block must have a code word. -/
def BlockCodes.read (r : BitReader) : Except Halt (BlockCodes × BitReader) := do
  if !r.has 14 then throw .starved
  let (literals, r) := r.number 5
  let (distances, r) := r.number 5
  let (lengths, r) := r.number 4
  if literalLimit < literals + 257 ∨ distanceLimit < distances + 1 then throw .broken
  if !r.has (3 * (lengths + 4)) then throw .starved
  let (ns, r) := readTriples (lengths + 4) r
  let table := lengthOrder.zip ns
  let code ← orBroken <| PrefixCode.complete? <|
    (List.range 19).map fun i => (table.lookup i).getD 0
  let count := literals + 257 + (distances + 1)
  let (all, r) ← readLengths code count (count + 1) [] r
  let literalLengths := all.take (literals + 257)
  if literalLengths.getD 256 0 = 0 then throw .broken
  let literalCode ← orBroken (PrefixCode.complete? literalLengths)
  let distanceCode ← orBroken (PrefixCode.completeOrSingle? (all.drop (literals + 257)))
  return (⟨literalCode, distanceCode⟩, r)

/-- Takes `count` bytes from bits that start at a byte, until `room` bytes are there. -/
def takeBytes (room : Nat) : Nat → Array UInt8 → BitReader → Progress
  | 0, out, r => .ended out r
  | count + 1, out, r =>
    if room ≤ out.size || !r.has 8 then .halted out
    else
      let (b, r) := r.number 8
      takeBytes room count (out.push b.toUInt8) r

/-- A stored block starts at the next byte with its length and the complement of that. -/
def inflateStored (room : Nat) (out : Array UInt8) (r : BitReader) : Progress :=
  if !r.has (r.padding + 32) then .halted out
  else
    let (_, r) := r.number r.padding
    let (length, r) := r.number 16
    let (complement, r) := r.number 16
    if length + complement ≠ 0xFFFF then .broken else takeBytes room length out r

/-- A block in the fixed codes. One without bytes is read also where there is no room. -/
def inflateFixed (room : Nat) (out : Array UInt8) (r : BitReader) : Progress :=
  let (word, after) := r.number 7
  if word = 0 then .ended out after
  else
    match BlockCodes.fixed? with
    | none => .broken
    | some codes => inflateTokens codes room (r.ahead.length + 1) out r

/-- A block with its own codes. -/
def inflateCoded (room : Nat) (out : Array UInt8) (r : BitReader) : Progress :=
  match BlockCodes.read r with
  | .error halt => .ofHalt out halt
  | .ok (codes, r) => inflateTokens codes room (r.ahead.length + 1) out r

/-- The least count of bits in a block. -/
def leastBlock : Nat := 10

/-- Inflates block after block up to the last one; every block takes some bits, so `fuel` is the
count of bits left. -/
def inflateBlocks (room : Nat) : Nat → Array UInt8 → BitReader → Option (Array UInt8)
  | 0, out, _ => some out
  | fuel + 1, out, r =>
    if !r.has leastBlock then some out
    else
      let (last, r) := r.number 1
      let (kind, r) := r.number 2
      let block :=
        match kind with
        | 0 => inflateStored room out r
        | 1 => inflateFixed room out r
        | 2 => inflateCoded room out r
        | _ => .broken
      match block with
      | .broken => none
      | .halted out => some out
      | .ended out r => if last = 1 then some out else inflateBlocks room fuel out r

/-- Inflates the beginning of a stream, up to `room` bytes. A stream has a header of two bytes: method
8 with a window of at most 32 KiB, no preset dictionary, and a check on the header. What follows the
last block is not looked at. -/
def inflate (room : Nat) (bytes : List UInt8) : Option (Array UInt8) :=
  match bytes with
  | method :: flags :: rest =>
    if method.toNat % 16 = 8 ∧ method.toNat / 16 ≤ 7 ∧ flags.toNat / 32 % 2 = 0 ∧
        (method.toNat * 256 + flags.toNat) % 31 = 0 then
      inflateBlocks room (8 * rest.length + 1) #[] (.ofBytes rest)
    else none
  | _ => some #[]

/-- Inflates a stream that comes in pieces until `need` bytes of at most `room` are there. The pieces
after that are not looked at; `seen` holds those before. -/
def inflatePieces (room need : Nat) (seen : List UInt8) : List (List UInt8) → Option (Array UInt8)
  | [] => none
  | piece :: rest =>
    match inflate room (seen ++ piece) with
    | none => none
    | some out =>
      if need ≤ out.size then some out else inflatePieces room need (seen ++ piece) rest

end LaserCutter.Image
