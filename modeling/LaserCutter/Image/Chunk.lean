/-!
# PNG chunks

A file is a signature and a sequence of chunks. A chunk has a length, a kind of four letters, its
content, and a checksum over kind and content. A kind that begins with a small letter is ancillary:
a reader may ignore it, and does so if the checksum is wrong. The pixel data are the contents of one
run of chunks of one kind.
-/

namespace LaserCutter.Image

def be32 (a b c d : UInt8) : Nat :=
  ((a.toNat * 256 + b.toNat) * 256 + c.toNat) * 256 + d.toNat

/-- The number in the first four bytes. -/
def number32? : List UInt8 → Option Nat
  | a :: b :: c :: d :: _ => some (be32 a b c d)
  | _ => none

/-- One step of the checksum for each of the bits of a byte. -/
def crcShift : Nat → UInt32 → UInt32
  | 0, c => c
  | n + 1, c => crcShift n (if c &&& 1 = 1 then (c >>> 1) ^^^ 0xEDB88320 else c >>> 1)

def crc32 (bytes : List UInt8) : UInt32 :=
  bytes.foldl (fun c b => crcShift 8 (c ^^^ b.toUInt32)) 0xFFFFFFFF ^^^ 0xFFFFFFFF

/-- A chunk as far as it is there. -/
structure Chunk where
  kind : List UInt8
  /-- The length that the content should have. -/
  length : Nat
  content : List UInt8
  /-- The checksum, if the chunk is whole. -/
  checksum : Option Nat
  deriving DecidableEq, Repr

namespace Chunk

def named (c : Chunk) (name : String) : Bool := c.kind = name.toUTF8.toList

/-- A reader may ignore the chunk. -/
def ancillary (c : Chunk) : Bool := (c.kind.headD 0) &&& 0x20 ≠ 0

/-- The checksum is there and right. -/
def checked (c : Chunk) : Bool := c.checksum = some (crc32 (c.kind ++ c.content)).toNat

/-- The kinds of chunk that hold pixel data: of the image, or of a frame of an animation. -/
def holdsPixels (c : Chunk) : Bool := c.named "IDAT" || c.named "fdAT"

end Chunk

/-- The chunk at the front, as far as it is there, and what follows. There is none without a length
and a kind. -/
def readChunk? : List UInt8 → Option (Chunk × List UInt8)
  | l0 :: l1 :: l2 :: l3 :: t0 :: t1 :: t2 :: t3 :: rest =>
    let length := be32 l0 l1 l2 l3
    let after := rest.drop length
    some (⟨[t0, t1, t2, t3], length, rest.take length, number32? after⟩, after.drop 4)
  | _ => none

/-- The pieces of the pixel data, and whether they end as they should. -/
structure PixelStream where
  pieces : List (List UInt8)
  ended : Bool
  deriving DecidableEq, Repr

/-- Takes the pixel data out of a chunk. In an animation they follow the number of the chunk, which
has to be one more than `number`, that of the chunk before. -/
def Chunk.pixels? (c : Chunk) (number : Option Nat) : Option (List UInt8) :=
  if c.named "fdAT" then
    if 4 ≤ c.length ∧ number.isSome ∧ number32? c.content = number.map (· + 1) then
      some (c.content.drop 4)
    else none
  else some c.content

/-- Reads a run of chunks of kind `kind`. Each but an ancillary one has to carry its right checksum,
and a chunk of another kind has to follow the last. -/
def readPixels (kind : List UInt8) : Nat → Option Nat → List UInt8 → PixelStream
  | 0, _, _ => ⟨[], false⟩
  | fuel + 1, number, bytes =>
    match readChunk? bytes with
    | none => ⟨[], false⟩
    | some (chunk, rest) =>
      if chunk.kind ≠ kind then ⟨[], true⟩
      else
        match chunk.pixels? number with
        | none => ⟨[], false⟩
        | some piece =>
          if chunk.checked || chunk.ancillary && chunk.checksum.isSome then
            let more := readPixels kind fuel (number.map (· + 1)) rest
            ⟨piece :: more.pieces, more.ended⟩
          else ⟨[piece], false⟩

end LaserCutter.Image
