import LaserCutter.Image.Chunk

/-!
# What a PNG file says ahead of its pixel data

The first chunk is the header. The chunks between it and the pixel data give the palette and
transparency, and announce frames of an animation. Other critical chunks are refused there; of
ancillary chunks, only some that are at odds with the rest are.
-/

namespace LaserCutter.Image

inductive Colour where
  | gray
  | rgb
  | indexed
  | grayAlpha
  | rgba
  deriving DecidableEq, Repr

def Colour.samples : Colour → Nat
  | .gray => 1
  | .rgb => 3
  | .indexed => 1
  | .grayAlpha => 2
  | .rgba => 4

def Colour.ofCode? : Nat → Option Colour
  | 0 => some .gray
  | 2 => some .rgb
  | 3 => some .indexed
  | 4 => some .grayAlpha
  | 6 => some .rgba
  | _ => none

/-- The sample depths that each colour type allows. -/
def Colour.depths : Colour → List Nat
  | .gray => [1, 2, 4, 8, 16]
  | .indexed => [1, 2, 4, 8]
  | _ => [8, 16]

structure Header where
  width : Nat
  height : Nat
  depth : Nat
  colour : Colour
  deriving DecidableEq, Repr

namespace Header

def ofChunk? (c : Chunk) : Option Header :=
  match c.content with
  | [w0, w1, w2, w3, h0, h1, h2, h3, depth, colour, compression, filter, interlace] => do
    let colour ← Colour.ofCode? colour.toNat
    let width := be32 w0 w1 w2 w3
    let height := be32 h0 h1 h2 h3
    if c.named "IHDR" ∧ 0 < width ∧ 0 < height ∧ depth.toNat ∈ colour.depths ∧
        compression = 0 ∧ filter = 0 ∧ interlace = 0 then
      some ⟨width, height, depth.toNat, colour⟩
    else none
  | _ => none

def rowBytes (h : Header) : Nat := (h.width * h.colour.samples * h.depth + 7) / 8

/-- The distance in bytes to the byte that a filter takes for the left neighbour. -/
def pixelBytes (h : Header) : Nat := max 1 (h.colour.samples * h.depth / 8)

/-- The bytes of all rows, each with a filter byte in front. -/
def dataBytes (h : Header) : Nat := h.height * (1 + h.rowBytes)

end Header

structure Preface where
  header : Header
  /-- Red, green and blue bytes of the colours of an indexed image. -/
  palette : Option (List UInt8)
  /-- The alpha bytes of the palette, or the bytes of the samples of the transparent colour. -/
  transparency : Option (List UInt8)
  /-- A colour space is given. -/
  spaced : Bool
  /-- The number of the last animation chunk. -/
  number : Option Nat
  deriving DecidableEq, Repr

namespace Preface

def ofHeader (header : Header) : Preface := ⟨header, none, none, false, none⟩

/-- A palette comes once, and has at most 256 colours. That its last colour is whole is seen only
when it is used. -/
def addPalette? (p : Preface) (content : List UInt8) : Option Preface :=
  if p.palette.isNone ∧ 3 ≤ content.length ∧ content.length ≤ 3 * 256 then
    some { p with palette := some content }
  else none

/-- The transparency that a chunk gives to an image. Samples of less than 16 bits are in the low byte
of two. Images with alpha samples have no other transparency, and an indexed image has none ahead of
its palette. -/
def transparencyOf? (p : Preface) (content : List UInt8) : Option (List UInt8) :=
  match p.header.colour with
  | .gray | .rgb =>
    let samples := p.header.colour.samples
    if content.length < 2 * samples then none
    else if p.header.depth = 16 then some content
    else some ((List.range samples).map fun k => content.getD (2 * k + 1) 0)
  | .indexed => if p.palette.isSome then some content else none
  | .grayAlpha | .rgba => none

/-- The first transparency that can be used counts. -/
def addTransparency (p : Preface) (content : List UInt8) : Preface :=
  if p.transparency.isNone ∧ 0 < content.length ∧ content.length ≤ 256 then
    { p with transparency := p.transparencyOf? content }
  else p

/-- The first colour space ahead of the palette counts. It is one of red, green and blue samples. -/
def addColourSpace? (p : Preface) (content : List UInt8) : Option Preface :=
  match content with
  | [_, _, matrix, fullRange] =>
    if p.spaced || p.palette.isSome then some p
    else if matrix = 0 ∧ fullRange ≤ 1 then some { p with spaced := true }
    else none
  | _ => some p

/-- The background of an indexed image follows the palette. -/
def addBackground? (p : Preface) (content : List UInt8) : Option Preface :=
  if p.header.colour = .indexed ∧ p.palette.isNone ∧ 0 < content.length ∧ content.length ≤ 6 then none
  else some p

/-- A frame ahead of the pixel data is as large as the image. Animation chunks are numbered from
zero. -/
def addFrame? (p : Preface) (content : List UInt8) : Option Preface := do
  let word (i : Nat) := number32? (content.drop (4 * i))
  let number ← word 0
  if content.length = 26 ∧ number = (p.number.map (· + 1)).getD 0 ∧
      word 1 = some p.header.width ∧ word 2 = some p.header.height ∧
      word 3 = some 0 ∧ word 4 = some 0 ∧
      content.getD 24 0 ≤ 2 ∧ content.getD 25 0 ≤ 1 then
    some { p with number := some number }
  else none

/-- What is known once another chunk is read. -/
def add? (p : Preface) (c : Chunk) : Option Preface :=
  if c.named "PLTE" then p.addPalette? c.content
  else if c.named "tRNS" then some (p.addTransparency c.content)
  else if c.named "cICP" then p.addColourSpace? c.content
  else if c.named "bKGD" then p.addBackground? c.content
  else if c.named "fcTL" then p.addFrame? c.content
  else if c.ancillary then some p
  else none

/-- Reads chunks up to the first that holds pixels; gives its kind and the bytes from there on too.
-/
def readFrom? : Nat → Preface → List UInt8 → Option (Preface × List UInt8 × List UInt8)
  | 0, _, _ => none
  | fuel + 1, p, bytes =>
    match readChunk? bytes with
    | none => none
    | some (chunk, rest) =>
      if chunk.holdsPixels then some (p, chunk.kind, bytes)
      else if chunk.checked then (p.add? chunk).bind fun p => readFrom? fuel p rest
      else if chunk.ancillary && chunk.checksum.isSome then readFrom? fuel p rest
      else none

/-- Reads the header and the chunks after it. -/
def read? (bytes : List UInt8) : Option (Preface × List UInt8 × List UInt8) := do
  let (first, rest) ← readChunk? bytes
  if !first.checked then none
  readFrom? bytes.length (.ofHeader (← Header.ofChunk? first)) rest

end Preface

end LaserCutter.Image
