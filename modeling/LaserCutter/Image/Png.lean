import LaserCutter.Image.Inflate
import LaserCutter.Image.Picture
import LaserCutter.Image.Preface

/-!
# PNG files

The inflated pixel data are rows with a filter byte in front. Samples of every depth and colour type
become red, green, blue and alpha bytes. The data are inflated as far as the rows need them, and
what follows them is looked at up to the next chunk. `decodePng` is one picture reader among others:
it refuses interlaced files and all other formats.
-/

namespace LaserCutter.Image

/-- The neighbour among left, above and corner that is nearest to left + above - corner. -/
def paeth (left above corner : Nat) : Nat :=
  let guess : Int := (left : Int) + above - corner
  let dl := (guess - left).natAbs
  let da := (guess - above).natAbs
  let dc := (guess - corner).natAbs
  if dl ≤ da ∧ dl ≤ dc then left else if da ≤ dc then above else corner

/-- What a filter adds to a byte; there are five filters. -/
def predict? (filter left above corner : Nat) : Option Nat :=
  match filter with
  | 0 => some 0
  | 1 => some left
  | 2 => some above
  | 3 => some ((left + above) / 2)
  | 4 => some (paeth left above corner)
  | _ => none

/-- Undoes the filter of one row, given the row above it. -/
def unfilterRow (filter step : Nat) (above row : Array UInt8) : Option (Array UInt8) :=
  (List.range row.size).foldlM
    (fun (out : Array UInt8) i => do
      let back (a : Array UInt8) : Nat := if i < step then 0 else (a.getD (i - step) 0).toNat
      let p ← predict? filter (back out) (above.getD i 0).toNat (back above)
      some (out.push ((row.getD i 0).toNat + p).toUInt8))
    #[]

/-- Undoes the filters of all rows; `seen` holds the rows above, the nearest first. -/
def unfilterRows (rowBytes step : Nat) (data : Array UInt8) :
    Nat → Nat → List (Array UInt8) → Option (List (Array UInt8))
  | 0, _, seen => some seen.reverse
  | rows + 1, start, seen => do
    if data.size < start + 1 + rowBytes then none
    let filter := (data.getD start 0).toNat
    let row := data.extract (start + 1) (start + 1 + rowBytes)
    let plain ← unfilterRow filter step (seen.headD (Array.replicate rowBytes 0)) row
    unfilterRows rowBytes step data rows (start + 1 + rowBytes) (plain :: seen)

/-- Sample `i` of a row. -/
def sampleAt (depth : Nat) (row : Array UInt8) (i : Nat) : Nat :=
  if depth = 16 then (row.getD (2 * i) 0).toNat * 256 + (row.getD (2 * i + 1) 0).toNat
  else
    let perByte := 8 / depth
    let shift := 8 - depth * (i % perByte + 1)
    (row.getD (i / perByte) 0).toNat / Nat.pow 2 shift % Nat.pow 2 depth

/-- A sample scaled to a byte. -/
def scaleSample (depth v : Nat) : Nat :=
  if depth = 16 then (v + 128) / 257 else v * 255 / (Nat.pow 2 depth - 1)

namespace Preface

/-- The bytes of the samples of pixel `x` of a row, one byte each below 16 bits. -/
def sampleBytes (h : Header) (row : Array UInt8) (x : Nat) : List UInt8 :=
  (List.range h.colour.samples).flatMap fun k =>
    let v := sampleAt h.depth row (x * h.colour.samples + k)
    if h.depth = 16 then [(v / 256).toUInt8, v.toUInt8] else [v.toUInt8]

/-- Pixel `x` of a row has the transparent colour. -/
def isKey (p : Preface) (row : Array UInt8) (x : Nat) : Bool :=
  p.transparency = some (sampleBytes p.header row x)

/-- The alpha of palette colour `i`. There must not be more alphas than colours. -/
def paletteAlpha (p : Preface) (i : Nat) : UInt8 :=
  match p.transparency, p.palette with
  | some alphas, some colours => if alphas.length ≤ colours.length / 3 then alphas.getD i 255 else 255
  | _, _ => 255

/-- A byte of the palette; what lies behind its end is black. -/
def paletteByte (p : Preface) (i : Nat) : UInt8 := (p.palette.getD []).getD i 0

/-- Red, green, blue and alpha of pixel `x` of a row. -/
def pixelAt (p : Preface) (row : Array UInt8) (x : Nat) : List UInt8 :=
  let h := p.header
  let raw (k : Nat) := sampleAt h.depth row (x * h.colour.samples + k)
  let byte (k : Nat) := (scaleSample h.depth (raw k)).toUInt8
  let alpha : UInt8 := if p.isKey row x then 0 else 255
  match h.colour with
  | .gray => [byte 0, byte 0, byte 0, alpha]
  | .rgb => [byte 0, byte 1, byte 2, alpha]
  | .indexed =>
    let i := raw 0
    [p.paletteByte (3 * i), p.paletteByte (3 * i + 1), p.paletteByte (3 * i + 2), p.paletteAlpha i]
  | .grayAlpha => [byte 0, byte 0, byte 0, byte 1]
  | .rgba => [byte 0, byte 1, byte 2, byte 3]

/-- The palette is used, and its last colour is not whole. -/
def isRagged (p : Preface) : Bool :=
  p.header.colour = .indexed && (p.palette.getD []).length % 3 ≠ 0

/-- The palette is looked at as soon as the first row is there. -/
def reachesPalette (p : Preface) (pieces : List (List UInt8)) : Bool :=
  match inflatePieces p.header.dataBytes (1 + p.header.rowBytes) [] pieces with
  | none => false
  | some out => (predict? (out.getD 0 0).toNat 0 0 0).isSome

/-- The picture in the pixel data. -/
def picture? (p : Preface) (pixels : PixelStream) : Option Picture := do
  let h := p.header
  if h.colour = .indexed ∧ p.palette.isNone then none
  let data ← inflatePieces h.dataBytes h.dataBytes [] pixels.pieces
  let rows ← unfilterRows h.rowBytes h.pixelBytes data h.height 0 []
  if !pixels.ended then none
  let places := List.range h.width
  let bytes := (rows.flatMap fun row => places.flatMap (p.pixelAt row)).toArray
  if enough : 4 * (h.width * h.height) ≤ bytes.size then
    some ⟨h.width, h.height, bytes, enough⟩
  else none

end Preface

def signature : List UInt8 := [0x89, 0x50, 0x4E, 0x47, 0x0D, 0x0A, 0x1A, 0x0A]

/-- Reads PNG files. It crashes on a palette that ends inside a colour. -/
def decodePng : PictureReader := fun bytes =>
  if bytes.take 8 ≠ signature then .error .refused
  else
    match Preface.read? (bytes.drop 8) with
    | none => .error .refused
    | some (preface, kind, rest) =>
      let pixels := readPixels kind rest.length preface.number rest
      if preface.isRagged && preface.reachesPalette pixels.pieces then .error .crashed
      else
        match preface.picture? pixels with
        | none => .error .refused
        | some picture => .ok picture

end LaserCutter.Image
