/-!
# Pictures

A picture has red, green, blue and alpha bytes, row by row. A grey field has one byte for each
pixel. How picture files are read is left to a reader, of which nothing is assumed.
-/

namespace LaserCutter

/-- The bytes may be more than the pixels need, never fewer. -/
structure Picture where
  width : Nat
  height : Nat
  bytes : Array UInt8
  enough : 4 * (width * height) ≤ bytes.size

/-- One pixel of a picture. -/
structure Pixel where
  red : UInt8
  green : UInt8
  blue : UInt8
  alpha : UInt8
  deriving DecidableEq, Repr

def Picture.pixel (p : Picture) (i : Nat) : Pixel :=
  let byte (k : Nat) := p.bytes.getD (4 * i + k) 0
  ⟨byte 0, byte 1, byte 2, byte 3⟩

/-- Why a picture file gives no picture. -/
inductive PictureFault where
  /-- The reader says that it cannot read the file. -/
  | refused
  /-- The reader breaks off without an answer, and whatever called it breaks off too. -/
  | crashed
  deriving DecidableEq, Repr

/-- Reads the bytes of a picture file. Which formats there are, and which files are taken, is the
reader's own business. -/
abbrev PictureReader := List UInt8 → Except PictureFault Picture

structure GrayField where
  width : Nat
  height : Nat
  values : Array UInt8
  deriving DecidableEq, Repr

namespace GrayField

/-- The value of pixel `i`, counted row by row. -/
def value (f : GrayField) (i : Nat) : UInt8 := f.values.getD i 0

/-- The value at column `x` of row `y`. -/
def pixel (f : GrayField) (x y : Nat) : UInt8 := f.value (y * f.width + x)

def row (f : GrayField) (y : Nat) : List UInt8 := (List.range f.width).map fun x => f.pixel x y

def column (f : GrayField) (x : Nat) : List UInt8 := (List.range f.height).map fun y => f.pixel x y

/-- The field whose pixel `i` has the value `g i`. -/
def ofIndices (width height : Nat) (g : Nat → UInt8) : GrayField :=
  ⟨width, height, (Array.range (width * height)).map g⟩

/-- Rows and columns exchanged. -/
def transpose (f : GrayField) : GrayField :=
  ofIndices f.height f.width fun i => f.pixel (i / f.height) (i % f.height)

end GrayField

end LaserCutter
