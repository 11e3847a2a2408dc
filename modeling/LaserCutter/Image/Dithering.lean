import LaserCutter.Image.Picture
import LaserCutter.Scene.Basic

/-!
# Dithering

Intensities become burn values from 0 for no burn to 255 for full burn, so that dark pixels burn
hard. Error diffusion works in binary32: a pixel is decided when the shares of the errors of its
neighbours decided before it have been added to its intensity, in the order in which they were
decided.
-/

namespace LaserCutter

namespace GrayField

/-- Full burn where the pixel is darker than `level`. -/
def threshold (f : GrayField) (level : UInt8) : GrayField :=
  .ofIndices f.width f.height fun i => if f.value i < level then 255 else 0

/-- The ordered pattern, which repeats every four rows and columns. -/
def pattern : List (List Nat) := [[0, 8, 2, 10], [12, 4, 14, 6], [3, 11, 1, 9], [15, 7, 13, 5]]

def patternLevel (x y : Nat) : Float :=
  ((pattern.getD (y % 4) []).getD (x % 4) 0).toUInt64.toFloat / 16 * 255

def ordered (f : GrayField) : GrayField :=
  .ofIndices f.width f.height fun i =>
    if (f.value i).toFloat < patternLevel (i % f.width) (i / f.width) then 255 else 0

/-- Burn is the inverse of intensity. -/
def inverse (f : GrayField) : GrayField := .ofIndices f.width f.height fun i => 255 - f.value i

/-- What pixel `i` holds when it is decided: its intensity and the error shares of the pixels above
left, above, above right and left, given the errors of all pixels before it. -/
def held (f : GrayField) (errors : Array Float32) (i : Nat) : Float32 :=
  let x := i % f.width
  let y := i / f.width
  let error (k : Nat) := errors.getD k 0
  let v := (f.value i).toFloat32
  let v := if 0 < x ∧ 0 < y then v + error (i - f.width - 1) / 16 else v
  let v := if 0 < y then v + error (i - f.width) * 5 / 16 else v
  let v := if 0 < y ∧ x + 1 < f.width then v + error (i - f.width + 1) * 3 / 16 else v
  if 0 < x then v + error (i - 1) * 7 / 16 else v

/-- A held value below the middle burns. -/
def burns (v : Float32) : Bool := v < 128

/-- What deciding a held value leaves over. -/
def residue (v : Float32) : Float32 := if burns v then v else v - 255

/-- The errors of the first `n` pixels. -/
def diffusion (f : GrayField) (n : Nat) : Array Float32 :=
  (List.range n).foldl (fun errors i => errors.push (residue (f.held errors i))) #[]

/-- Error diffusion row by row, from left to right in every row. -/
def diffused (f : GrayField) : GrayField :=
  let errors := f.diffusion (f.width * f.height)
  .ofIndices f.width f.height fun i => if burns (f.held errors i) then 255 else 0

def dither (f : GrayField) (settings : RasterSettings) : GrayField :=
  match settings.dithering with
  | .threshold => f.threshold settings.threshold
  | .ordered => f.ordered
  | .floydSteinberg => f.diffused
  | .grayscale => f.inverse

end GrayField

end LaserCutter
