import LaserCutter.Image.Base64
import LaserCutter.Image.Picture
import LaserCutter.Scene.Basic
import LaserCutter.Text.Blank
import LaserCutter.Text.Lines

/-!
# Decoding the picture of a raster item

The text is Base64, alone or after the marker of a `data:` URL, with blanks around it left out. Its
bytes are a picture file, which is given to a picture reader.
-/

namespace LaserCutter

inductive PayloadError where
  | notBase64
  /-- The picture reader gives no picture. -/
  | unread (fault : PictureFault)
  /-- The count of bytes given is too small for the size. -/
  | tooFewBytes (given width height : Nat)
  deriving DecidableEq, Repr

def PayloadError.message : PayloadError → String
  | .notBase64 => "invalid base64 image data"
  | .unread .refused => "failed to decode image"
  | .unread .crashed => "the picture reader broke off"
  | .tooFewBytes given width height =>
    s!"invalid raw image buffer: {given} bytes cannot hold {width}x{height} RGBA pixels"

/-- The Base64 part of a payload text. -/
def payloadText (text : String) : List Char :=
  let cs := text.toList
  Text.trimBlanks <|
    match Text.splitFirst? ";base64,".toList cs with
    | some (_, rest) => rest
    | none => cs

/-- The picture of a payload, whose file is read by `reader`. -/
def Payload.picture (reader : PictureReader) : Payload → Except PayloadError Picture
  | .encoded text =>
    match Image.decodeBase64 (payloadText text) with
    | none => .error .notBase64
    | some bytes => (reader bytes).mapError .unread
  | .pixels width height bytes =>
    if enough : 4 * (width * height) ≤ bytes.toArray.size then
      .ok ⟨width, height, bytes.toArray, enough⟩
    else .error (.tooFewBytes bytes.length width height)

end LaserCutter
