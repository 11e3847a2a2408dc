import LaserCutter.Image.Picture
import LaserCutter.Scene.Basic

/-!
# Intensity

The grey value of a pixel, from 0 for black to 255 for white, after brightness and contrast. A pixel
that is more than half transparent counts as white; inversion comes last.
-/

namespace LaserCutter

/-- Brightness and contrast on one channel, rounded and brought into the range of a byte. -/
def toned (v : UInt8) (brightness contrast : Float) : Float :=
  let shift := brightness / 100 * 255
  let stretch := (contrast + 100) / 100
  Number.clampTo 255 (Number.round ((v.toFloat + shift - 128) * stretch + 128))

def channel (settings : RasterSettings) (v : UInt8) : Float :=
  if settings.brightness != 0 || settings.contrast != 0 then
    toned v settings.brightness settings.contrast
  else v.toFloat

def pixelIntensity (settings : RasterSettings) (p : Pixel) : UInt8 :=
  let gray := 0.299 * channel settings p.red + 0.587 * channel settings p.green +
    0.114 * channel settings p.blue
  let gray := if p.alpha < 128 then 255 else gray
  let gray := if settings.invert then 255 - gray else gray
  (Number.clampTo 255 (Number.round gray)).toUInt8

def Picture.intensity (p : Picture) (settings : RasterSettings) : GrayField :=
  .ofIndices p.width p.height fun i => pixelIntensity settings (p.pixel i)

end LaserCutter
