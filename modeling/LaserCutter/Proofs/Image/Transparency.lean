import LaserCutter.Image.Intensity
import LaserCutter.Proofs.Image.Diffusion

/-!
# Transparent pixels never burn

A pixel that is more than half transparent is white before it is dithered, whatever the colours,
brightness and contrast are. No mode burns a white pixel: it is not below any threshold, its level
is above the whole ordered pattern, and the errors of its neighbours cannot push it below the
middle.
-/

namespace LaserCutter

namespace GrayField

theorem getElem?_ofIndices (width height : Nat) (g : Nat → UInt8) (i : Nat)
    (inside : i < width * height) : (ofIndices width height g).values[i]? = some (g i) := by
  simp [ofIndices, inside]

/-- White is above the whole ordered pattern. -/
theorem not_lt_patternLevel (x y : Nat) : ¬ (255 : UInt8).toFloat < patternLevel x y := by
  have all : ∀ a b : Fin 4,
      ¬ (255 : UInt8).toFloat < ((pattern.getD b []).getD a 0).toUInt64.toFloat / 16 * 255 := by
    decide
  exact all ⟨x % 4, Nat.mod_lt x (by decide)⟩ ⟨y % 4, Nat.mod_lt y (by decide)⟩

/-- No mode burns a white pixel. -/
theorem dither_white (f : GrayField) (settings : RasterSettings) (i : Nat)
    (inside : i < f.width * f.height) (white : f.value i = 255) :
    (f.dither settings).values[i]? = some 0 := by
  unfold dither
  split
  · rw [threshold, getElem?_ofIndices _ _ _ _ inside, white]
    have top : ¬ (255 : UInt8) < settings.threshold := by
      have bound := settings.threshold.toNat_lt
      rw [UInt8.lt_iff_toNat_lt]
      exact Nat.not_lt.mpr (Nat.le_of_lt_succ bound)
    exact congrArg some (if_neg top)
  · rw [ordered, getElem?_ofIndices _ _ _ _ inside, white]
    exact congrArg some (if_neg (not_lt_patternLevel _ _))
  · rw [diffused, getElem?_ofIndices _ _ _ _ inside]
    have kept := f.not_lt_buffered_white (f.width * f.height) i white _ (f.held_mem_buffered _ i)
    have dark : burns (f.held (f.diffusion (f.width * f.height)) i) = false := decide_eq_false kept
    rw [dark]
    rfl
  · rw [inverse, getElem?_ofIndices _ _ _ _ inside, white]
    rfl

end GrayField

/-- A transparent pixel is white, unless the picture is inverted. -/
theorem pixelIntensity_transparent (settings : RasterSettings) (p : Pixel)
    (upright : settings.invert = false) (transparent : p.alpha < 128) :
    pixelIntensity settings p = 255 := by
  have white : (Number.clampTo 255 (Number.round 255)).toUInt8 = 255 := by decide
  unfold pixelIntensity
  simp only [transparent, upright, if_true]
  exact white

/-- A pixel whose alpha is below 128 has the burn value zero in every picture that is not inverted,
whatever the other settings are. In particular no error that is diffused to such a pixel makes it
hold a value below the middle, at whatever time. -/
theorem Picture.transparent_never_burns (p : Picture) (settings : RasterSettings)
    (upright : settings.invert = false) (i : Nat) (inside : i < p.width * p.height)
    (transparent : (p.pixel i).alpha < 128) :
    ((p.intensity settings).dither settings).values[i]? = some 0 ∧
      ∀ n, ∀ v ∈ (p.intensity settings).buffered ((p.intensity settings).diffusion n) i,
        ¬ v < 128 := by
  have white : (p.intensity settings).value i = 255 := by
    have stored := GrayField.getElem?_ofIndices p.width p.height
      (fun k => pixelIntensity settings (p.pixel k)) i inside
    rw [GrayField.value, intensity, Array.getD_eq_getD_getElem?, stored]
    exact pixelIntensity_transparent settings (p.pixel i) upright transparent
  exact ⟨(p.intensity settings).dither_white settings i inside white,
    fun n => (p.intensity settings).not_lt_buffered_white n i white⟩

/-- The middle one of three pixels is transparent and stands between two black ones. -/
theorem Picture.transparent_never_burns_middle :
    let p : Picture :=
      ⟨3, 1, #[0, 0, 0, 255, 0, 0, 0, 127, 0, 0, 0, 255], by decide⟩
    let settings := { RasterSettings.standard with dithering := .floydSteinberg, brightness := -100 }
    settings.invert = false ∧ 1 < p.width * p.height ∧ (p.pixel 1).alpha < 128 ∧
      ((p.intensity settings).dither settings).values = #[255, 0, 255] ∧
      ((p.intensity settings).dither settings).values[1]? = some 0 := by
  intro p settings
  refine ⟨rfl, by decide, by decide, by decide +kernel, ?_⟩
  exact (p.transparent_never_burns settings rfl 1 (by decide) (by decide)).1

end LaserCutter
