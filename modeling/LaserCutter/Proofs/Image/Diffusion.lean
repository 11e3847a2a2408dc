import LaserCutter.Image.Dithering
import LaserCutter.Proofs.Number.Binary32

/-!
# Bounds of error diffusion

What deciding a pixel leaves over stays between -127 and 128. The shares that a pixel receives are
sixteenths of such errors, at most sixteen of them in all, so it holds its intensity less 127 at
least and its intensity plus 128 at most. All bounds on the way are multiples of a sixteenth, and
binary32 rounding does not move them. For a white pixel the lower bound is 128, the least value that
does not burn.
-/

namespace LaserCutter.GrayField

open Number

/-- What a decided pixel may leave over. -/
def IsError (x : Float32) : Prop := Between (-127) 128 x

/-- `x` is `v` and at most as many sixteenths of errors as `shares` says. -/
def Holds (v shares : ℕ) (x : Float32) : Prop :=
  Between (v - 127 * shares / 16) (v + 128 * shares / 16) x

section shares

variable {x e weight : Float32} {v shares w : ℕ}

theorem isError_zero : IsError 0 := by
  have zero : (0 : Float32) = (0 : UInt8).toFloat32 := by decide
  have stands := stands_toFloat32 0
  rw [← zero] at stands
  exact ⟨_, stands, by norm_num, by norm_num⟩

theorem stands_sixteen : Stands .binary32 (16 : Float32).toModel.unpack 16 := by
  have sixteen : (16 : Float32) = (16 : UInt8).toFloat32 := by decide
  rw [sixteen]
  exact stands_toFloat32 16

/-- The sixteenths of an error that a weight passes on. -/
theorem between_share (error : IsError e) (const : Stands .binary32 weight.toModel.unpack w)
    (small : w ≤ 16) :
    Between (-127 * w / 16) (128 * w / 16) (e * weight / 16) := by
  have product := error.mul_const const (by positivity)
    (exact32_of_sixteenths (n := -2032 * w) (by push_cast; ring)
      (by rw [abs_mul, Nat.abs_cast]; norm_num; omega))
    (exact32_of_sixteenths (n := 2048 * w) (by push_cast; ring)
      (by rw [abs_mul, Nat.abs_cast]; norm_num; omega))
  exact product.div_const stands_sixteen (by norm_num)
    (exact32_of_sixteenths (n := -127 * w) (by push_cast; ring)
      (by rw [abs_mul, Nat.abs_cast]; norm_num; omega))
    (exact32_of_sixteenths (n := 128 * w) (by push_cast; ring)
      (by rw [abs_mul, Nat.abs_cast]; norm_num; omega))

/-- The one sixteenth that is passed on without a weight. -/
theorem between_sixteenth (error : IsError e) :
    Between (-127 * (1 : ℕ) / 16) (128 * (1 : ℕ) / 16) (e / 16) := by
  have share := error.div_const stands_sixteen (by norm_num)
    (exact32_of_sixteenths (n := -127) (by norm_num) (by norm_num))
    (exact32_of_sixteenths (n := 128) (by norm_num) (by norm_num))
  simpa using share

theorem Holds.add (holds : Holds v shares x) (share : Between (-127 * w / 16) (128 * w / 16) e)
    (byte : v < 256) (few : shares + w ≤ 16) : Holds v (shares + w) (x + e) := by
  have sum := Between.add holds share
    (exact32_of_sixteenths (n := 16 * v - 127 * (shares + w)) (by push_cast; ring)
      (by rw [abs_lt]; omega))
    (exact32_of_sixteenths (n := 16 * v + 128 * (shares + w)) (by push_cast; ring)
      (by rw [abs_lt]; omega))
  refine sum.mono ?_ ?_ <;> push_cast <;> linarith

/-- More shares only widen the bounds. -/
theorem Holds.weaken (holds : Holds v shares x) (w : ℕ) : Holds v (shares + w) x := by
  have nonneg : (0 : ℚ) ≤ w := by positivity
  refine holds.mono ?_ ?_ <;> push_cast <;> linarith

/-- A pixel at the border goes without some of the shares. -/
theorem Holds.receive {p : Prop} [Decidable p] (holds : Holds v shares x)
    (share : Between (-127 * w / 16) (128 * w / 16) e) (byte : v < 256) (few : shares + w ≤ 16) :
    Holds v (shares + w) (if p then x + e else x) := by
  split
  · exact holds.add share byte few
  · exact holds.weaken w

end shares

/-- What pixel `i` holds as the shares arrive one after the other: its intensity at first, and in
the end what it holds when it is decided. -/
def buffered (f : GrayField) (errors : Array Float32) (i : ℕ) : List Float32 :=
  let x := i % f.width
  let y := i / f.width
  let error (k : ℕ) := errors.getD k 0
  let own := (f.value i).toFloat32
  let aboveLeft := if 0 < x ∧ 0 < y then own + error (i - f.width - 1) / 16 else own
  let above := if 0 < y then aboveLeft + error (i - f.width) * 5 / 16 else aboveLeft
  let aboveRight :=
    if 0 < y ∧ x + 1 < f.width then above + error (i - f.width + 1) * 3 / 16 else above
  [own, aboveLeft, above, aboveRight,
    if 0 < x then aboveRight + error (i - 1) * 7 / 16 else aboveRight]

theorem getLast?_buffered (f : GrayField) (errors : Array Float32) (i : ℕ) :
    (f.buffered errors i).getLast? = some (f.held errors i) := rfl

theorem held_mem_buffered (f : GrayField) (errors : Array Float32) (i : ℕ) :
    f.held errors i ∈ f.buffered errors i :=
  List.mem_of_getLast? (f.getLast?_buffered errors i)

/-- What a pixel holds keeps to its bounds, if all errors before it keep to theirs. -/
theorem holds_buffered (f : GrayField) {errors : Array Float32}
    (bounded : ∀ k, IsError (errors.getD k 0)) (i : ℕ) :
    ∀ v ∈ f.buffered errors i, Holds (f.value i).toNat 16 v := by
  have byte := (f.value i).toNat_lt
  have weight (w : UInt8) {c : Float32} (same : c = w.toFloat32) :
      Stands .binary32 c.toModel.unpack w.toNat := by
    rw [same]
    exact stands_toFloat32 w
  have five := weight 5 (c := 5) (by decide)
  have three := weight 3 (c := 3) (by decide)
  have seven := weight 7 (c := 7) (by decide)
  have own : Holds (f.value i).toNat 0 (f.value i).toFloat32 :=
    ⟨_, stands_toFloat32 _, by simp, by simp⟩
  have aboveLeft := own.receive (p := 0 < i % f.width ∧ 0 < i / f.width)
    (between_sixteenth (bounded (i - f.width - 1))) byte (by decide)
  have above := aboveLeft.receive (p := 0 < i / f.width)
    (between_share (bounded (i - f.width)) five (by decide)) byte (by decide)
  have aboveRight := above.receive (p := 0 < i / f.width ∧ i % f.width + 1 < f.width)
    (between_share (bounded (i - f.width + 1)) three (by decide)) byte (by decide)
  have left := aboveRight.receive (p := 0 < i % f.width)
    (between_share (bounded (i - 1)) seven (by decide)) byte (by decide)
  intro v member
  simp only [buffered, List.mem_cons, List.not_mem_nil, or_false] at member
  rcases member with rfl | rfl | rfl | rfl | rfl
  · exact own.weaken 16
  · exact aboveLeft.weaken 15
  · exact above.weaken 10
  · exact aboveRight.weaken 7
  · exact left

theorem stands_128 : Stands .binary32 (128 : Float32).toModel.unpack 128 := by
  have same : (128 : Float32) = (128 : UInt8).toFloat32 := by decide
  rw [same]
  exact stands_toFloat32 128

theorem stands_255 : Stands .binary32 (255 : Float32).toModel.unpack 255 := by
  have same : (255 : Float32) = (255 : UInt8).toFloat32 := by decide
  rw [same]
  exact stands_toFloat32 255

/-- Deciding a pixel leaves an error within the bounds. -/
theorem isError_residue {v : ℕ} {x : Float32} (holds : Holds v 16 x) (byte : v < 256) :
    IsError (residue x) := by
  obtain ⟨q, stands, low, high⟩ := holds
  have byte : (v : ℚ) ≤ 255 := by exact_mod_cast Nat.le_of_lt_succ byte
  have nonneg : (0 : ℚ) ≤ v := by positivity
  push_cast at low high
  have compared := lt_iff_of_stands stands stands_128
  unfold residue
  split
  · rename_i burned
    have below := compared.mp (of_decide_eq_true burned)
    exact ⟨q, stands, by linarith, below.le⟩
  · rename_i kept
    have above := not_lt.mp (mt compared.mpr fun less => kept (decide_eq_true less))
    have held : Between 128 383 x := ⟨q, stands, above, by linarith⟩
    have rest := held.sub_const stands_255
      (exact32_of_sixteenths (n := -2032) (by norm_num) (by norm_num))
      (exact32_of_sixteenths (n := 2048) (by norm_num) (by norm_num))
    norm_num at rest
    exact rest

theorem diffusion_succ (f : GrayField) (n : ℕ) :
    f.diffusion (n + 1) = (f.diffusion n).push (residue (f.held (f.diffusion n) n)) := by
  simp [diffusion, List.range_succ]

/-- All errors stay within the bounds, row after row. -/
theorem isError_diffusion (f : GrayField) (n k : ℕ) : IsError ((f.diffusion n).getD k 0) := by
  induction n generalizing k with
  | zero => exact isError_zero
  | succ n ih =>
    rw [diffusion_succ, Array.getD_eq_getD_getElem?, Array.getElem?_push]
    split
    · exact isError_residue (f.holds_buffered ih n _ (f.held_mem_buffered _ n))
        (f.value n).toNat_lt
    · rw [← Array.getD_eq_getD_getElem?]
      exact ih k

/-- A white pixel never holds a value below the middle, whichever shares have arrived. -/
theorem not_lt_buffered_white (f : GrayField) (n i : ℕ) (white : f.value i = 255) :
    ∀ v ∈ f.buffered (f.diffusion n) i, ¬ v < 128 := by
  intro v member less
  obtain ⟨q, stands, low, _⟩ := f.holds_buffered (f.isError_diffusion n) i v member
  have full : (f.value i).toNat = 255 := by
    rw [white]
    rfl
  rw [full] at low
  push_cast at low
  have less := (lt_iff_of_stands stands stands_128).mp less
  linarith

end LaserCutter.GrayField
