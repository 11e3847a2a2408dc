import LaserCutter.Proofs.Image.Spreading

/-!
# What error diffusion depends on

A pixel is decided by the pixels up to it alone, and by a value that is never far from its own
intensity, however long errors have been passed on (`GrayField.diffusion_causal_bounded`). Black pixels
leave no errors, so a black field burns everywhere.
-/

namespace LaserCutter.GrayField

open Number

section causal

variable {f g : GrayField} {n : ℕ}

theorem held_congr (width : g.width = f.width) {i : ℕ} (same : g.value i = f.value i)
    (errors : Array Float32) : g.held errors i = f.held errors i := by
  simp only [held, width, same]

/-- Fields that agree on some pixels leave the same errors there. -/
theorem diffusion_congr (width : g.width = f.width) (same : ∀ i < n, g.value i = f.value i) :
    g.diffusion n = f.diffusion n := by
  induction n with
  | zero => rfl
  | succ n ih =>
    rw [diffusion_succ, diffusion_succ, ih fun i before => same i (by omega),
      held_congr width (same n (Nat.lt_succ_self n))]

theorem value_diffused (f : GrayField) {i : ℕ} (inside : i < f.width * f.height) :
    f.diffused.value i = if burns (f.held (f.diffusion i) i) then 255 else 0 := by
  rw [← f.held_diffusion inside.le]
  simp [value, diffused, ofIndices, inside]

/-- A pixel is decided by the pixels up to it. -/
theorem value_diffused_congr (width : g.width = f.width) (height : g.height = f.height)
    (same : ∀ i < n, g.value i = f.value i) {i : ℕ} (before : i < n) :
    g.diffused.value i = f.diffused.value i := by
  by_cases inside : i < f.width * f.height
  · rw [value_diffused f inside, value_diffused g (by rwa [width, height]),
      diffusion_congr width fun k earlier => same k (by omega), held_congr width (same i before)]
  · simp [value, diffused, ofIndices, width, height, inside]

end causal

section black

/-- Nothing comes of shares of no error. -/
theorem gathered_zero {error : ℕ → Float32} {shares : List (ℕ × Share)}
    (errorless : ∀ share ∈ shares, error share.1 = 0) : gathered 0 error shares = 0 := by
  induction shares with
  | nil => exact gathered_nil 0 error
  | cons share rest ih =>
    rw [List.forall_mem_cons] at errorless
    have nothing : (0 : Float32) + share.2.of 0 = 0 := by cases share.2 <;> decide
    rw [gathered_cons, errorless.1, nothing, ih errorless.2]

theorem held_black {f : GrayField} {errors : Array Float32} {i : ℕ} (black : f.value i = 0)
    (errorless : ∀ k, errors.getD k 0 = 0) : f.held errors i = 0 := by
  have zero : (0 : UInt8).toFloat32 = 0 := by decide
  rw [held_eq, black, zero]
  exact gathered_zero fun share _ => errorless share.1

theorem getD_diffusion_black {f : GrayField} {n : ℕ} (black : ∀ i < n, f.value i = 0) (k : ℕ) :
    (f.diffusion n).getD k 0 = 0 := by
  induction n generalizing k with
  | zero => rfl
  | succ n ih =>
    have nothing : residue 0 = 0 := by decide
    have errorless := ih fun i before => black i (by omega)
    rw [diffusion_succ, held_black (black n (Nat.lt_succ_self n)) errorless, nothing,
      Array.getD_eq_getD_getElem?, Array.getElem?_push]
    split
    · rfl
    · rw [← Array.getD_eq_getD_getElem?]
      exact errorless k

/-- Black pixels burn as long as there are only black ones before them. -/
theorem burns_black {f : GrayField} {i : ℕ} (black : ∀ k ≤ i, f.value k = 0) :
    burns (f.held (f.diffusion i) i) = true := by
  rw [held_black (black i le_rfl) (getD_diffusion_black fun k before => black k before.le)]
  decide

end black

/-- Error diffusion over a buffer reads and writes only cells that exist, and burns what dithering
says. Each pixel is decided by a value between its intensity less 127 and its intensity plus 128. The
burn values of the first pixels depend on the intensities of these alone, and a black field burns
everywhere. -/
theorem diffusion_causal_bounded (f : GrayField) :
    (∃ s, f.spread (f.width * f.height) = some s ∧ s.burned = f.diffused.values) ∧
    (∀ i < f.width * f.height, ∃ s v, f.spread i = some s ∧ s.cells[i]? = some v ∧
      f.diffused.values[i]? = some (if burns v then 255 else 0) ∧
      Between ((f.value i).toNat - 127) ((f.value i).toNat + 128) v) ∧
    (∀ (g : GrayField) (n : ℕ), g.width = f.width → g.height = f.height →
      (∀ i < n, g.value i = f.value i) → ∀ i < n, g.diffused.value i = f.diffused.value i) ∧
    ((∀ i < f.width * f.height, f.value i = 0) →
      ∀ i < f.width * f.height, f.diffused.values[i]? = some 255) := by
  have stored {i : ℕ} (inside : i < f.width * f.height) :
      f.diffused.values[i]? =
        some (if burns (f.held (f.diffusion (f.width * f.height)) i) then 255 else 0) := by
    simp [diffused, ofIndices, inside]
  refine ⟨f.burned_spread, fun i inside => ?_,
    fun g n width height same i => value_diffused_congr width height same, fun black i inside => ?_⟩
  · obtain ⟨s, run, reached⟩ := f.spread_reached inside.le
    refine ⟨s, _, run, reached.held inside, stored inside, ?_⟩
    have holds := f.holds_buffered (f.isError_diffusion (f.width * f.height)) i _
      (f.held_mem_buffered _ i)
    refine holds.mono ?_ ?_ <;> norm_num
  · rw [stored inside, f.held_diffusion inside.le,
      burns_black fun k before => black k (by omega), if_pos rfl]

/-- A black field of three columns and two rows, and one that differs from it in the second row. -/
theorem diffusion_causal_bounded_rows :
    let f : GrayField := ⟨3, 2, #[0, 0, 0, 0, 0, 0]⟩
    let g : GrayField := ⟨3, 2, #[0, 0, 0, 90, 200, 10]⟩
    g.width = f.width ∧ g.height = f.height ∧ (∀ i < 3, g.value i = f.value i) ∧
      (∀ i < f.width * f.height, f.value i = 0) ∧
      (∀ i < f.width * f.height, f.diffused.values[i]? = some 255) ∧
      (∀ i < 3, g.diffused.value i = f.diffused.value i) ∧
      g.diffused.values = #[255, 255, 255, 255, 0, 255] := by
  intro f g
  have same : ∀ i < 3, g.value i = f.value i := by decide
  have black : ∀ i < f.width * f.height, f.value i = 0 := by decide
  obtain ⟨_, _, causal, burnt⟩ := diffusion_causal_bounded f
  exact ⟨rfl, rfl, same, black, burnt black, causal g 3 rfl rfl same, by decide +kernel⟩

end LaserCutter.GrayField
