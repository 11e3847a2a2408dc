import LaserCutter.Proofs.Number.Whole
import LaserCutter.Proofs.Scan.Blocks

/-!
# The powers of a scan

A picture is burnt at steps of the layer power, and its leads have no power at all. A step keeps
within full power if the layer power does.
-/

namespace LaserCutter

open Number

/-- Full power, in percent. -/
theorem stands_full : Stands .binary64 (exact 100) (100 : ℕ) := stands_of_byte 100 (by decide)

theorem stands_powerStep : Stands .binary64 (exact powerStep) (4 : ℕ) :=
  stands_of_byte 4 (by decide)

/-- A burn value takes a share of the power, and rounding to steps does not lead beyond full power,
which is a whole number of steps. -/
theorem upTo_steppedPower (burn : UInt8) {layerPower : Float} (bounded : UpTo 100 layerPower) :
    UpTo 100 (steppedPower burn layerPower) := by
  have most : Stands .binary64 (exact 255) (255 : ℕ) := stands_of_byte 255 (by decide)
  have byte : burn.toNat ≤ 1 * 255 := by
    have := burn.toNat_lt
    omega
  have value : UpTo (1 * 255) burn.toFloat :=
    ⟨_, stands_uint8 burn, by positivity, by exact_mod_cast byte⟩
  have step : UpTo 4 powerStep := ⟨_, stands_powerStep, by norm_num, le_rfl⟩
  have share : UpTo 1 (burn.toFloat / 255) :=
    value.div most (by norm_num) (by norm_num)
  have power : UpTo (25 * 4) (burn.toFloat / 255 * layerPower) := share.mul bounded (by norm_num)
  have steps : UpTo 25 (burn.toFloat / 255 * layerPower / powerStep) :=
    power.div stands_powerStep (by norm_num) (by norm_num)
  exact (steps.round (by norm_num)).mul step (by norm_num)

/-- A power that a scan under the given layer power may have. -/
inductive ScanPower (layerPower : Float) : Float → Prop
  | lead : ScanPower layerPower 0
  | burn (value : UInt8) : ScanPower layerPower (steppedPower value layerPower)

namespace ScanLine

variable {line : ScanLine} {layerPower overscan : Float}

theorem power_of_mem_runs {run : Run} (member : run ∈ line.runs layerPower) :
    ScanPower layerPower run.power := by
  by_cases pixels : line.burns = []
  · simp [runs, burnRuns, pixels, runsOf] at member
  · have merged := merges_runsOf line.low line.high (pixelCentre line.burns.length line.low line.high)
      line.reverse (List.map_eq_nil_iff.not.mpr pixels)
      (comparesExactly_steppedPower line.burns layerPower)
    have power : run.power ∈ (line.runs layerPower).map Run.power := List.mem_map_of_mem member
    rw [show (line.runs layerPower).map Run.power = _ from merged.powers] at power
    obtain ⟨burn, _, same⟩ :=
      List.mem_map.mp (mem_powers_walk.mp ((List.destutter_sublist _ _).subset power))
    rw [← same]
    exact .burn burn

theorem power_of_mem_targets {target : Float × Float}
    (member : target ∈ line.targets layerPower overscan) : ScanPower layerPower target.2 := by
  have lead {along : Float} (member : target ∈ leadTarget overscan along) :
      ScanPower layerPower target.2 := by
    unfold leadTarget at member
    split at member
    · rw [List.mem_singleton.mp member]
      exact .lead
    · contradiction
  rcases List.mem_append.mp member with within | out
  · rcases List.mem_append.mp within with into | run
    · exact lead into
    · obtain ⟨run, among, rfl⟩ := List.mem_map.mp run
      exact power_of_mem_runs among
  · exact lead out

theorem powers_route (line : ScanLine) (pass : Pass) (overscan : Float) (place : Float → Point)
    (pixels : line.burns ≠ []) :
    (line.route pass overscan place).Emits fun move => ScanPower pass.power move.power := by
  intro position leg driven move member
  rw [line.route_eq_strokes pass overscan place position pixels driven] at member
  rcases List.mem_append.mp member with rapid | cut
  · rw [Pass.eq_rapidMove_of_mem rapid]
    exact .lead
  · obtain ⟨_, ⟨target, among, _, power⟩, _⟩ := Pass.mem_strokes cut
    rw [power]
    exact power_of_mem_targets among

end ScanLine

/-- Pictures are driven at the powers of a scan. -/
theorem Raster.powers_route (reader : PictureReader) (image : Raster) (pass : Pass)
    (parent : Affine) :
    (image.route reader pass parent).Emits fun move => ScanPower pass.power move.power := by
  unfold Raster.route
  split
  · exact nofun
  · exact Route.emits_still
  · rename_i picture _
    dsimp only [GrayField.scan]
    split
    · exact Route.emits_still
    · rename_i scanned
      obtain ⟨width, height, _⟩ := by simpa [not_or] using scanned
      refine Route.emits_numbered (fun i => ?_) _
      rw [GrayField.scanLine_eq]
      exact ScanLine.powers_route _ pass _ _
        (GrayField.line_ne_nil _ _ image.settings width height _ i)

end LaserCutter
