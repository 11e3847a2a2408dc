import LaserCutter.Proofs.Motion.Cuts
import LaserCutter.Proofs.Scan.FarEdge
import LaserCutter.Proofs.Toolpath.Continuity

/-!
# What is burned does not depend on where the head comes from

Every part of a scene cuts the same from wherever it starts, and in every pass. A scan line needs a
pixel for that: without one, whether it leads to its far edge would depend on where it starts. So
the job of a scene cuts what each of its layers cuts on its own, and a layer that emits repeats what
its first pass cuts.
-/

namespace LaserCutter

namespace ScanLine

variable (line : ScanLine) (pass : Pass) (number : Nat) (overscan : Float) (place : Float → Point)

theorem cutsAs_lead (stop : Point) :
    List.Forall₂ (Leg.CutsAs (Move.inPass number)) (lead pass overscan stop)
      (lead { pass with number } overscan stop) := by
  unfold lead
  split
  · exact .cons (pass.cutsAs_cut number 0 .image stop) .nil
  · exact .nil

theorem cutsAs_crossing :
    Leg.CutsAs (Move.inPass number) (line.crossing pass overscan place)
      (line.crossing { pass with number } overscan place) := by
  apply Leg.cutsAs_chain
  refine List.rel_append (List.rel_append ?_ (cutsAs_lead pass number overscan _)) ?_
  · exact .cons (Pass.cutsAs_rapid _ _ _ _ _) .nil
  · simp only [List.forall₂_map_left_iff, List.forall₂_map_right_iff, List.forall₂_same]
    exact fun run _ => pass.cutsAs_cut number run.power .image _

theorem cutsAs_route (pixels : line.burns ≠ []) :
    Route.CutsAs (Move.inPass number) (line.route pass overscan place)
      (line.route { pass with number } overscan place) := by
  intro position other
  simp only [Route.cuts, route_eq _ _ _ _ _ pixels]
  split
  · have crossed := line.cutsAs_crossing pass number overscan place position other
    have out := Leg.cutsAs_chain (cutsAs_lead pass number overscan (place (line.exit overscan)))
    simp [Except.map, Leg.andThen, crossed, out (line.crossing pass overscan place position).stop]
  · rfl

theorem cuts_lead (stop : Point) : ∀ part ∈ lead pass overscan stop,
    ∃ power mode stop, part = pass.cut power mode stop :=
  fun _ member => ⟨0, .image, stop, eq_cut_of_mem_lead pass overscan member⟩

/-- The first cut of a scan line starts at its entry or near it. -/
theorem start_first_cut (position : Point) (leg : Leg)
    (driven : line.route pass overscan place position = .ok leg) :
    ∀ cut ∈ (leg.moves.filter Move.isCut).head?, cut.start = place (line.entry overscan) ∨
      cut.start.near (place (line.entry overscan)) leastMove := by
  unfold route at driven
  dsimp only at driven
  split at driven
  · cases driven
    unfold crossing
    rw [← Leg.chain_append, List.append_assoc, List.append_assoc, List.singleton_append]
    apply pass.start_first_cut
    intro part member
    rcases List.mem_append.mp member with lead | member
    · exact cuts_lead pass overscan _ part lead
    · rcases List.mem_append.mp member with runs | lead
      · obtain ⟨run, _, rfl⟩ := List.mem_map.mp runs
        exact ⟨run.power, .image, _, rfl⟩
      · exact cuts_lead pass overscan _ part lead
  · contradiction

end ScanLine

variable (number : Nat)

theorem GrayField.cutsAs_scan (burn : GrayField) (box : Box) (settings : RasterSettings)
    (pass : Pass) :
    Route.CutsAs (Move.inPass number) (burn.scan box settings pass)
      (burn.scan box settings { pass with number }) := by
  unfold scan
  split
  · exact Route.cutsAs_still
  · rename_i scanned
    obtain ⟨width, height, _⟩ : burn.width ≠ 0 ∧ burn.height ≠ 0 ∧ 0 < settings.dpi := by
      simpa [not_or] using scanned
    refine Route.cutsAs_numbered (fun i => ?_) _
    exact ScanLine.cutsAs_route _ pass number _ _
      (settings.scanDirection.values_ne_nil width height _)

namespace Path

/-- What a path drives: nothing without samples, otherwise a rapid to the first and cuts. -/
theorem route_eq (path : Path) (pass : Pass) (position : Point) :
    path.route pass position =
      match path.samples sampleSpacing with
      | .error fault => .error (.path fault)
      | .ok [] => .ok (.stay position)
      | .ok (first :: rest) =>
        .ok (Leg.chain (pass.rapid first :: rest.map (pass.cut pass.power .vector)) position) := by
  unfold route
  rcases path.samples sampleSpacing with fault | _ | ⟨first, rest⟩ <;> rfl

theorem cutsAs_route (path : Path) (pass : Pass) :
    Route.CutsAs (Move.inPass number) (path.route pass) (path.route { pass with number }) := by
  intro position other
  simp only [Route.cuts, route_eq]
  split
  · rfl
  · rfl
  · rename_i first rest _
    have alike : Leg.CutsAs (Move.inPass number)
        (Leg.chain (pass.rapid first :: rest.map (pass.cut pass.power .vector)))
        (Leg.chain (({ pass with number } : Pass).rapid first ::
          rest.map (({ pass with number } : Pass).cut pass.power .vector))) := by
      refine Leg.cutsAs_chain (.cons (Pass.cutsAs_rapid _ _ _ _ _) ?_)
      simp only [List.forall₂_map_left_iff, List.forall₂_map_right_iff, List.forall₂_same]
      exact fun point _ => pass.cutsAs_cut number pass.power .vector point
    exact congrArg Except.ok (alike position other)

/-- The first cut of a path starts at its first sample or near it. -/
theorem start_first_cut (path : Path) (pass : Pass) (position : Point) (leg : Leg)
    (driven : path.route pass position = .ok leg) :
    ∀ cut ∈ (leg.moves.filter Move.isCut).head?,
      ∃ first ∈ (path.samples sampleSpacing).toOption.bind List.head?,
        cut.start = first ∨ cut.start.near first leastMove := by
  rw [route_eq] at driven
  split at driven
  · contradiction
  · cases driven
    nofun
  · rename_i first rest sampled
    cases driven
    intro cut member
    refine ⟨first, by simp [sampled, Except.toOption],
      pass.start_first_cut first position ?_ cut member⟩
    intro part parts
    obtain ⟨point, _, rfl⟩ := List.mem_map.mp parts
    exact ⟨pass.power, .vector, point, rfl⟩

end Path

variable (reader : PictureReader)

theorem Raster.cutsAs_route (image : Raster) (pass : Pass) (parent : Affine) :
    Route.CutsAs (Move.inPass number) (image.route reader pass parent)
      (image.route reader { pass with number } parent) := by
  unfold Raster.route
  split
  · exact Route.cutsAs_error .crashed
  · exact Route.cutsAs_still
  · exact GrayField.cutsAs_scan number _ _ _ pass

theorem Leaf.cutsAs_route (leaf : Leaf) (pass : Pass) :
    Route.CutsAs (Move.inPass number) (leaf.route reader pass)
      (leaf.route reader { pass with number }) := by
  cases leaf with
  | path path => exact path.cutsAs_route number pass
  | raster image parent => exact image.cutsAs_route number reader pass parent

theorem Item.cutsAs_route (item : Item) (pass : Pass) (parent : Affine) :
    Route.CutsAs (Move.inPass number) (item.route reader pass parent)
      (item.route reader { pass with number } parent) := by
  apply Route.cutsAs_chain
  simp only [List.forall₂_map_left_iff, List.forall₂_map_right_iff, List.forall₂_same]
  exact fun leaf _ => leaf.cutsAs_route number reader pass

namespace Layer

/-- One pass over a layer. -/
def passRoute (layer : Layer) (travelSpeed : Float) (number : Nat) : Route :=
  Route.chain (layer.items.map (·.route reader (layer.pass travelSpeed number) .identity))

theorem cutsAs_passRoute (layer : Layer) (travelSpeed : Float) (first : Nat) :
    Route.CutsAs (Move.inPass number) (layer.passRoute reader travelSpeed first)
      (layer.passRoute reader travelSpeed number) := by
  apply Route.cutsAs_chain
  simp only [List.forall₂_map_left_iff, List.forall₂_map_right_iff, List.forall₂_same]
  exact fun item _ => item.cutsAs_route number reader (layer.pass travelSpeed first) .identity

/-- A layer that emits repeats what its first pass cuts, in every pass with its number. -/
theorem cuts_route (layer : Layer) (travelSpeed : Float) (position other : Point) :
    (layer.route reader travelSpeed).cuts position =
      if layer.settings.emits then
        ((layer.passRoute reader travelSpeed 1).cuts other).map fun cuts =>
          (List.range layer.passCount).flatMap fun i => cuts.map (Move.inPass (i + 1))
      else .ok [] := by
  unfold Layer.route
  split
  · have passes : Route.numbered (fun i => Route.chain
        (layer.items.map (·.route reader (layer.pass travelSpeed (i + 1)) .identity)))
        layer.passCount = Route.chain ((List.range layer.passCount).map fun i =>
          layer.passRoute reader travelSpeed (i + 1)) := Route.numbered_eq_chain _ _
    have steady (i : Nat) : (layer.passRoute reader travelSpeed (i + 1)).Steady :=
      (layer.cutsAs_passRoute (i + 1) reader travelSpeed (i + 1)).steady
    have repeated : (fun i => (layer.passRoute reader travelSpeed (i + 1)).cuts other) = fun i =>
        ((layer.passRoute reader travelSpeed 1).cuts other).map (List.map (Move.inPass (i + 1))) :=
      funext fun i => layer.cutsAs_passRoute (i + 1) reader travelSpeed 1 other other
    rw [passes, Route.cuts_chain (fun i _ => steady i) position other, repeated]
    cases (layer.passRoute reader travelSpeed 1).cuts other with
    | error fault =>
      have once : 0 < layer.passCount := Nat.lt_of_lt_of_le Nat.one_pos (Nat.le_max_right _ _)
      obtain ⟨more, count⟩ := Nat.exists_eq_succ_of_ne_zero (Nat.ne_of_gt once)
      rw [count, List.range_succ_eq_map, List.mapM_cons]
      rfl
    | ok cuts =>
      have all := List.mapM_pure (m := Except RouteFault) (l := List.range layer.passCount)
        (f := fun i => cuts.map (Move.inPass (i + 1)))
      exact congrArg (Except.map List.flatten) all
  · rfl

theorem steady_route (layer : Layer) (travelSpeed : Float) :
    (layer.route reader travelSpeed).Steady := by
  intro position other
  rw [layer.cuts_route reader _ position .origin, layer.cuts_route reader _ other .origin]

end Layer

namespace Scene

/-- The job of a scene cuts what each of its layers cuts on its own, in order. -/
theorem cuts_job (scene : Scene) (machine : Machine) (position : Point) :
    (scene.job reader machine).map (fun job => cutsOf job.moves) =
      (scene.layers.mapM fun (layer : Layer) =>
        (layer.route reader machine.travelSpeed).cuts position).map List.flatten := by
  have steady : ∀ layer ∈ scene.layers, (layer.route reader machine.travelSpeed).Steady :=
    fun layer _ => layer.steady_route reader machine.travelSpeed
  rw [← Route.cuts_chain steady .origin position]
  unfold Scene.job Scene.leg Route.cuts
  cases Route.chain (scene.layers.map fun layer => layer.route reader machine.travelSpeed)
      .origin with
  | error fault => rfl
  | ok leg =>
    have home : cutsOf (if leg.stop.same .origin then []
        else [Move.home leg.stop machine.travelSpeed]) = [] := by
      split <;> rfl
    simp [Job.ofMoves, bind, Except.bind, pure, Except.pure, Except.map, home]

/-- What an item cuts, up to where the cuts start, does not depend on where the head comes from; nor
does what makes it impossible to drive. Every pass of a layer that emits cuts what its first pass
cuts from anywhere, in order, and a job cuts what its layers cut one by one, each as it would on its
own. The first cut of a path starts at its first sample, and that of a scan line at its entry, or
within the least move of it on both axes. -/
theorem cuts_independent_of_start :
    (∀ (item : Item) (pass : Pass) (parent : Affine) (position other : Point),
      (item.route reader pass parent).cuts position = (item.route reader pass parent).cuts other) ∧
    (∀ (layer : Layer) (travelSpeed : Float) (position other : Point),
      (layer.route reader travelSpeed).cuts position =
        if layer.settings.emits then
          ((layer.passRoute reader travelSpeed 1).cuts other).map fun cuts =>
            (List.range layer.passCount).flatMap fun i => cuts.map (Move.inPass (i + 1))
        else .ok []) ∧
    (∀ (scene : Scene) (machine : Machine) (position : Point),
      (scene.job reader machine).map (fun job => cutsOf job.moves) =
        (scene.layers.mapM fun (layer : Layer) =>
          (layer.route reader machine.travelSpeed).cuts position).map List.flatten) ∧
    (∀ (path : Path) (pass : Pass) (position : Point) (leg : Leg),
      path.route pass position = .ok leg → ∀ cut ∈ (leg.moves.filter Move.isCut).head?,
        ∃ first ∈ (path.samples sampleSpacing).toOption.bind List.head?,
          cut.start = first ∨ cut.start.near first leastMove) ∧
    ∀ (line : ScanLine) (pass : Pass) (overscan : Float) (place : Float → Point)
      (position : Point) (leg : Leg), line.route pass overscan place position = .ok leg →
        ∀ cut ∈ (leg.moves.filter Move.isCut).head?, cut.start = place (line.entry overscan) ∨
          cut.start.near (place (line.entry overscan)) leastMove :=
  ⟨fun item pass parent => (item.cutsAs_route pass.number reader pass parent).steady,
    fun layer => layer.cuts_route reader, fun scene => scene.cuts_job reader,
    fun path => path.start_first_cut, fun line => line.start_first_cut⟩

/-- A path and a scan line that are reached from near where they begin: the travel there is left
out, and the first cut starts where the head is. -/
theorem cuts_independent_of_start_near :
    let path : Path := .polyline [⟨1, 0⟩, ⟨2, 0⟩] false
    let line : ScanLine := ⟨[255, 0], 1, 2, false⟩
    let pass : Pass := ⟨"cut", 80, 10, true, 1, 2, 100⟩
    let head : Point := ⟨1, 0.005⟩
    ((Item.path path).route Image.decodePng pass .identity).cuts head =
        ((Item.path path).route Image.decodePng pass .identity).cuts .origin ∧
      (∃ leg cut, path.route pass head = .ok leg ∧
        (leg.moves.filter Move.isCut).head? = some cut ∧ cut.start = head ∧
        cut.start.near ⟨1, 0⟩ leastMove) ∧
      ∃ leg cut, line.route pass 0 (⟨·, 0⟩) head = .ok leg ∧
        (leg.moves.filter Move.isCut).head? = some cut ∧ cut.start = head ∧
        cut.start.near ⟨line.entry 0, 0⟩ leastMove := by
  intro path line pass head
  obtain ⟨items, _, _, paths, lines⟩ := cuts_independent_of_start Image.decodePng
  refine ⟨items _ _ _ _ _, ?_, ?_⟩
  · have first : ((path.route pass head).toOption.bind fun leg =>
        (leg.moves.filter Move.isCut).head?).map Move.start = some head := by decide +kernel
    cases driven : path.route pass head with
    | error fault => simp [driven, Except.toOption] at first
    | ok leg =>
      obtain ⟨cut, member, start⟩ : ∃ cut, (leg.moves.filter Move.isCut).head? = some cut ∧
          cut.start = head := by simpa [driven, Except.toOption] using first
      refine ⟨leg, cut, rfl, member, start, ?_⟩
      obtain ⟨sample, sampled, near⟩ := paths path pass head leg driven cut member
      have place : (path.samples sampleSpacing).toOption.bind List.head? = some ⟨1, 0⟩ := by
        decide +kernel
      have same : sample = ⟨1, 0⟩ := by simpa [place] using sampled.symm
      rw [same, start] at near
      rw [start]
      exact near.resolve_left (by decide)
  · have first : ((line.route pass 0 (⟨·, 0⟩) head).toOption.bind fun leg =>
        (leg.moves.filter Move.isCut).head?).map Move.start = some head := by decide +kernel
    cases driven : line.route pass 0 (⟨·, 0⟩) head with
    | error fault => simp [driven, Except.toOption] at first
    | ok leg =>
      obtain ⟨cut, member, start⟩ : ∃ cut, (leg.moves.filter Move.isCut).head? = some cut ∧
          cut.start = head := by simpa [driven, Except.toOption] using first
      refine ⟨leg, cut, rfl, member, start, ?_⟩
      have near := lines line pass 0 (⟨·, 0⟩) head leg driven cut member
      rw [start] at near ⊢
      exact near.resolve_left (by decide)

end Scene

end LaserCutter
