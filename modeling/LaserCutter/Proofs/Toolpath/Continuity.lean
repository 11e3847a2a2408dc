import LaserCutter.Image.Png
import LaserCutter.Proofs.Motion.Continuity
import LaserCutter.Proofs.Number.RunningSums
import LaserCutter.Toolpath

/-!
# A job is one closed travel

Every part of a scene is an unbroken route, from a scan line up to a layer. So the job of a scene
leaves the origin, goes on without a jump and comes back to the origin; the travel home is missing
only where the head is at the origin already.
-/

namespace LaserCutter

variable (reader : PictureReader)

namespace ScanLine

variable (line : ScanLine) (pass : Pass) (overscan : Float)

/-- A lead is nothing but a cut without power. -/
theorem eq_cut_of_mem_lead {stop : Point} {part : Point → Leg}
    (member : part ∈ lead pass overscan stop) : part = pass.cut 0 .image stop := by
  unfold lead at member
  split at member
  · exact List.mem_singleton.mp member
  · contradiction

theorem unbroken_lead (stop : Point) : ∀ part ∈ lead pass overscan stop, Leg.Unbroken part := by
  intro part member
  rw [eq_cut_of_mem_lead pass overscan member]
  exact pass.unbroken_cut 0 .image stop

/-- An image is crossed by rapids and cuts of the pass. -/
theorem crossing_eq_chain (place : Float → Point) :
    ∃ parts, line.crossing pass overscan place = Leg.chain parts ∧ ∀ part ∈ parts,
      (∃ stop, part = pass.rapid stop) ∨ ∃ power stop, part = pass.cut power .image stop := by
  refine ⟨_, rfl, fun part member => ?_⟩
  rcases List.mem_append.mp member with front | runs
  · rcases List.mem_append.mp front with entry | lead
    · exact .inl ⟨_, List.mem_singleton.mp entry⟩
    · exact .inr ⟨0, _, eq_cut_of_mem_lead pass overscan lead⟩
  · obtain ⟨run, _, rfl⟩ := List.mem_map.mp runs
    exact .inr ⟨run.power, _, rfl⟩

theorem unbroken_crossing (place : Float → Point) :
    Leg.Unbroken (line.crossing pass overscan place) := by
  obtain ⟨parts, equal, shapes⟩ := line.crossing_eq_chain pass overscan place
  rw [equal]
  apply Leg.unbroken_chain
  intro part member
  rcases shapes part member with ⟨stop, rfl⟩ | ⟨power, stop, rfl⟩
  · exact pass.unbroken_rapid stop
  · exact pass.unbroken_cut power .image stop

theorem unbroken_route (place : Float → Point) :
    Route.Unbroken (line.route pass overscan place) := by
  intro position leg equal
  unfold route at equal
  dsimp only at equal
  split at equal
  · cases equal
    exact Leg.joined_andThen (line.unbroken_crossing pass overscan place position)
      (Leg.unbroken_chain (unbroken_lead pass overscan _))
  · contradiction

end ScanLine

theorem GrayField.unbroken_scan (burn : GrayField) (box : Box) (settings : RasterSettings)
    (pass : Pass) : Route.Unbroken (burn.scan box settings pass) := by
  unfold GrayField.scan
  split
  · exact Route.unbroken_still
  · exact Route.unbroken_numbered (fun i => ScanLine.unbroken_route _ _ _ _) _

theorem Path.unbroken_route (path : Path) (pass : Pass) : Route.Unbroken (path.route pass) := by
  intro position leg equal
  unfold Path.route at equal
  cases sampled : path.samples sampleSpacing with
  | error fault =>
    rw [sampled] at equal
    contradiction
  | ok points =>
    rw [sampled] at equal
    cases points with
    | nil =>
      cases equal
      exact Leg.unbroken_stay position
    | cons first rest =>
      cases equal
      apply Leg.unbroken_chain
      intro part member
      rcases List.mem_cons.mp member with rfl | cuts
      · exact pass.unbroken_rapid first
      · obtain ⟨point, _, rfl⟩ := List.mem_map.mp cuts
        exact pass.unbroken_cut pass.power .vector point

theorem Raster.unbroken_route (image : Raster) (pass : Pass) (parent : Affine) :
    Route.Unbroken (image.route reader pass parent) := by
  unfold Raster.route
  split
  · exact Route.unbroken_error .crashed
  · exact Route.unbroken_still
  · exact GrayField.unbroken_scan _ _ _ _

theorem Leaf.unbroken_route (leaf : Leaf) (pass : Pass) :
    Route.Unbroken (leaf.route reader pass) := by
  cases leaf with
  | path path => exact path.unbroken_route pass
  | raster image parent => exact image.unbroken_route reader pass parent

theorem Item.unbroken_route (item : Item) (pass : Pass) (parent : Affine) :
    Route.Unbroken (item.route reader pass parent) := by
  apply Route.unbroken_chain
  intro route member
  obtain ⟨leaf, _, rfl⟩ := List.mem_map.mp member
  exact leaf.unbroken_route reader pass

theorem Layer.unbroken_route (layer : Layer) (travelSpeed : Float) :
    Route.Unbroken (layer.route reader travelSpeed) := by
  unfold Layer.route
  split
  · apply Route.unbroken_numbered
    intro i
    apply Route.unbroken_chain
    intro route member
    obtain ⟨item, _, rfl⟩ := List.mem_map.mp member
    exact item.unbroken_route reader _ _
  · exact Route.unbroken_still

namespace Scene

theorem joined_leg (scene : Scene) (travelSpeed : Float) (leg : Leg)
    (equal : scene.leg reader travelSpeed = .ok leg) : Joined .origin leg.moves leg.stop := by
  refine Route.unbroken_chain ?_ .origin leg equal
  intro route member
  obtain ⟨layer, _, rfl⟩ := List.mem_map.mp member
  exact layer.unbroken_route reader travelSpeed

/-- What the job of a scene is made of: the leg of its layers, and the way home where needed. -/
theorem job_eq (scene : Scene) (machine : Machine) (job : Job)
    (equal : scene.job reader machine = .ok job) :
    ∃ leg, scene.leg reader machine.travelSpeed = .ok leg ∧
      job = .ofMoves (leg.moves ++
        if leg.stop.same .origin then [] else [.home leg.stop machine.travelSpeed]) := by
  unfold Scene.job at equal
  cases driven : scene.leg reader machine.travelSpeed with
  | error fault => simp [driven, bind, Except.bind] at equal
  | ok leg =>
    simp only [driven, bind, Except.bind, pure, Except.pure] at equal
    cases equal
    exact ⟨leg, rfl, rfl⟩

/-- The job of a scene, if there is one, starts at the origin, never jumps and ends at the origin, and
its clock adds up the durations of the moves. If the layers have no moves there is no way home either.
Each layer and each item, from wherever it starts, gives joined moves and says where they lead. -/
theorem travel_closed :
    (∀ (scene : Scene) (machine : Machine) (job : Job), scene.job reader machine = .ok job →
      (∀ first ∈ job.moves.head?, first.start = .origin) ∧
      (∀ (i : Nat) (h : i + 1 < job.moves.length), job.moves[i + 1].start = job.moves[i].stop) ∧
      (∀ last ∈ job.moves.getLast?, last.stop.same .origin) ∧
      (∀ leg, scene.leg reader machine.travelSpeed = .ok leg → leg.moves = [] → job.moves = []) ∧
      job.elapsed.length = job.moves.length ∧
      ∀ (i : Nat) (h : i < job.moves.length), job.elapsed.getD i 0 =
        (if i = 0 then 0 else job.elapsed.getD (i - 1) 0) + job.moves[i].duration) ∧
    (∀ (layer : Layer) (travelSpeed : Float) (position : Point) (leg : Leg),
      layer.route reader travelSpeed position = .ok leg → Joined position leg.moves leg.stop) ∧
    ∀ (item : Item) (pass : Pass) (parent : Affine) (position : Point) (leg : Leg),
      item.route reader pass parent position = .ok leg → Joined position leg.moves leg.stop := by
  refine ⟨fun scene machine job equal => ?_, fun layer travelSpeed => ?_,
    fun item pass parent => ?_⟩
  · obtain ⟨leg, driven, rfl⟩ := scene.job_eq reader machine job equal
    have joined := scene.joined_leg reader machine.travelSpeed leg driven
    obtain ⟨stop, closed, home⟩ : ∃ stop : Point, stop.same .origin ∧
        Joined .origin (leg.moves ++
          if leg.stop.same .origin then [] else [.home leg.stop machine.travelSpeed]) stop := by
      by_cases there : leg.stop.same .origin
      · exact ⟨leg.stop, there, by simpa [there] using joined⟩
      · refine ⟨.origin, by decide, joined.append ?_⟩
        simp only [there]
        exact ⟨rfl, rfl⟩
    refine ⟨home.head_start, home.getElem_start, ?_, ?_, ?_, ?_⟩
    · intro last member
      rw [home.getLast_stop last member]
      exact closed
    · intro other same empty
      rw [driven] at same
      cases same
      rw [empty] at joined
      -- Nothing was driven, so the head is still at the origin and needs no way home.
      have there : leg.stop.same .origin := by
        rw [show leg.stop = .origin from joined]
        decide
      simp [Job.ofMoves, empty, there]
    · rw [Job.ofMoves, Number.length_runningSums, List.length_map]
    · intro i h
      have timed := Number.getD_runningSums ((Job.ofMoves (leg.moves ++
        if leg.stop.same .origin then [] else [.home leg.stop machine.travelSpeed])).moves.map
          Move.duration) i (by rwa [List.length_map])
      rwa [List.getElem_map] at timed
  · exact layer.unbroken_route reader travelSpeed
  · exact item.unbroken_route reader pass parent

/-- A layer of two passes over a group of a path and a picture gives seven moves for each pass and the
way home. -/
theorem travel_closed_group :
    let picture : Raster := ⟨"dot", .pixels 1 1 [0, 0, 0, 255], 1, 1, .identity,
      { RasterSettings.standard with dpi := 25.4 }⟩
    let group : Item := .group [.path (.polyline [⟨1, 0⟩, ⟨2, 0⟩] false), .raster picture] .identity
    let scene : Scene :=
      ⟨[⟨"cut", "", { LayerSettings.standard with passes := 2 }, [group]⟩], .standard⟩
    ∃ job, scene.job Image.decodePng .standard = .ok job ∧ job.moves.length = 15 ∧
      job.moves.head?.map Move.start = some .origin ∧
      (∀ last ∈ job.moves.getLast?, last.stop.same .origin) ∧ job.elapsed.length = 15 := by
  intro picture group scene
  have size : (scene.job Image.decodePng .standard).toOption.map
      (fun job => job.moves.length) = some 15 := by
    decide +kernel
  cases driven : scene.job Image.decodePng .standard with
  | error fault => simp [driven, Except.toOption] at size
  | ok job =>
    have size : job.moves.length = 15 := by simpa [driven, Except.toOption] using size
    obtain ⟨starts, _, ends, _, clock, _⟩ :=
      (travel_closed Image.decodePng).1 scene .standard job driven
    refine ⟨job, rfl, size, ?_, ends, clock.trans size⟩
    cases moves : job.moves with
    | nil => simp [moves] at size
    | cons first rest => simp [starts first (by simp [moves])]

end Scene

end LaserCutter
