import LaserCutter.Proofs.Toolpath.Cuts
import LaserCutter.Proofs.Toolpath.Traversal

/-!
# The order and the stamps of a compiled job

A job is made of blocks, one for each pass over each layer that emits, and a block is made of what the
leaves of the layer add, depth first and from left to right (`Scene.compiled_in_order`). Each leaf
stands under all placements on the way to it (`Item.leaves_along`). Nothing but rapids and cuts of the
pass is ever emitted, so every move of a block bears the stamps of the pass.
-/

namespace LaserCutter

/-- The placements on the way from the root, the outermost first, as one. -/
def Affine.along (placements : List Affine) : Affine := placements.foldl Affine.compose .identity

theorem Affine.along_snoc (above : List Affine) (placement : Affine) :
    along (above ++ [placement]) = (along above).compose placement := List.foldl_append

/-- A leaf of an item tree together with the placements of all that it stands in. Its own placement
comes after them. -/
inductive Twig where
  | path (above : List Affine) (path : Path)
  | raster (above : List Affine) (image : Raster)

/-- What the twig comes to once the placements above it are one. -/
def Twig.leaf : Twig → Leaf
  | .path above p => .path (p.placed (.along above))
  | .raster above image => .raster image (.along above)

mutual

/-- The twigs of an item, depth first and from left to right. -/
def Item.twigs (above : List Affine) : Item → List Twig
  | .path path => [.path above path]
  | .compound paths placement => paths.map (.path (above ++ [placement]))
  | .group children placement => twigsOf (above ++ [placement]) children
  | .raster image => [.raster above image]

/-- The twigs of items that stand side by side. -/
def twigsOf (above : List Affine) : List Item → List Twig
  | [] => []
  | item :: rest => item.twigs above ++ twigsOf above rest

end

mutual

/-- The leaves of an item stand under the placements on the way to them. -/
theorem Item.leaves_along (above : List Affine) : (item : Item) →
    item.leaves (.along above) = (item.twigs above).map Twig.leaf
  | .path path => rfl
  | .compound paths placement => by
    rw [Item.leaves, Item.twigs, List.map_map, ← Affine.along_snoc]
    rfl
  | .group children placement => by
    rw [Item.leaves, Item.twigs, ← Affine.along_snoc, leavesOf_along]
  | .raster image => rfl

theorem leavesOf_along (above : List Affine) : (items : List Item) →
    leavesOf (.along above) items = (twigsOf above items).map Twig.leaf
  | [] => rfl
  | item :: rest => by
    rw [leavesOf, twigsOf, List.map_append, item.leaves_along, leavesOf_along]

end

/-- Parts are driven one after the other, each from where the one before stopped. The pieces are what
the parts add, in order. -/
inductive Threaded {α : Type} (drives : α → Point → List Move → Point → Prop) :
    Point → List α → List (List Move) → Point → Prop
  | nil {position : Point} : Threaded drives position [] [] position
  | cons {x : α} {rest : List α} {start middle stop : Point} {piece : List Move}
    {pieces : List (List Move)} : drives x start piece middle →
    Threaded drives middle rest pieces stop →
    Threaded drives start (x :: rest) (piece :: pieces) stop

theorem Threaded.imp {α : Type} {drives other : α → Point → List Move → Point → Prop}
    {start stop : Point} {parts : List α} {pieces : List (List Move)}
    (threaded : Threaded drives start parts pieces stop)
    (implies : ∀ x start piece stop, drives x start piece stop → other x start piece stop) :
    Threaded other start parts pieces stop := by
  induction threaded with
  | nil => exact .nil
  | cons first _ ih => exact .cons (implies _ _ _ _ first) ih

/-- There is one piece for each part. -/
theorem Threaded.length_eq {α : Type} {drives : α → Point → List Move → Point → Prop}
    {start stop : Point} {parts : List α} {pieces : List (List Move)}
    (threaded : Threaded drives start parts pieces stop) : pieces.length = parts.length := by
  induction threaded with
  | nil => rfl
  | cons _ _ ih => rw [List.length_cons, List.length_cons, ih]

namespace Route

/-- A chain of routes gives a leg exactly if they are driven one after the other. -/
theorem chain_eq_ok {α : Type} {parts : List α} {route : α → Route} {start : Point} {leg : Leg} :
    chain (parts.map route) start = .ok leg ↔
      ∃ pieces, Threaded (fun x start piece stop => route x start = .ok ⟨piece, stop⟩) start parts
        pieces leg.stop ∧ leg.moves = pieces.flatten := by
  induction parts generalizing start leg with
  | nil =>
    constructor
    · rintro ⟨⟩
      exact ⟨[], .nil, rfl⟩
    · obtain ⟨moves, stop⟩ := leg
      rintro ⟨_, ⟨⟩, rfl⟩
      rfl
  | cons x rest ih =>
    rw [List.map_cons, chain_cons, andThen_eq_ok]
    constructor
    · rintro ⟨front, back, first, behind, rfl⟩
      obtain ⟨pieces, threaded, moves⟩ := ih.mp behind
      exact ⟨front.moves :: pieces, .cons first threaded, by rw [moves, List.flatten_cons]⟩
    · obtain ⟨moves, stop⟩ := leg
      rintro ⟨_, ⟨⟩ | @⟨_, _, _, _, _, _, pieces, first, threaded⟩, rfl⟩
      exact ⟨_, ⟨pieces.flatten, stop⟩, first, ih.mpr ⟨pieces, threaded, rfl⟩, rfl⟩

/-- A chain of routes breaks off because one of its parts does. -/
theorem chain_eq_error {routes : List Route} {start : Point} {fault : RouteFault}
    (broken : chain routes start = .error fault) :
    ∃ route ∈ routes, ∃ position, route position = .error fault := by
  induction routes generalizing start with
  | nil => cases broken
  | cons route rest ih =>
    rw [chain_cons] at broken
    simp only [andThen, bind, Except.bind] at broken
    cases driven : route start with
    | error other =>
      rw [driven] at broken
      cases broken
      exact ⟨route, .head _, start, driven⟩
    | ok leg =>
      rw [driven] at broken
      dsimp only at broken
      cases behind : chain rest leg.stop with
      | error other =>
        rw [behind] at broken
        cases broken
        obtain ⟨part, member, position, breaks⟩ := ih behind
        exact ⟨part, .tail _ member, position, breaks⟩
      | ok more =>
        rw [behind] at broken
        cases broken

/-- Every move of the route, from wherever it starts, has the property. -/
def Emits (P : Move → Prop) (route : Route) : Prop :=
  ∀ position leg, route position = .ok leg → ∀ move ∈ leg.moves, P move

variable {P : Move → Prop}

theorem emits_still : Emits P still := by
  rintro position _ ⟨⟩
  nofun

theorem emits_chain {routes : List Route} (emits : ∀ route ∈ routes, Emits P route) :
    Emits P (chain routes) := by
  induction routes with
  | nil => exact emits_still
  | cons route rest ih =>
    intro position leg driven move member
    rw [chain_cons] at driven
    obtain ⟨front, back, first, behind, rfl⟩ := andThen_eq_ok.mp driven
    rcases List.mem_append.mp member with own | later
    · exact emits route (.head _) position front first move own
    · exact ih (fun route member => emits route (.tail _ member)) _ back behind move later

theorem emits_numbered {route : Nat → Route} (emits : ∀ i, Emits P (route i)) (count : Nat) :
    Emits P (numbered route count) := by
  rw [numbered_eq_chain]
  apply emits_chain
  intro route' member
  obtain ⟨i, _, rfl⟩ := List.mem_map.mp member
  exact emits i

end Route

variable (reader : PictureReader)

section emitted

variable {P : Move → Prop} {pass : Pass}

/-- A scan line is made of rapids and cuts of the pass. -/
theorem ScanLine.emits_route (line : ScanLine) (overscan : Float) (place : Float → Point)
    (rapid : ∀ stop position, ∀ move ∈ (pass.rapid stop position).moves, P move)
    (cut : ∀ power stop position, ∀ move ∈ (pass.cut power .image stop position).moves, P move) :
    Route.Emits P (line.route pass overscan place) := by
  intro position leg driven
  obtain ⟨parts, equal, shapes⟩ := line.crossing_eq_chain pass overscan place
  unfold route at driven
  dsimp only at driven
  rw [equal] at driven
  split at driven
  · cases driven
    intro move member
    rcases List.mem_append.mp member with crossed | out
    · refine Leg.forall_mem_chain ?_ position move crossed
      intro part parts
      rcases shapes part parts with ⟨stop, rfl⟩ | ⟨power, stop, rfl⟩
      · exact rapid stop
      · exact cut power stop
    · refine Leg.forall_mem_chain ?_ _ move out
      intro part lead
      rw [eq_cut_of_mem_lead pass overscan lead]
      exact cut 0 _
  · contradiction

theorem Raster.emits_route (image : Raster) (parent : Affine)
    (rapid : ∀ stop position, ∀ move ∈ (pass.rapid stop position).moves, P move)
    (cut : ∀ power stop position, ∀ move ∈ (pass.cut power .image stop position).moves, P move) :
    Route.Emits P (image.route reader pass parent) := by
  unfold Raster.route
  split
  · exact nofun
  · exact Route.emits_still
  · dsimp only [GrayField.scan]
    split
    · exact Route.emits_still
    · exact Route.emits_numbered (fun i => ScanLine.emits_route _ _ _ rapid cut) _

/-- A path is made of a rapid and of cuts at the power of the pass. -/
theorem Path.emits_route (path : Path)
    (rapid : ∀ stop position, ∀ move ∈ (pass.rapid stop position).moves, P move)
    (cut : ∀ stop position, ∀ move ∈ (pass.cut pass.power .vector stop position).moves, P move) :
    Route.Emits P (path.route pass) := by
  intro position leg driven
  rw [route_eq] at driven
  split at driven
  · contradiction
  · cases driven
    nofun
  · cases driven
    apply Leg.forall_mem_chain
    intro part member
    rcases List.mem_cons.mp member with rfl | cuts
    · exact rapid _
    · obtain ⟨point, _, rfl⟩ := List.mem_map.mp cuts
      exact cut point

end emitted

/-- What pass `number` over a layer stamps on the moves of a leaf. -/
structure Move.Stamped (machine : Machine) (layer : Layer) (number : Nat) (leaf : Leaf) (move : Move) :
    Prop where
  name : move.layer = layer.name
  airAssist : move.airAssist = layer.settings.airAssist
  pass : move.pass = number
  totalPasses : move.totalPasses = max 1 layer.settings.passes.toNat
  rapid : move.kind = .rapid → move.power = 0 ∧ move.speed = machine.maxSpeed / 60
  cut : move.kind = .cut → move.speed = layer.settings.speed
  /-- Only a path burns at the power of the layer; a picture varies it. -/
  burns : move.kind = .cut → match leaf with
    | .path _ => move.power = layer.settings.power ∧ move.mode = .vector
    | .raster .. => move.mode = .image

namespace Layer

variable (layer : Layer) (machine : Machine) (number : Nat)

theorem stamped_rapid (leaf : Leaf) (stop position : Point) :
    ∀ move ∈ ((layer.pass machine.travelSpeed number).rapid stop position).moves,
      move.Stamped machine layer number leaf := by
  unfold Pass.rapid
  split
  · nofun
  · intro move member
    rw [List.mem_singleton.mp member]
    exact ⟨rfl, rfl, rfl, Nat.max_comm .., fun _ => ⟨rfl, rfl⟩, nofun, nofun⟩

theorem stamped_route (leaf : Leaf) :
    (leaf.route reader (layer.pass machine.travelSpeed number)).Emits
      (·.Stamped machine layer number leaf) := by
  cases leaf with
  | path path =>
    refine path.emits_route (layer.stamped_rapid machine number _) fun stop position move member => ?_
    rw [List.mem_singleton.mp member]
    exact ⟨rfl, rfl, rfl, Nat.max_comm .., nofun, fun _ => rfl, fun _ => ⟨rfl, rfl⟩⟩
  | raster image parent =>
    refine image.emits_route reader parent (layer.stamped_rapid machine number _)
      fun power stop position move member => ?_
    rw [List.mem_singleton.mp member]
    exact ⟨rfl, rfl, rfl, Nat.max_comm .., nofun, fun _ => rfl, fun _ => rfl⟩

end Layer

/-- A pass over a layer drives a twig from `start` to `stop` by the moves `piece`. -/
structure DrivesTwig (machine : Machine) (layer : Layer) (number : Nat) (twig : Twig) (start : Point)
    (piece : List Move) (stop : Point) : Prop where
  drives : twig.leaf.route reader (layer.pass machine.travelSpeed number) start = .ok ⟨piece, stop⟩
  stamped : ∀ move ∈ piece, move.Stamped machine layer number twig.leaf

/-- A pass over a layer leads from `start` to `stop`: its block is what the twigs of the layer add,
one after the other. -/
def DrivesPass (machine : Machine) (pass : Layer × Nat) (start : Point) (block : List Move)
    (stop : Point) : Prop :=
  ∃ pieces, Threaded (DrivesTwig reader machine pass.1 pass.2) start (twigsOf [] pass.1.items)
      pieces stop ∧
    block = pieces.flatten

/-- The passes over the layers that emit, in order and numbered from one. -/
def Scene.passes (scene : Scene) : List (Layer × Nat) :=
  (scene.layers.filter (·.settings.emits)).flatMap fun layer =>
    (List.range' 1 (max 1 layer.settings.passes.toNat)).map (layer, ·)

theorem Layer.passRoute_eq (layer : Layer) (travelSpeed : Float) (number : Nat) :
    layer.passRoute reader travelSpeed number = Route.chain ((twigsOf [] layer.items).map
      fun twig => twig.leaf.route reader (layer.pass travelSpeed number)) := by
  have leaves := leavesOf_along [] layer.items
  rw [passRoute, ← Item.chain_leavesOf]
  simp only [Affine.along, List.foldl_nil] at leaves
  rw [leaves, List.map_map]
  rfl

theorem Layer.route_eq (layer : Layer) (travelSpeed : Float) :
    layer.route reader travelSpeed = if layer.settings.emits then
      Route.chain ((List.range' 1 (max 1 layer.settings.passes.toNat)).map
        (layer.passRoute reader travelSpeed)) else .still := by
  have once : layer.passCount = max 1 layer.settings.passes.toNat := Nat.max_comm ..
  rw [route, Route.numbered_eq_chain, List.range'_eq_map_range, List.map_map, ← once]
  simp only [Function.comp_def, Nat.add_comm 1]
  rfl

namespace Scene

/-- A scene is driven pass by pass. -/
theorem leg_eq (scene : Scene) (travelSpeed : Float) :
    scene.leg reader travelSpeed =
      Route.chain (scene.passes.map fun pass => pass.1.passRoute reader travelSpeed pass.2)
        .origin := by
  simp only [leg, passes, Layer.route_eq, Route.chain_filter, List.map_flatMap, Route.chain_flatMap,
    List.map_map]
  rfl

/-- A job comes block by block: one for each layer that emits and each of its passes, in order, and in
each block what the leaves of the layer add, depth first and from left to right. Every move bears the
stamps of its layer, its pass and its leaf. Behind the blocks there is at most the way home, which
belongs to no layer. -/
theorem compiled_in_order (scene : Scene) (machine : Machine) (job : Job)
    (compiled : scene.job reader machine = .ok job) :
    ∃ blocks home stop, job.moves = blocks.flatten ++ home ∧
      Threaded (DrivesPass reader machine) .origin scene.passes blocks stop ∧
      home = (if stop.same .origin then [] else [.home stop machine.travelSpeed]) ∧
      ∀ move ∈ home, move.kind = .rapid ∧ move.layer = "" ∧ move.pass = 0 ∧ move.power = 0 ∧
        move.speed = machine.maxSpeed / 60 := by
  obtain ⟨leg, driven, rfl⟩ := scene.job_eq reader machine job compiled
  rw [leg_eq] at driven
  obtain ⟨blocks, threaded, moves⟩ := Route.chain_eq_ok.mp driven
  refine ⟨blocks, _, leg.stop, by rw [Job.ofMoves, moves], ?_, rfl, ?_⟩
  · refine threaded.imp fun pass start block stop driven => ?_
    rw [Layer.passRoute_eq] at driven
    obtain ⟨pieces, threaded, flat⟩ := Route.chain_eq_ok.mp driven
    refine ⟨pieces, threaded.imp fun twig start piece stop driven => ⟨driven, ?_⟩, flat⟩
    exact pass.1.stamped_route reader machine pass.2 twig.leaf start _ driven
  · intro move member
    split at member
    · contradiction
    · rw [List.mem_singleton.mp member]
      exact ⟨rfl, rfl, rfl, rfl, rfl⟩

/-- A layer of two passes over a group of a path and a picture, behind a layer that is hidden, gives
two blocks and perhaps the way home. -/
theorem compiled_in_order_group :
    let picture : Raster := ⟨"dot", .pixels 1 1 [0, 0, 0, 255], 1, 1, .identity,
      { RasterSettings.standard with dpi := 25.4 }⟩
    let group : Item := .group [.path (.polyline [⟨1, 0⟩, ⟨2, 0⟩] false), .raster picture] .identity
    let hidden : Layer := ⟨"notes", "", { LayerSettings.standard with visible := false }, [group]⟩
    let cut : Layer := ⟨"cut", "", { LayerSettings.standard with passes := 2 }, [group]⟩
    let scene : Scene := ⟨[hidden, cut], .standard⟩
    ∃ job first second home stop, scene.job Image.decodePng .standard = .ok job ∧
      job.moves.length = 15 ∧
      job.moves = first ++ second ++ home ∧ home.length ≤ 1 ∧
      Threaded (DrivesPass Image.decodePng .standard) .origin [(cut, 1), (cut, 2)] [first, second]
        stop := by
  intro picture group hidden cut scene
  have size : (scene.job Image.decodePng .standard).toOption.map
      (fun job => job.moves.length) = some 15 := by
    decide +kernel
  cases driven : scene.job Image.decodePng .standard with
  | error fault => simp [driven, Except.toOption] at size
  | ok job =>
    have size : job.moves.length = 15 := by simpa [driven, Except.toOption] using size
    obtain ⟨blocks, home, stop, moves, threaded, ends, _⟩ :=
      compiled_in_order Image.decodePng scene .standard job driven
    have passes : scene.passes = [(cut, 1), (cut, 2)] := rfl
    rw [passes] at threaded
    obtain ⟨first, second, rfl⟩ := List.length_eq_two.mp threaded.length_eq
    refine ⟨job, first, second, home, stop, rfl, size, by simpa using moves, ?_, threaded⟩
    rw [ends]
    split <;> simp

end Scene

end LaserCutter
