import LaserCutter.Proofs.Toolpath.Success
import LaserCutter.Proofs.Toolpath.Traversal

/-!
# Pieces that emit nothing

A piece of a scene that emits nothing is a route that stays where it is, so it may stand anywhere in
a tree of items without any effect on what is driven before or after it (`ItemsGrow.chain_eq`). The
jobs of two scenes that differ in one such piece are the same, move by move and time by time. A
picture on which the picture reader crashes is no such piece: it is not decoded, and it stops every
job that comes to it.
-/

namespace LaserCutter

/-- The path has no sample points where it stands. -/
def Path.Unsampled (path : Path) (parent : Affine) : Prop :=
  (path.placed parent).samples sampleSpacing = .ok []

variable (reader : PictureReader)

/-- The raster has nothing to scan: it cannot be decoded, its picture is empty, or it has no positive
resolution. -/
inductive Raster.Blank (image : Raster) : Prop
  | undecodable {fault : PayloadError} :
    image.payload.picture reader = .error fault → fault ≠ .unread .crashed → Blank image
  | empty {picture : Picture} : image.payload.picture reader = .ok picture →
    picture.width = 0 ∨ picture.height = 0 → Blank image
  | unresolved {picture : Picture} : image.payload.picture reader = .ok picture →
    ¬ 0 < image.settings.dpi → Blank image

/-- The item emits nothing under the placement `parent`. -/
inductive Item.Mute (parent : Affine) : Item → Prop
  | group (placement : Affine) : Mute parent (.group [] placement)
  | compound (placement : Affine) : Mute parent (.compound [] placement)
  | path {path : Path} : path.Unsampled parent → Mute parent (.path path)
  | raster {image : Raster} : image.Blank reader → Mute parent (.raster image)

/-- With one piece more, somewhere in the trees of items under the placement `parent`, that emits
nothing there. -/
inductive ItemsGrow : Affine → List Item → List Item → Prop
  | item {parent : Affine} {item : Item} (front back : List Item) : item.Mute reader parent →
    ItemsGrow parent (front ++ back) (front ++ item :: back)
  | inGroup {parent placement : Affine} {children larger : List Item} (front back : List Item) :
    ItemsGrow (parent.compose placement) children larger →
    ItemsGrow parent (front ++ .group children placement :: back)
      (front ++ .group larger placement :: back)
  | inCompound {parent placement : Affine} {path : Path} (front back : List Item)
    (before after : List Path) : path.Unsampled (parent.compose placement) →
    ItemsGrow parent (front ++ .compound (before ++ after) placement :: back)
      (front ++ .compound (before ++ path :: after) placement :: back)

/-- With one piece more, somewhere in the scene, that emits nothing there. -/
inductive Scene.Grows : Scene → Scene → Prop
  | layer {layer : Layer} {workspace : Workspace} (front back : List Layer) :
    layer.settings.visible = false ∨ layer.settings.output = false →
    Grows ⟨front ++ back, workspace⟩ ⟨front ++ layer :: back, workspace⟩
  | inLayer {layer : Layer} {larger : List Item} {workspace : Workspace}
    (front back : List Layer) : ItemsGrow reader .identity layer.items larger →
    Grows ⟨front ++ layer :: back, workspace⟩
      ⟨front ++ { layer with items := larger } :: back, workspace⟩

variable {reader}

theorem Path.route_unsampled {path : Path} {parent : Affine} (unsampled : path.Unsampled parent)
    (pass : Pass) : (path.placed parent).route pass = .still := by
  funext position
  rw [route_eq, unsampled]
  rfl

theorem GrayField.scan_blank {burn : GrayField} {settings : RasterSettings}
    (blank : burn.width = 0 ∨ burn.height = 0 ∨ ¬ 0 < settings.dpi) (box : Box) (pass : Pass) :
    burn.scan box settings pass = .still := by
  rw [scan, if_pos blank]

theorem Raster.route_blank {image : Raster} (blank : image.Blank reader) (pass : Pass)
    (parent : Affine) : image.route reader pass parent = .still := by
  unfold route
  cases blank with
  | undecodable fails other =>
    rw [fails]
    split
    · exact absurd (Except.error.inj ‹_›) other
    · rfl
    · contradiction
  | empty decodes nothing =>
    rw [decodes]
    apply GrayField.scan_blank
    rw [GrayField.width_dither, GrayField.height_dither]
    exact nothing.imp_right .inl
  | unresolved decodes dpi =>
    rw [decodes]
    exact GrayField.scan_blank (.inr (.inr dpi)) _ pass

/-- A picture on which the reader crashes stops the job wherever it stands. -/
theorem Raster.route_crashed {image : Raster}
    (crashed : image.payload.picture reader = .error (.unread .crashed)) (pass : Pass)
    (parent : Affine) : image.route reader pass parent = fun _ => .error .crashed := by
  rw [route, crashed]

theorem Item.route_mute {item : Item} {parent : Affine} (mute : item.Mute reader parent)
    (pass : Pass) : item.route reader pass parent = .still := by
  cases mute with
  | group placement => rw [route_group, List.map_nil, Route.chain_nil]
  | compound placement => rw [route_compound, List.map_nil, Route.chain_nil]
  | path unsampled => rw [route_path, Path.route_unsampled unsampled]
  | raster blank => rw [route_raster, Raster.route_blank blank]

/-- What is driven does not change. -/
theorem ItemsGrow.chain_eq {parent : Affine} {items larger : List Item}
    (grow : ItemsGrow reader parent items larger) (pass : Pass) :
    Route.chain (larger.map (·.route reader pass parent)) =
      Route.chain (items.map (·.route reader pass parent)) := by
  induction grow with
  | item front back mute =>
    rw [List.map_append, List.map_append, List.map_cons,
      Route.chain_skip (Item.route_mute mute pass)]
  | inGroup front back _ ih =>
    simp only [List.map_append, List.map_cons, Item.route_group, ih]
  | inCompound front back before after unsampled =>
    simp only [List.map_append, List.map_cons, Item.route_compound,
      Route.chain_skip (Path.route_unsampled unsampled pass)]

theorem Layer.route_grown {layer : Layer} {larger : List Item}
    (grow : ItemsGrow reader .identity layer.items larger) (travelSpeed : Float) :
    ({ layer with items := larger } : Layer).route reader travelSpeed =
      layer.route reader travelSpeed := by
  have passes (number : Nat) :
      ({ layer with items := larger } : Layer).pass travelSpeed number =
        layer.pass travelSpeed number := rfl
  simp only [route, passes, grow.chain_eq]
  rfl

theorem Layer.route_idle {layer : Layer}
    (idle : layer.settings.visible = false ∨ layer.settings.output = false) (travelSpeed : Float) :
    layer.route reader travelSpeed = .still := by
  have silent : layer.settings.emits = false := by
    rcases idle with hidden | off <;> simp [LayerSettings.emits, *]
  simp [route, silent]

namespace Scene

theorem Grows.leg_eq {scene larger : Scene} (grows : scene.Grows reader larger)
    (travelSpeed : Float) : larger.leg reader travelSpeed = scene.leg reader travelSpeed := by
  unfold leg
  cases grows with
  | layer front back idle =>
    rw [List.map_append, List.map_append, List.map_cons,
      Route.chain_skip (Layer.route_idle idle travelSpeed)]
  | inLayer front back grow =>
    simp only [List.map_append, List.map_cons, Layer.route_grown grow]

theorem job_of_leg_eq {scene other : Scene} {machine : Machine}
    (same : other.leg reader machine.travelSpeed = scene.leg reader machine.travelSpeed) :
    other.job reader machine = scene.job reader machine := by
  rw [job, job, same]

/-- Whatever reads the pictures, any number of pieces that emit nothing may be put into a scene or
taken out of it: its job stays the same, with all its moves and times. A picture that cannot be
decoded leaves the head where it is, unless the reader crashes on it: then, wherever it stands in a
layer that emits, it leaves the scene without a job. -/
theorem neutral_unless_crashed (reader : PictureReader) (scene : Scene) (machine : Machine) :
    (∀ other : Scene, Relation.EqvGen (Grows reader) scene other →
      other.job reader machine = scene.job reader machine) ∧
    (∀ (image : Raster) (fault : PayloadError), image.payload.picture reader = .error fault →
      ∀ (pass : Pass) (parent : Affine) (position : Point),
        image.route reader pass parent position = .ok (.stay position) ↔
          fault ≠ .unread .crashed) ∧
    ∀ layer ∈ scene.layers, layer.settings.emits →
      ∀ item ∈ layer.items, ∀ (image : Raster) (parent : Affine),
        .raster image parent ∈ item.leaves .identity →
        image.payload.picture reader = .error (.unread .crashed) →
        ¬ (scene.job reader machine).isOk := by
  refine ⟨fun other differ => ?_, fun image fault fails pass parent position => ⟨?_, fun other => ?_⟩,
    fun layer member emits item among image parent leaf crashed compiles => ?_⟩
  · apply job_of_leg_eq
    induction differ with
    | rel scene other grows => exact grows.leg_eq _
    | refl scene => rfl
    | symm scene other _ ih => exact ih.symm
    | trans scene middle other _ _ ih ih' => exact ih'.trans ih
  · rintro stays rfl
    rw [Raster.route_crashed fails] at stays
    contradiction
  · rw [Raster.route_blank (.undecodable fails other)]
    rfl
  · have drivable :=
      (scene.isOk_job reader machine).mp compiles layer member emits item among _ leaf
    simp only [Leaf.Drivable, Raster.Drivable, crashed] at drivable
    exact drivable rfl

/-- The text of a picture of three pixels whose palette has four bytes. -/
def raggedText : String :=
  "iVBORw0KGgoAAAANSUhEUgAAAAMAAAABCAMAAAAsPuSGAAAABFBMVEUBAgMEI9uKqwAAAAxJREFUeNpjYGBkAgAACAAE" ++
    "CB1jCgAAAABJRU5ErkJggg=="

theorem picture_raggedText :
    (Payload.encoded raggedText).picture Image.decodePng = .error (.unread .crashed) := by
  have fault : ((Payload.encoded raggedText).picture Image.decodePng).map (fun _ => ()) =
      .error (.unread .crashed) := by
    decide +kernel
  -- Nothing below may look into the picture again: each look decodes it.
  generalize (Payload.encoded raggedText).picture Image.decodePng = picture at fault
  cases picture with
  | error other => exact congrArg Except.error (Except.error.inj fault)
  | ok picture => contradiction

/-- Two pictures that cannot be decoded stand in a group: the first one may be left out with an empty
group next to it, the second one stops the job. -/
theorem neutral_unless_crashed_group :
    let path : Item := .path (.polyline [⟨1, 0⟩, ⟨2, 0⟩] false)
    let broken : Raster := ⟨"broken", .pixels 1 1 [0], 1, 1, .identity, .standard⟩
    let ragged : Raster := ⟨"ragged", .encoded raggedText, 2, 1, .identity, .standard⟩
    let scene (items : List Item) : Scene :=
      ⟨[⟨"cut", "", .standard, [.group items .identity]⟩], .standard⟩
    (scene [.raster broken, path, .group [] .identity]).job Image.decodePng .standard =
        (scene [path]).job Image.decodePng .standard ∧
      (∀ pass parent position,
        broken.route Image.decodePng pass parent position = .ok (.stay position)) ∧
      ¬ ((scene [.raster ragged, path]).job Image.decodePng .standard).isOk := by
  intro path broken ragged scene
  obtain ⟨same, stays, -⟩ := neutral_unless_crashed Image.decodePng (scene [path]) .standard
  obtain ⟨-, -, stops⟩ :=
    neutral_unless_crashed Image.decodePng (scene [.raster ragged, path]) .standard
  have fails : broken.payload.picture Image.decodePng = .error (.tooFewBytes 1 1 1) := rfl
  have inGroup {items larger : List Item}
      (grow : ItemsGrow Image.decodePng (Affine.identity.compose .identity) items larger) :
      Relation.EqvGen (Grows Image.decodePng) (scene items) (scene larger) :=
    .rel _ _ (.inLayer [] [] (.inGroup [] [] grow))
  refine ⟨same _ (.trans _ (scene [.raster broken, path]) _ ?_ ?_), ?_, ?_⟩
  · exact inGroup (.item [] [path] (.raster (.undecodable fails nofun)))
  · exact inGroup (.item [.raster broken, path] [] (.group .identity))
  · exact fun pass parent position => (stays broken _ fails pass parent position).mpr nofun
  · exact stops _ (.head _) rfl _ (.head _) ragged _ (.head _) picture_raggedText

/-- A picture whose palette ends inside a colour cannot be decoded, and yet it is not left out: on its
own it leaves a scene without a job, while the layer without it has an empty one. -/
theorem ragged_palette_stops :
    let ragged : Raster := ⟨"ragged", .encoded raggedText, 2, 1, .identity, .standard⟩
    let scene (items : List Item) : Scene := ⟨[⟨"cut", "", .standard, items⟩], .standard⟩
    (scene [.raster ragged]).job Image.decodePng .standard = .error .crashed ∧
      ((scene []).job Image.decodePng .standard).map Job.moves = .ok [] := by
  intro ragged scene
  have stops := @Raster.route_crashed Image.decodePng ragged picture_raggedText
  constructor
  · simp only [job, leg, scene, Layer.route, List.map_cons, List.map_nil, Item.route_raster, stops]
    rfl
  · rfl

end Scene

end LaserCutter
