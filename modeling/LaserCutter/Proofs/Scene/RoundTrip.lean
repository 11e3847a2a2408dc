import LaserCutter.Proofs.Json.Records
import LaserCutter.Proofs.Scene.Sameness
import LaserCutter.Proofs.Toolpath.Success
import LaserCutter.Scene.Reading
import LaserCutter.Scene.Writing

/-!
# Scenes survive being written

Every record of a scene writes its fields in the order in which they are read. So it is read like
the array of its fields, one field after the other, and the records of a scene are taken from the
inside out. Only a placement that is left out comes back as the identity itself. A scene has a
written form unless one of its pictures is already decoded.
-/

namespace LaserCutter

open Json Number

section plane

theorem readPoint_toValue {p : Point} (finite : p.isFinite) :
    readPoint p.toValue.draft = .ok p := by
  simp only [Point.isFinite, Bool.and_eq_true] at finite
  rw [readPoint, Point.toValue, Schema.read_object _ _ (by decide) ⟨[], rfl⟩]
  simp only [List.map_cons, List.map_nil, pointSchema]
  rw [storeItems_need (readFloat_ofFloat finite.1), storeItems_need (readFloat_ofFloat finite.2)]
  rfl

theorem readAffine_toValue {m : Affine} (finite : m.isFinite) :
    readAffine m.toValue.draft = .ok m := by
  simp only [Affine.isFinite, Bool.and_eq_true] at finite
  have each : ∀ x ∈ [m.a, m.b, m.c, m.d, m.e, m.f], isFinite x := by simp [finite]
  have coefficients : m.toValue.draft.readList Draft.readFloat =
      .ok ([m.a, m.b, m.c, m.d, m.e, m.f].map id) :=
    readList_map fun x member => readFloat_ofFloat (each x member)
  rw [readAffine, coefficients]
  rfl

/-- A placement that is the identity is left out, and the blank record has it. -/
theorem storeItems_placement {ρ : Type} {surplus : Fault} {set : Affine → ρ → ρ} {record : ρ}
    {m : Affine} (finite : m.isFinite) (blank : set .identity record = record) :
    storeItems surplus [.may "xform" readAffine set] record
      ((placementEntry m).map fun entry => entry.2.draft) none = .ok (set m.settled record) := by
  unfold placementEntry Affine.settled
  split
  · rw [blank]
    rfl
  · simp only [List.map_cons, List.map_nil]
    rw [storeItems_may (readAffine_toValue finite)]
    rfl

theorem readSegment_toValue {s : Segment} (finite : s.isFinite) :
    readSegment s.toValue.draft = .ok s := by
  cases s with
  | line stop =>
    rw [readSegment, Segment.toValue, readTagged_object (i := 0) rfl (by simp)]
    change Except.map _ (lineSchema.read _ _) = _
    rw [Schema.read_object _ _ (by decide) ⟨[], rfl⟩]
    simp only [List.map_cons, List.map_nil, lineSchema]
    rw [storeItems_need (readPoint_toValue finite)]
    rfl
  | bezier c0 c1 stop =>
    simp only [Segment.isFinite, Bool.and_eq_true] at finite
    obtain ⟨⟨first, second⟩, last⟩ := finite
    rw [readSegment, Segment.toValue, readTagged_object (i := 1) rfl (by simp)]
    change Except.map _ (bezierSchema.read _ _) = _
    rw [Schema.read_object _ _ (by decide) ⟨[], rfl⟩]
    simp only [List.map_cons, List.map_nil, bezierSchema]
    rw [storeItems_need (readPoint_toValue first), storeItems_need (readPoint_toValue second),
      storeItems_need (readPoint_toValue last)]
    rfl

theorem names_placementEntry (m : Affine) :
    (placementEntry m).map Prod.fst <+: ["xform"] := by
  unfold placementEntry
  split
  · exact List.nil_prefix
  · exact List.prefix_rfl

theorem Path.names_entries (path : Path) :
    path.entries.map Prod.fst <+: pathSchema.fields.map Field.name := by
  rw [Path.entries, List.map_append]
  exact (List.prefix_append_right_inj ["start", "segments", "closed"]).mpr (names_placementEntry _)

theorem readPath_toValue {path : Path} (finite : path.isFinite) :
    readPath path.toValue.draft = .ok path.settled := by
  simp only [Path.isFinite, Bool.and_eq_true, List.all_eq_true] at finite
  obtain ⟨⟨start, segments⟩, placement⟩ := finite
  have pieces : Draft.readList readSegment
      (Value.array (path.segments.map Segment.toValue)).draft = .ok (path.segments.map id) :=
    readList_map fun segment member => readSegment_toValue (segments segment member)
  rw [List.map_id] at pieces
  rw [readPath, Path.toValue, Schema.read_object _ _ (by decide) path.names_entries]
  simp only [Path.entries, List.cons_append, List.nil_append, List.map_cons, pathSchema]
  rw [storeItems_need (readPoint_toValue start), storeItems_may pieces,
    storeItems_may (readBool_bool _), storeItems_placement placement rfl]
  rfl

end plane

section rasters

theorem readName_ditheringNames (d : Dithering) :
    (Value.string d.name).draft.readName ditheringNames .mismatch = .ok d := by
  cases d <;> rfl

theorem readName_directionNames (d : ScanDirection) :
    (Value.string d.name).draft.readName directionNames .mismatch = .ok d := by
  cases d <;> rfl

theorem readRasterSettings_toValue {s : RasterSettings} (finite : s.isFinite) :
    readRasterSettings s.toValue.draft = .ok s := by
  simp only [RasterSettings.isFinite, Bool.and_eq_true] at finite
  obtain ⟨⟨⟨dpi, brightness⟩, contrast⟩, overscan⟩ := finite
  have threshold : (Value.ofNat s.threshold.toNat).draft.readBelow 256 = .ok s.threshold.toNat :=
    readBelow_ofNat s.threshold.toNat_lt
  have byte : s.threshold.toNat.toUInt8 = s.threshold := UInt8.ofNat_toNat
  rw [readRasterSettings, RasterSettings.toValue, Schema.read_object _ _ (by decide) ⟨[], rfl⟩]
  simp only [List.map_cons, List.map_nil, rasterSettingsSchema]
  rw [storeItems_may (readFloat_ofFloat dpi), storeItems_may (readName_ditheringNames _),
    storeItems_may threshold, storeItems_may (readFloat_ofFloat brightness),
    storeItems_may (readFloat_ofFloat contrast), storeItems_may (readBool_bool _),
    storeItems_may (readName_directionNames _), storeItems_may (readBool_bool _),
    storeItems_may (readFloat_ofFloat overscan)]
  exact congrArg (fun threshold => Except.ok { s with threshold }) byte

/-- What is written of a raster starts with its name and the text of its picture. -/
theorem Raster.entries_eq_ok {r : Raster} {entries : List (String × Value)}
    (written : r.entries = .ok entries) : ∃ text, r.payload = .encoded text ∧
      entries = [("name", .string r.name), ("data", .string text), ("w", .ofFloat r.width),
        ("h", .ofFloat r.height), ("xform", r.placement.toValue),
        ("settings", r.settings.toValue)] := by
  rcases r with ⟨name, ⟨text⟩ | _, w, h, m, s⟩
  · exact ⟨text, rfl, (Except.ok.inj written).symm⟩
  · cases written

theorem readRaster_entries {r : Raster} (writable : r.writable) {entries : List (String × Value)}
    (written : r.entries = .ok entries) : readRaster (Value.object entries).draft = .ok r := by
  simp only [Raster.writable, Bool.and_eq_true] at writable
  obtain ⟨⟨⟨⟨-, width⟩, height⟩, placement⟩, settings⟩ := writable
  obtain ⟨text, encoded, rfl⟩ := r.entries_eq_ok written
  rw [readRaster, Schema.read_object _ _ (by decide) ⟨[], rfl⟩]
  simp only [List.map_cons, List.map_nil, rasterSchema]
  rw [storeItems_may (readString_string _), storeItems_need (readString_string _),
    storeItems_need (readFloat_ofFloat width), storeItems_need (readFloat_ofFloat height),
    storeItems_may (readAffine_toValue placement),
    storeItems_may (readRasterSettings_toValue settings), ← encoded]
  rfl

end rasters

section items

theorem readPlaced_entries {α : Type} {name : String} (other : name ≠ "xform")
    {read : Draft → Except Fault α} {values : List Value} {parts : List α} {m : Affine}
    (reads : (Value.array values).draft.readList read = .ok parts) (finite : m.isFinite) :
    readPlaced name read (Value.object ((name, .array values) :: placementEntry m)).draft =
      .ok ⟨parts, m.settled⟩ := by
  have distinct : ((placedSchema name read).fields.map Field.name).Nodup := by
    simp [placedSchema, Field.need, Field.may, other]
  have named : ((name, Value.array values) :: placementEntry m).map Prod.fst <+:
      (placedSchema name read).fields.map Field.name :=
    (List.prefix_append_right_inj [name]).mpr (names_placementEntry m)
  rw [readPlaced, Schema.read_object _ _ distinct named]
  simp only [List.map_cons, placedSchema]
  rw [storeItems_need reads, storeItems_placement finite rfl]

/-- The name that an item is tagged with. -/
def Item.tag : Item → String
  | .path _ => "path"
  | .compound .. => "compound"
  | .group .. => "group"
  | .raster _ => "raster"

/-- What is written of an item besides its tag. -/
def Item.fields : Item → Except WriteFault (List (String × Value))
  | .path curve => .ok curve.entries
  | .compound paths placement =>
    .ok (("paths", .array (paths.map Path.toValue)) :: placementEntry placement)
  | .group children placement => do
    return ("children", .array (← itemValues children)) :: placementEntry placement
  | .raster image => image.entries

theorem Item.toValue_eq (item : Item) :
    item.toValue = item.fields.map fun fields => .object (("type", .string item.tag) :: fields) := by
  cases item with
  | path path => rfl
  | compound paths m => rfl
  | group children m =>
    simp only [toValue, fields]
    cases itemValues children <;> rfl
  | raster image =>
    simp only [toValue, fields]
    cases image.entries <;> rfl

/-- What is written of an item is its tag and its fields. -/
theorem Item.toValue_eq_ok {item : Item} {value : Value} : item.toValue = .ok value ↔
    ∃ fields, item.fields = .ok fields ∧ value = .object (("type", .string item.tag) :: fields) := by
  rw [item.toValue_eq]
  cases item.fields <;> simp [Except.map, eq_comm]

theorem itemValues_cons {item : Item} {rest : List Item} {values : List Value} :
    itemValues (item :: rest) = .ok values ↔
      ∃ first others, item.toValue = .ok first ∧ itemValues rest = .ok others ∧
        values = first :: others := by
  rw [itemValues]
  cases item.toValue with
  | error fault => simp [bind, Except.bind]
  | ok first => cases itemValues rest <;> simp [bind, Except.bind, pure, Except.pure, eq_comm]

/-- The children of a group are written in it. -/
theorem Item.fields_group {children : List Item} {m : Affine} {fields : List (String × Value)}
    (written : (Item.group children m).fields = .ok fields) :
    ∃ values, itemValues children = .ok values ∧
      fields = ("children", .array values) :: placementEntry m := by
  rw [Item.fields] at written
  cases inside : itemValues children with
  | error fault => simp [inside, bind, Except.bind] at written
  | ok values =>
    rw [inside] at written
    exact ⟨values, rfl, (Except.ok.inj written).symm⟩

theorem Item.fields_untagged {item : Item} {fields : List (String × Value)}
    (written : item.fields = .ok fields) : ∀ entry ∈ fields, entry.1 ≠ "type" := by
  have placed {name : String} (other : name ≠ "type") (v : Value) (m : Affine) :
      ∀ entry ∈ (name, v) :: placementEntry m, entry.1 ≠ "type" := by
    have named : ((name, v) :: placementEntry m).map Prod.fst <+: [name, "xform"] :=
      (List.prefix_append_right_inj [name]).mpr (names_placementEntry m)
    exact fresh_of_prefix named (by simp [other.symm])
  cases item with
  | path path =>
    cases written
    exact fresh_of_prefix path.names_entries (by decide)
  | compound paths m =>
    cases written
    exact placed (by decide) _ m
  | group children m =>
    obtain ⟨values, -, rfl⟩ := fields_group written
    exact placed (by decide) _ m
  | raster image =>
    obtain ⟨text, -, rfl⟩ := image.entries_eq_ok written
    have named : rasterSchema.fields.map Field.name <+: rasterSchema.fields.map Field.name :=
      ⟨[], rfl⟩
    exact fresh_of_prefix named (by decide)

mutual

/-- Without a decoded picture an item has a written form. -/
theorem Item.exists_toValue : ∀ item : Item, item.writable → ∃ value, item.toValue = .ok value
  | .path _, _ => ⟨_, rfl⟩
  | .compound _ _, _ => ⟨_, rfl⟩
  | .group children m, writable => by
    simp only [Item.writable, Bool.and_eq_true] at writable
    obtain ⟨values, written⟩ := exists_itemValues children writable.1
    exact ⟨_, by rw [Item.toValue, written]; rfl⟩
  | .raster image, writable => by
    rcases image with ⟨_, ⟨_⟩ | _, _, _, _, _⟩
    · exact ⟨_, rfl⟩
    · cases writable

theorem exists_itemValues : ∀ items : List Item, writableItems items →
    ∃ values, itemValues items = .ok values
  | [], _ => ⟨[], rfl⟩
  | item :: rest, writable => by
    simp only [writableItems, Bool.and_eq_true] at writable
    obtain ⟨first, writtenFirst⟩ := item.exists_toValue writable.1
    obtain ⟨others, writtenRest⟩ := exists_itemValues rest writable.2
    exact ⟨_, itemValues_cons.mpr ⟨first, others, writtenFirst, writtenRest, rfl⟩⟩

end

mutual

/-- An item is read back where there is room for its brackets. -/
theorem readItem_toValue {room : Nat} : ∀ (item : Item) {value : Value}, item.writable →
    item.toValue = .ok value → value.depth ≤ room → readItem room value.draft = .ok item.settled
  | item, value, writable, written, deep => by
    -- the tag is taken off first, in the same way for all kinds of items
    obtain ⟨fields, within, rfl⟩ := Item.toValue_eq_ok.mp written
    have untagged := Item.fields_untagged within
    obtain ⟨room, rfl⟩ : ∃ left, room = left + 1 := by
      simp only [Value.depth] at deep
      exact ⟨room - 1, by omega⟩
    match item with
    | .path path =>
      cases within
      rw [readItem, readTagged_object (i := 0) rfl untagged]
      change (readPath path.toValue.draft).map _ = _
      rw [readPath_toValue writable]
      rfl
    | .compound paths m =>
      cases within
      simp only [Item.writable, Bool.and_eq_true, List.all_eq_true] at writable
      have parts : (Value.array (paths.map Path.toValue)).draft.readList readPath =
          .ok (paths.map Path.settled) :=
        readList_map fun path member => readPath_toValue (writable.1 path member)
      rw [readItem, readTagged_object (i := 1) rfl untagged]
      change (readPlaced _ _ (Value.object (_ :: placementEntry m)).draft).map _ = _
      rw [readPlaced_entries (by decide) parts writable.2]
      rfl
    | .group children m =>
      obtain ⟨values, inside, rfl⟩ := Item.fields_group within
      simp only [Item.writable, Bool.and_eq_true] at writable
      simp only [Value.depth, depthEntries, depthEntry] at deep
      have parts : (Value.array values).draft.readList (readItem room) =
          .ok (settledItems children) :=
        readItems_itemValues children writable.1 inside (by omega)
      rw [readItem, readTagged_object (i := 2) rfl untagged]
      change (readPlaced _ _ (Value.object (_ :: placementEntry m)).draft).map _ = _
      rw [readPlaced_entries (by decide) parts writable.2]
      rfl
    | .raster image =>
      rw [readItem, readTagged_object (i := 3) rfl untagged]
      change (readRaster (Value.object fields).draft).map _ = _
      rw [readRaster_entries writable within]
      rfl

theorem readItems_itemValues {room : Nat} : ∀ (items : List Item) {values : List Value},
    writableItems items → itemValues items = .ok values → depthItems values ≤ room →
    (Value.array values).draft.readList (readItem room) = .ok (settledItems items)
  | [], _, _, rfl, _ => rfl
  | item :: rest, _, writable, written, deep => by
    simp only [writableItems, Bool.and_eq_true] at writable
    obtain ⟨first, others, front, behind, rfl⟩ := itemValues_cons.mp written
    simp only [depthItems] at deep
    rw [settledItems]
    exact readList_cons (readItem_toValue item writable.1 front (by omega))
      (readItems_itemValues rest writable.2 behind (by omega))

end

theorem Item.checkTagged_toValue {room : Nat} {item : Item} {value : Value}
    (written : item.toValue = .ok value) (deep : value.depth ≤ room) :
    value.draft.checkTagged room "type" itemTags = .ok () := by
  have known : item.tag ∈ itemTags := by cases item <;> simp [tag, itemTags]
  obtain ⟨fields, within, rfl⟩ := toValue_eq_ok.mp written
  exact checkTagged_object known (fields_untagged within) deep

theorem readLayerItem_toValue {room : Nat} {item : Item} {value : Value} (writable : item.writable)
    (written : item.toValue = .ok value) (deep : value.depth ≤ room) :
    readLayerItem room value.draft = .ok item.settled := by
  rw [readLayerItem, item.checkTagged_toValue written deep]
  exact readItem_toValue item writable written deep

theorem readLayerItems_itemValues {room : Nat} {items : List Item} {values : List Value}
    (writable : writableItems items) (written : itemValues items = .ok values)
    (deep : depthItems values ≤ room) :
    (Value.array values).draft.readList (readLayerItem room) = .ok (settledItems items) := by
  induction items generalizing values with
  | nil =>
    cases written
    rfl
  | cons item rest ih =>
    simp only [writableItems, Bool.and_eq_true] at writable
    obtain ⟨first, others, front, behind, rfl⟩ := itemValues_cons.mp written
    simp only [depthItems] at deep
    rw [settledItems]
    exact readList_cons (readLayerItem_toValue writable.1 front (by omega))
      (ih writable.2 behind (by omega))

end items

section scenes

theorem readName_layerModeNames (mode : LayerMode) :
    (Value.string mode.name).draft.readName layerModeNames .malformed = .ok mode := by
  cases mode <;> rfl

theorem readLayerSettings_toValue {s : LayerSettings} (finite : s.isFinite) :
    readLayerSettings s.toValue.draft = .ok s := by
  simp only [LayerSettings.isFinite, Bool.and_eq_true] at finite
  have passes : (Value.ofNat s.passes.toNat).draft.readBelow UInt32.size = .ok s.passes.toNat :=
    readBelow_ofNat s.passes.toNat_lt
  have count : s.passes.toNat.toUInt32 = s.passes := UInt32.ofNat_toNat
  rw [readLayerSettings, LayerSettings.toValue, Schema.read_object _ _ (by decide) ⟨[], rfl⟩]
  simp only [List.map_cons, List.map_nil, layerSettingsSchema]
  rw [storeItems_may (readName_layerModeNames _), storeItems_may (readFloat_ofFloat finite.1),
    storeItems_may (readFloat_ofFloat finite.2), storeItems_may passes,
    storeItems_may (readBool_bool _), storeItems_may (readBool_bool _),
    storeItems_may (readBool_bool _)]
  exact congrArg (fun passes => Except.ok { s with passes }) count

theorem Layer.toValue_eq (layer : Layer) : layer.toValue = (itemValues layer.items).map
    fun items => .object [("name", .string layer.name), ("color", .string layer.color),
      ("settings", layer.settings.toValue), ("items", .array items)] := by
  rw [toValue]
  cases itemValues layer.items <;> rfl

theorem Layer.exists_toValue {layer : Layer} (writable : layer.writable) :
    ∃ value, layer.toValue = .ok value := by
  simp only [Layer.writable, Bool.and_eq_true] at writable
  obtain ⟨items, written⟩ := exists_itemValues layer.items writable.2
  exact ⟨_, by rw [layer.toValue_eq, written]; rfl⟩

theorem readLayer_toValue {room : Nat} {layer : Layer} {value : Value} (writable : layer.writable)
    (written : layer.toValue = .ok value) (deep : value.depth ≤ room) :
    readLayer room value.draft = .ok layer.settled := by
  simp only [Layer.writable, Bool.and_eq_true] at writable
  obtain ⟨values, within⟩ := exists_itemValues layer.items writable.2
  rw [layer.toValue_eq, within] at written
  cases written
  simp only [Value.depth, depthEntries, depthEntry] at deep
  have items : (Value.array values).draft.readList (readLayerItem room) =
      .ok (settledItems layer.items) :=
    readLayerItems_itemValues writable.2 within (by omega)
  have distinct : ((layerSchema room).fields.map Field.name).Nodup := by
    change ["name", "color", "settings", "items"].Nodup
    decide
  rw [readLayer, Schema.read_object _ _ distinct ⟨[], rfl⟩]
  simp only [List.map_cons, List.map_nil, layerSchema]
  rw [storeItems_need (readString_string _), storeItems_may (readString_string _),
    storeItems_may (readLayerSettings_toValue writable.1), storeItems_may items]
  rfl

theorem readWorkspace_toValue {w : Workspace} (finite : w.isFinite) :
    readWorkspace w.toValue.draft = .ok w := by
  simp only [Workspace.isFinite, Bool.and_eq_true] at finite
  rw [readWorkspace, Workspace.toValue, Schema.read_object _ _ (by decide) ⟨[], rfl⟩]
  simp only [List.map_cons, List.map_nil, workspaceSchema]
  rw [storeItems_need (readFloat_ofFloat finite.1), storeItems_need (readFloat_ofFloat finite.2)]
  rfl

/-- The layers of a scene are written in it, one by one. -/
theorem Scene.exists_toValue {scene : Scene} (writable : scene.writable) :
    ∃ layers, List.Forall₂ (fun layer value => Layer.toValue layer = .ok value) scene.layers layers ∧
      scene.toValue = .ok (.object [("layers", .array layers),
        ("workspace", scene.workspace.toValue)]) := by
  simp only [Scene.writable, Bool.and_eq_true, List.all_eq_true] at writable
  have written : (scene.layers.mapM Layer.toValue).isOk := (isOk_mapM _ _).mpr
    fun layer member => by
      obtain ⟨value, written⟩ := Layer.exists_toValue (writable.1 layer member)
      rw [written]
      rfl
  rw [toValue]
  cases layers : scene.layers.mapM Layer.toValue with
  | error fault =>
    rw [layers] at written
    contradiction
  | ok values => exact ⟨values, mapM_eq_ok.mp layers, rfl⟩

/-- A scene whose numbers are finite and whose pictures are encoded survives being written: it has a
written form, which is read without a fault and gives the same scene. Its placements that are the
identity, up to the sign of a zero, come back as the identity itself. -/
theorem Scene.ofValue_toValue (scene : Scene) (writable : scene.writable) :
    ∃ value, scene.toValue = .ok value ∧ Scene.ofValue value = .ok scene.settled ∧
      scene.settled.same scene := by
  obtain ⟨values, written, whole⟩ := Scene.exists_toValue writable
  refine ⟨_, whole, ?_, settled_same writable⟩
  simp only [Scene.writable, Bool.and_eq_true, List.all_eq_true] at writable
  generalize room : Value.depth (.object [("layers", .array values),
    ("workspace", scene.workspace.toValue)]) = depth
  have layers : (Value.array values).draft.readList (readLayer depth) =
      .ok (scene.layers.map Layer.settled) := by
    refine readList_forall₂ (List.forall₂_iff_get.mpr ⟨written.length_eq, fun i inside behind => ?_⟩)
    refine readLayer_toValue (writable.1 _ (List.get_mem _ _)) (written.get inside behind) ?_
    have least := depth_le_depthItems (List.get_mem values ⟨i, behind⟩)
    simp only [Value.depth, depthEntries, depthEntry] at room
    omega
  have read : readScene depth (Value.draft (.object [("layers", .array values),
      ("workspace", scene.workspace.toValue)])) = .ok scene.settled := by
    have distinct : ((sceneSchema depth).fields.map Field.name).Nodup := by
      change ["layers", "workspace"].Nodup
      decide
    rw [readScene, Schema.read_object _ _ distinct ⟨[], rfl⟩]
    simp only [List.map_cons, List.map_nil, sceneSchema]
    rw [storeItems_may layers, storeItems_may (readWorkspace_toValue writable.2)]
    rfl
  rw [Scene.ofValue, Value.readAs, room, read]
  rfl

/-- A picture and a closed path in a group. The placement of the path is the identity but for the
sign of a zero, and comes back as the identity. -/
theorem Scene.ofValue_toValue_group :
    let path : Path := ⟨⟨1, -0.0⟩, [.line ⟨2, 0⟩, .bezier ⟨2, 1⟩ ⟨1, 1⟩ ⟨0.5, 0⟩], true,
      ⟨1, -0.0, 0, 1, 0, 0⟩⟩
    let image : Raster := ⟨"photo", .encoded "?", 4, 3, .identity, .standard⟩
    let scene (path : Path) : Scene :=
      ⟨[⟨"engraved", "", .standard, [.group [.path path, .raster image] ⟨2, 0, 0, 2, 5, 5⟩]⟩],
        .standard⟩
    (scene path).writable ∧ ∃ value, (scene path).toValue = .ok value ∧
      Scene.ofValue value = .ok (scene { path with placement := .identity }) ∧
      (scene { path with placement := .identity }).same (scene path) := by
  intro path image scene
  have writable : (scene path).writable := by decide
  have settled : (scene path).settled = scene { path with placement := .identity } := by
    have identity : Affine.settled ⟨1, -0.0, 0, 1, 0, 0⟩ = .identity := if_pos (by decide)
    have moved : Affine.settled ⟨2, 0, 0, 2, 5, 5⟩ = ⟨2, 0, 0, 2, 5, 5⟩ := if_neg (by decide)
    simp only [scene, path, Scene.settled, Layer.settled, List.map_cons, List.map_nil, settledItems,
      Item.settled, Path.settled, identity, moved]
  obtain ⟨value, written, read, same⟩ := (scene path).ofValue_toValue writable
  rw [settled] at read same
  exact ⟨writable, value, written, read, same⟩

end scenes

end LaserCutter
