import LaserCutter.Json.Record
import Mathlib.Data.List.Forall2

/-!
# Reading values that are there

The draft of a value has no faults: it is read back as the value it comes from, if there is room for
its brackets. A record whose names come in the order of the fields is read like the array of its
values, so what is stored can be followed one field at a time.
-/

namespace LaserCutter.Json

section drafts

theorem draftEntries_eq_map (entries : List (String × Value)) :
    draftEntries entries = entries.map fun entry => (some entry.1, entry.2.draft) := by
  induction entries with
  | nil => rfl
  | cons entry rest ih => rw [draftEntries, ih, List.map_cons, draftEntry]

theorem depth_le_depthItems {v : Value} {items : List Value} (member : v ∈ items) :
    v.depth ≤ depthItems items := by
  induction member with
  | head rest => exact Nat.le_max_left _ _
  | tail _ _ ih => exact Nat.le_trans ih (Nat.le_max_right _ _)

mutual

/-- The draft of a value is a whole value, that one. -/
theorem Value.value_draft {room : Nat} : ∀ v : Value, v.depth ≤ room → v.draft.value room = .ok v
  | .null, _ => rfl
  | .bool _, _ => rfl
  | .number _, _ => rfl
  | .string _, _ => rfl
  | .array items, deep => by
    simp only [Value.depth] at deep
    have read : valueItems (room - 1) (draftItems items) = .ok items :=
      valueItems_draft items (by omega)
    rw [Value.draft, Draft.value, if_neg (by omega), read]
    rfl
  | .object entries, deep => by
    simp only [Value.depth] at deep
    have read : valueEntries (room - 1) (draftEntries entries) = .ok entries :=
      valueEntries_draft entries (by omega)
    rw [Value.draft, Draft.value, if_neg (by omega), read]
    rfl

theorem valueItems_draft {room : Nat} :
    ∀ items : List Value, depthItems items ≤ room → valueItems room (draftItems items) = .ok items
  | [], _ => rfl
  | v :: rest, deep => by
    simp only [depthItems] at deep
    rw [draftItems, valueItems, v.value_draft (by omega), valueItems_draft rest (by omega)]
    rfl

theorem valueEntries_draft {room : Nat} : ∀ entries : List (String × Value),
    depthEntries entries ≤ room → valueEntries room (draftEntries entries) = .ok entries
  | [], _ => rfl
  | entry :: rest, deep => by
    simp only [depthEntries] at deep
    rw [draftEntries, valueEntries, valueEntry_draft entry (by omega),
      valueEntries_draft rest (by omega)]
    rfl

theorem valueEntry_draft {room : Nat} : ∀ entry : String × Value,
    depthEntry entry ≤ room → valueEntry room (draftEntry entry) = .ok entry
  | (key, v), deep => by
    rw [depthEntry] at deep
    rw [draftEntry, valueEntry, v.value_draft deep]
    rfl

end

end drafts

section scalars

theorem readFloat_ofFloat {x : Float} (finite : Number.isFinite x) :
    (Value.ofFloat x).draft.readFloat = .ok x := by
  rw [Value.ofFloat, if_pos finite]
  rfl

theorem readBool_bool (b : Bool) : (Value.bool b).draft.readBool = .ok b := rfl

theorem readString_string (s : String) : (Value.string s).draft.readString = .ok s := rfl

theorem readBelow_ofNat {n limit : Nat} (below : n < limit) :
    (Value.ofNat n).draft.readBelow limit = .ok n := by
  have range : (0 : Int) ≤ n ∧ (n : Int) < limit := by omega
  change (if (0 : Int) ≤ n ∧ (n : Int) < limit then Except.ok (n : Int).toNat else _) = _
  rw [if_pos range, Int.toNat_natCast]

section lists

variable {α β : Type} {read : Draft → Except Fault β}

theorem readList_cons {v : Value} {rest : List Value} {a : β} {as : List β}
    (first : read v.draft = .ok a) (others : (Value.array rest).draft.readList read = .ok as) :
    (Value.array (v :: rest)).draft.readList read = .ok (a :: as) := by
  rw [Value.draft, Draft.readList] at others ⊢
  rw [draftItems, List.mapM_cons, first]
  cases whole : (draftItems rest).mapM read with
  | error fault =>
    rw [whole] at others
    cases others
  | ok as' =>
    rw [whole] at others
    cases others
    rfl

/-- A list of which each item is read as its image is read as the list of the images. -/
theorem readList_forall₂ {image : α → β} {items : List α} {values : List Value}
    (reads : List.Forall₂ (fun a v => read v.draft = .ok (image a)) items values) :
    (Value.array values).draft.readList read = .ok (items.map image) := by
  induction reads with
  | nil => rfl
  | cons first _ ih => exact readList_cons first ih

theorem readList_map {write : α → Value} {image : α → β} {items : List α}
    (reads : ∀ a ∈ items, read (write a).draft = .ok (image a)) :
    (Value.array (items.map write)).draft.readList read = .ok (items.map image) :=
  readList_forall₂ (List.forall₂_map_right_iff.mpr (List.forall₂_same.mpr reads))

end lists

end scalars

section records

variable {ρ α : Type} {surplus : Fault}

theorem storeItems_need {name : String} {read : Draft → Except Fault α} {set : α → ρ → ρ}
    {fields : List (Field ρ)} {record : ρ} {d : Draft} {rest : List Draft} {fault : Option Fault}
    {a : α} (stored : read d = .ok a) :
    storeItems surplus (.need name read set :: fields) record (d :: rest) fault =
      storeItems surplus fields (set a record) rest fault := by
  simp only [storeItems, Field.need, stored]
  rfl

theorem storeItems_may {name : String} {read : Draft → Except Fault α} {set : α → ρ → ρ}
    {fields : List (Field ρ)} {record : ρ} {d : Draft} {rest : List Draft} {fault : Option Fault}
    {a : α} (stored : read d = .ok a) :
    storeItems surplus (.may name read set :: fields) record (d :: rest) fault =
      storeItems surplus fields (set a record) rest fault := by
  simp only [storeItems, Field.may, stored]
  rfl

section order

variable {met ahead : List (Field ρ)}

theorem unseen_of_distinct (distinct : ((met ++ ahead).map Field.name).Nodup) :
    ∀ field ∈ ahead, field.name ∉ met.map Field.name := by
  intro field member seen
  rw [List.map_append, List.nodup_append] at distinct
  exact distinct.2.2 _ seen _ (List.mem_map_of_mem member) rfl

/-- Where the names of the fields met were seen, a field is missing if it is required and ahead. -/
theorem all_seen_iff (unseen : ∀ field ∈ ahead, field.name ∉ met.map Field.name) :
    ((met ++ ahead).all fun field =>
      !field.required || decide (field.name ∈ (met.map Field.name).reverse)) =
      !ahead.any (·.required) := by
  by_cases needed : ahead.any (·.required)
  · rw [needed, Bool.not_true, Bool.eq_false_iff]
    intro all
    obtain ⟨field, member, required⟩ := List.any_eq_true.mp needed
    have stored := List.all_eq_true.mp all field (List.mem_append_right met member)
    simp only [required, Bool.not_true, Bool.false_or, List.mem_reverse] at stored
    exact unseen field member (of_decide_eq_true stored)
  · rw [Bool.eq_false_iff.mpr needed, Bool.not_false]
    refine List.all_eq_true.mpr fun field member => ?_
    rcases List.mem_append.mp member with early | late
    · have seen : field.name ∈ met.map Field.name := List.mem_map_of_mem early
      simp only [List.mem_reverse, decide_eq_true seen, Bool.or_true]
    · have optional : field.required = false := by
        cases required : field.required with
        | false => rfl
        | true => exact absurd (List.any_eq_true.mpr ⟨field, late, required⟩) needed
      simp only [optional, Bool.not_false, Bool.true_or]

end order

/-- Names that are met in the order of the fields find these, none of them twice. -/
theorem storeEntries_inOrder (surplus : Fault) (met : List (Field ρ)) {ahead : List (Field ρ)}
    (distinct : ((met ++ ahead).map Field.name).Nodup) (record : ρ)
    (entries : List (String × Draft))
    (named : entries.map Prod.fst <+: ahead.map Field.name) :
    (do
      let (record, seen) ← storeEntries (met ++ ahead) (met.map Field.name).reverse record
        (entries.map fun entry => (some entry.1, entry.2))
      if (met ++ ahead).all fun field => !field.required || field.name ∈ seen then .ok record
      else .error .mismatch) =
      storeItems surplus ahead record (entries.map Prod.snd) none := by
  have unseen := unseen_of_distinct distinct
  -- the fields met so far are those whose names were seen
  induction entries generalizing met ahead record with
  | nil =>
    simp only [List.map_nil, storeEntries, storeItems, bind, Except.bind]
    rw [all_seen_iff unseen]
    cases ahead.any (·.required) <;> rfl
  | cons entry rest ih =>
    cases ahead with
    | nil => simp at named
    | cons field ahead =>
      obtain ⟨name, d⟩ := entry
      obtain ⟨same, follows⟩ := List.cons_prefix_cons.mp named
      have here : name = field.name := same
      subst here
      have found : (met ++ field :: ahead).find? (·.name = field.name) = some field := by
        rw [List.find?_append, List.find?_eq_none.mpr]
        · simp
        · intro other member same
          exact unseen field (.head _) (List.mem_map.mpr ⟨other, member, of_decide_eq_true same⟩)
      simp only [List.map_cons, storeEntries, found, List.mem_reverse,
        if_neg (unseen field (.head _)), storeItems]
      cases field.store d record with
      | error fault => rfl
      | ok record =>
        have distinct' : (((met ++ [field]) ++ ahead).map Field.name).Nodup := by
          rwa [List.append_assoc]
        have later := ih (met ++ [field]) distinct' record follows (unseen_of_distinct distinct')
        simp only [List.append_assoc, List.cons_append, List.nil_append, List.map_append,
          List.map_cons, List.map_nil, List.reverse_append, List.reverse_cons,
          List.reverse_nil] at later
        exact later

/-- A record whose names come in the order of the fields is read like the array of its values. -/
theorem Schema.read_object (schema : Schema ρ) (blank : ρ)
    (distinct : (schema.fields.map Field.name).Nodup) {entries : List (String × Value)}
    (named : entries.map Prod.fst <+: schema.fields.map Field.name) :
    schema.read blank (Value.object entries).draft =
      storeItems schema.surplus schema.fields blank (entries.map fun entry => entry.2.draft)
        none := by
  have inOrder := storeEntries_inOrder schema.surplus [] distinct blank
    (entries.map fun entry => (entry.1, entry.2.draft)) (by simpa [Function.comp_def] using named)
  simp only [List.map_map, Function.comp_def] at inOrder
  rw [Value.draft, draftEntries_eq_map]
  exact inOrder

end records

section tags

theorem fresh_of_prefix {entries : List (String × Value)} {names : List String} {key : String}
    (named : entries.map Prod.fst <+: names) (absent : key ∉ names) :
    ∀ entry ∈ entries, entry.1 ≠ key := by
  rintro entry member rfl
  exact absent (named.subset (List.mem_map_of_mem member))

variable {key tag : String} {tags : List String} {entries : List (String × Value)}

theorem readTagged_object {i : Nat} (place : tags.idxOf? tag = some i)
    (fresh : ∀ entry ∈ entries, entry.1 ≠ key) :
    (Value.object ((key, .string tag) :: entries)).draft.readTagged key tags =
      .ok (i, (Value.object entries).draft) := by
  have others : (draftEntries entries).filter (·.1 = some key) = [] := by
    rw [draftEntries_eq_map, List.filter_eq_nil_iff]
    intro entry member
    obtain ⟨written, among, rfl⟩ := List.mem_map.mp member
    simpa using fresh written among
  have kept : (draftEntries entries).filter (·.1 ≠ some key) = draftEntries entries := by
    rw [draftEntries_eq_map, List.filter_eq_self]
    intro entry member
    obtain ⟨written, among, rfl⟩ := List.mem_map.mp member
    simpa using fresh written among
  have tags' : (draftEntries ((key, .string tag) :: entries)).filter (·.1 = some key) =
      [(some key, .string (some tag))] := by
    rw [draftEntries, draftEntry, List.filter_cons_of_pos (by simp), others]
    rfl
  have fields : (draftEntries ((key, .string tag) :: entries)).filter (·.1 ≠ some key) =
      draftEntries entries := by
    rw [draftEntries, draftEntry, List.filter_cons_of_neg (by simp), kept]
  simp only [Value.draft, Draft.readTagged, tags', fields, Draft.readTag, place]
  rfl

/-- Once the tag has come, what follows only has to be whole. -/
theorem checkTaggedEntries_draft {room : Nat} (fresh : ∀ entry ∈ entries, entry.1 ≠ key)
    (deep : depthEntries entries ≤ room) :
    checkTaggedEntries room key tags true (draftEntries entries) = .ok true := by
  induction entries with
  | nil => rfl
  | cons entry rest ih =>
    obtain ⟨name, v⟩ := entry
    simp only [depthEntries, depthEntry] at deep
    rw [draftEntries, draftEntry, checkTaggedEntries, if_neg (fresh _ (.head _)),
      v.value_draft (by omega)]
    exact ih (fun entry member => fresh entry (.tail _ member)) (by omega)

theorem checkTagged_object {room : Nat} (known : tag ∈ tags)
    (fresh : ∀ entry ∈ entries, entry.1 ≠ key)
    (deep : (Value.object ((key, .string tag) :: entries)).depth ≤ room) :
    (Value.object ((key, .string tag) :: entries)).draft.checkTagged room key tags = .ok () := by
  simp only [Value.depth, depthEntries, depthEntry] at deep
  have rest : checkTaggedEntries (room - 1) key tags true (draftEntries entries) = .ok true :=
    checkTaggedEntries_draft fresh (by omega)
  have whole : checkTaggedEntries (room - 1) key tags false
      (draftEntries ((key, .string tag) :: entries)) = .ok true := by
    rw [draftEntries, draftEntry, checkTaggedEntries, if_pos rfl, if_neg Bool.false_ne_true]
    simp only [Value.draft, Draft.readString, bind, Except.bind]
    rw [if_pos known, rest]
  rw [Value.draft, Draft.checkTagged, if_neg (by omega), whole]
  rfl

end tags

end LaserCutter.Json
