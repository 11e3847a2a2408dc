import LaserCutter.Json.Basic

/-!
# Reading records from drafts

A record is written as an object of named fields or as an array of its fields in order. Unknown
names are skipped, a name may not come twice, and a field left out keeps the value of a given
blank record unless it is required. Faults are reported in the order of the text.
-/

namespace LaserCutter.Json

/-- What is wrong with a value where another shape is asked for: its own fault comes first. -/
def Draft.refusal : Draft → Fault
  | .number none | .string none => .malformed
  | .broken f => f
  | _ => .mismatch

def Draft.readFloat : Draft → Except Fault Float
  | .number (some n) => .ok n.toFloat
  | d => .error d.refusal

def Draft.readBool : Draft → Except Fault Bool
  | .bool b => .ok b
  | d => .error d.refusal

def Draft.readString : Draft → Except Fault String
  | .string (some s) => .ok s
  | d => .error d.refusal

/-- Reads an integer from zero to below `limit`. -/
def Draft.readBelow (limit : Nat) : Draft → Except Fault Nat
  | .number (some (.integer n)) => if 0 ≤ n ∧ n < limit then .ok n.toNat else .error .mismatch
  | d => .error d.refusal

def Draft.readList (read : Draft → Except Fault α) : Draft → Except Fault (List α)
  | .array items fault => do
    let as ← items.mapM read
    match fault with
    | none => .ok as
    | some f => .error f
  | d => .error d.refusal

/-- Reads one of a table of names. It may also be written as an object whose only key is the name
and whose value is null. `other` is the fault for any other shape. -/
def Draft.readName (table : List (String × α)) (other : Fault) : Draft → Except Fault α
  | .string (some s) =>
    match table.lookup s with
    | some a => .ok a
    | none => .error .mismatch
  | .object ((some key, d) :: rest) fault =>
    match table.lookup key, d, rest, fault with
    | none, _, _, _ => .error .mismatch
    | some a, .null, [], none => .ok a
    | some _, .null, [], some f => .error f
    | some _, .null, _ :: _, _ => .error other
    | some _, d, _, _ => .error d.refusal
  | .object [] (some f) => .error f
  | .string none => .error .malformed
  | .broken f => .error f
  | _ => .error other

/-- A field of the record type `ρ`: its name, whether it may not be left out, and how a draft of its
value is stored in a record. -/
structure Field (ρ : Type) where
  name : String
  required : Bool
  store : Draft → ρ → Except Fault ρ

structure Schema (ρ : Type) where
  fields : List (Field ρ)
  /-- The fault of an array with more items than there are fields. -/
  surplus : Fault

/-- Stores the entries one after the other; gives the record and the names seen. -/
def storeEntries (fields : List (Field ρ)) :
    List String → ρ → List (Option String × Draft) → Except Fault (ρ × List String)
  | seen, record, [] => .ok (record, seen)
  | _, _, (none, _) :: _ => .error .malformed
  | seen, record, (some key, d) :: rest =>
    match fields.find? (·.name = key) with
    | none => storeEntries fields seen record rest
    | some field =>
      if key ∈ seen then .error .mismatch
      else do
        let record ← field.store d record
        storeEntries fields (key :: seen) record rest

/-- Stores the items in the order of the fields. -/
def storeItems (surplus : Fault) : List (Field ρ) → ρ → List Draft → Option Fault → Except Fault ρ
  | _, _, [], some f => .error f
  | fields, record, [], none => if fields.any (·.required) then .error .mismatch else .ok record
  | [], _, _ :: _, _ => .error surplus
  | field :: fields, record, d :: rest, fault => do
    let record ← field.store d record
    storeItems surplus fields record rest fault

/-- Reads a record; `blank` holds the values of the fields that may be left out. -/
def Schema.read (schema : Schema ρ) (blank : ρ) : Draft → Except Fault ρ
  | .object entries fault => do
    let (record, seen) ← storeEntries schema.fields [] blank entries
    match fault with
    | some f => .error f
    | none =>
      if schema.fields.all fun field => !field.required || field.name ∈ seen then .ok record
      else .error .mismatch
  | .array items fault => storeItems schema.surplus schema.fields blank items fault
  | d => .error d.refusal

/-- A field that may not be left out. -/
def Field.need (name : String) (read : Draft → Except Fault α) (set : α → ρ → ρ) : Field ρ :=
  ⟨name, true, fun d record => (read d).map (set · record)⟩

/-- A field that may be left out. -/
def Field.may (name : String) (read : Draft → Except Fault α) (set : α → ρ → ρ) : Field ρ :=
  ⟨name, false, fun d record => (read d).map (set · record)⟩

/-- The place of a tag in the list of tags; it is written as its name or as that place. -/
def Draft.readTag (tags : List String) : Draft → Except Fault Nat
  | .string (some s) =>
    match tags.idxOf? s with
    | some i => .ok i
    | none => .error .mismatch
  | d => d.readBelow tags.length

/-- Takes a tagged value apart: the place of its tag, and the fields that are left. In an object the
tag is one of the entries, in an array the first item. -/
def Draft.readTagged (key : String) (tags : List String) : Draft → Except Fault (Nat × Draft)
  | .object entries fault =>
    match entries.filter (·.1 = some key) with
    | [(_, tag)] => (tag.readTag tags).map (·, .object (entries.filter (·.1 ≠ some key)) fault)
    | _ => .error .mismatch
  | .array (tag :: rest) fault => (tag.readTag tags).map (·, .array rest fault)
  | d => .error d.refusal

/-- Goes over the entries of a tagged object in the order of the text; gives whether the tag came.
-/
def checkTaggedEntries (room : Nat) (key : String) (tags : List String) :
    Bool → List (Option String × Draft) → Except Fault Bool
  | seen, [] => .ok seen
  | _, (none, _) :: _ => .error .malformed
  | seen, (some name, d) :: rest =>
    if name = key then
      if seen then .error .mismatch
      else do
        let tag ← d.readString
        if tag ∈ tags then checkTaggedEntries room key tags true rest else .error .mismatch
    else do
      let _ ← d.value room
      checkTaggedEntries room key tags seen rest

/-- Checks a tagged value that is read as a whole, with at most `room` brackets open at once. The
tag is checked at its place in the text and has to be a name. -/
def Draft.checkTagged (room : Nat) (key : String) (tags : List String) : Draft → Except Fault Unit
  | .object entries fault =>
    if room = 0 then .error .malformed
    else do
      let seen ← checkTaggedEntries (room - 1) key tags false entries
      match fault with
      | some f => .error f
      | none => if seen then .ok () else .error .mismatch
  | .array items fault =>
    if room = 0 then .error .malformed
    else
      match items, fault with
      | [], some f => .error f
      | [], none => .error .mismatch
      | tag :: rest, fault => do
        let name ← tag.readString
        if name ∈ tags then
          let _ ← valueItems (room - 1) rest
          match fault with
          | some f => .error f
          | none => .ok ()
        else .error .mismatch
  | d => .error d.refusal

/-- Reads a value that is already there as a whole: whatever is wrong with it is its shape. -/
def Value.readAs (read : Draft → Except Fault α) (v : Value) : Except Fault α :=
  (read v.draft).mapError fun _ => .mismatch

end LaserCutter.Json
