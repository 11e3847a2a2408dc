import LaserCutter.Number.Rounding

/-!
# JSON values

A value as a program holds it: numbers are integers of 64 bits or binary64 numbers, and an object
keeps its entries in order. `Draft` is a value as a text gives it: it also records where a text goes
wrong, so that a reader of drafts reports the first fault in the order of the text.
-/

namespace LaserCutter.Json

/-- Integers from `-2^63` to below `2^64` stay integers; every other number is a binary64 number. -/
inductive Number where
  | integer (n : Int)
  | real (x : Float)

def Number.toFloat : Number → Float
  | .integer (.ofNat n) => n.toUInt64.toFloat
  | .integer (.negSucc n) => -(n + 1).toUInt64.toFloat
  | .real x => x

/-- How reading fails. -/
inductive Fault where
  /-- The text ends too early. -/
  | truncated
  /-- The text is no JSON. -/
  | malformed
  /-- The value has another shape than is asked for. -/
  | mismatch
  deriving DecidableEq, Repr

inductive Value where
  | null
  | bool (b : Bool)
  | number (n : Number)
  | string (s : String)
  | array (items : List Value)
  | object (entries : List (String × Value))

/-- A binary64 number; what is not finite has no written form and becomes null. -/
def Value.ofFloat (x : Float) : Value := if Number.isFinite x then .number (.real x) else .null

def Value.ofNat (n : Nat) : Value := .number (.integer n)

inductive Draft where
  | null
  | bool (b : Bool)
  /-- A number; `none` if it is beyond binary64. -/
  | number (n : Option Number)
  /-- A string; `none` if half of a surrogate pair is missing. -/
  | string (s : Option String)
  /-- The items read, and the fault that kept the bracket from being closed. -/
  | array (items : List Draft) (fault : Option Fault)
  /-- The entries read, and the fault that kept the bracket from being closed. -/
  | object (entries : List (Option String × Draft)) (fault : Option Fault)
  /-- The text breaks off here. -/
  | broken (fault : Fault)

mutual

/-- A value as a text without faults gives it. -/
def Value.draft : Value → Draft
  | .null => .null
  | .bool b => .bool b
  | .number n => .number (some n)
  | .string s => .string (some s)
  | .array items => .array (draftItems items) none
  | .object entries => .object (draftEntries entries) none

def draftItems : List Value → List Draft
  | [] => []
  | v :: rest => v.draft :: draftItems rest

def draftEntries : List (String × Value) → List (Option String × Draft)
  | [] => []
  | entry :: rest => draftEntry entry :: draftEntries rest

def draftEntry : String × Value → Option String × Draft
  | (key, v) => (some key, v.draft)

end

mutual

/-- How many brackets are open at once at most. -/
def Value.depth : Value → Nat
  | .array items => depthItems items + 1
  | .object entries => depthEntries entries + 1
  | _ => 0

def depthItems : List Value → Nat
  | [] => 0
  | v :: rest => max v.depth (depthItems rest)

def depthEntries : List (String × Value) → Nat
  | [] => 0
  | entry :: rest => max (depthEntry entry) (depthEntries rest)

def depthEntry : String × Value → Nat
  | (_, v) => v.depth

end

mutual

/-- The value of a whole draft with at most `room` brackets open at once, or its first fault. -/
def Draft.value (room : Nat) : Draft → Except Fault Value
  | .null => .ok .null
  | .bool b => .ok (.bool b)
  | .number (some n) => .ok (.number n)
  | .number none => .error .malformed
  | .string (some s) => .ok (.string s)
  | .string none => .error .malformed
  | .array items fault =>
    if room = 0 then .error .malformed
    else do
      let vs ← valueItems (room - 1) items
      match fault with
      | none => .ok (.array vs)
      | some f => .error f
  | .object entries fault =>
    if room = 0 then .error .malformed
    else do
      let vs ← valueEntries (room - 1) entries
      match fault with
      | none => .ok (.object vs)
      | some f => .error f
  | .broken f => .error f

def valueItems (room : Nat) : List Draft → Except Fault (List Value)
  | [] => .ok []
  | d :: rest => do
    let v ← d.value room
    let vs ← valueItems room rest
    .ok (v :: vs)

def valueEntries (room : Nat) : List (Option String × Draft) → Except Fault (List (String × Value))
  | [] => .ok []
  | entry :: rest => do
    let v ← valueEntry room entry
    let vs ← valueEntries room rest
    .ok (v :: vs)

def valueEntry (room : Nat) : Option String × Draft → Except Fault (String × Value)
  | (none, _) => .error .malformed
  | (some key, d) => do
    let v ← d.value room
    .ok (key, v)

end

end LaserCutter.Json
