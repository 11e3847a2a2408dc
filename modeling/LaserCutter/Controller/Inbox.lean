import LaserCutter.Text.Utf8

/-!
# Bytes from a controller, line by line

Bytes come in pieces that need not end where lines end. An inbox keeps the lines that have ended
and nobody has taken yet, and the bytes of the line that has not ended. A line end is a line feed,
with one carriage return right before it if there is one. Once the controller has closed the
channel, an unfinished line is taken as it is when no other line is left.
-/

namespace LaserCutter

structure Inbox where
  /-- Lines that have ended, each without its line end. -/
  ready : List (List UInt8)
  /-- The bytes of the line that has not ended, the last one first. -/
  unfinished : List UInt8
  closed : Bool
  deriving DecidableEq, Repr

namespace Inbox

def empty : Inbox := ⟨[], [], false⟩

def lineFeed : UInt8 := 10

def carriageReturn : UInt8 := 13

/-- A line that ends here, given its bytes before the line feed, the last one first. -/
def endedLine (backwards : List UInt8) : List UInt8 :=
  match backwards with
  | [] => []
  | b :: before => if b = carriageReturn then before.reverse else (b :: before).reverse

def push (inbox : Inbox) (b : UInt8) : Inbox :=
  if b = lineFeed then
    { inbox with ready := inbox.ready ++ [endedLine inbox.unfinished], unfinished := [] }
  else { inbox with unfinished := b :: inbox.unfinished }

def receive (inbox : Inbox) (bytes : List UInt8) : Inbox := bytes.foldl push inbox

/-- The controller closes the channel. -/
def close (inbox : Inbox) : Inbox := { inbox with closed := true }

/-- The line that counts as one because the channel is closed. -/
def remainder (inbox : Inbox) : List (List UInt8) :=
  if inbox.closed ∧ inbox.unfinished ≠ [] then [inbox.unfinished.reverse] else []

/-- The lines that can be taken now. -/
def lines (inbox : Inbox) : List (List UInt8) := inbox.ready ++ inbox.remainder

/-- What is left when all lines that can be taken are taken. -/
def emptied (inbox : Inbox) : Inbox :=
  { inbox with ready := [], unfinished := if inbox.closed then [] else inbox.unfinished }

theorem remainder_emptied (inbox : Inbox) : inbox.emptied.remainder = [] := by
  cases h : inbox.closed <;> simp [emptied, remainder, h]

theorem lines_emptied (inbox : Inbox) : inbox.emptied.lines = [] := by
  rw [lines, remainder_emptied]
  rfl

/-- The next line, and the inbox without it. -/
def next? (inbox : Inbox) : Option (List UInt8 × Inbox) :=
  match inbox.ready with
  | line :: rest => some (line, { inbox with ready := rest })
  | [] =>
    match inbox.remainder with
    | line :: _ => some (line, inbox.emptied)
    | [] => none

theorem length_lines_of_next? {inbox rest : Inbox} {line : List UInt8}
    (h : inbox.next? = some (line, rest)) : rest.lines.length < inbox.lines.length := by
  unfold next? at h
  split at h
  · rename_i hready
    injection h with h
    injection h with _ h
    simp [← h, lines, hready, remainder]
  · split at h
    · rename_i hrem
      injection h with h
      injection h with _ h
      rw [← h, lines_emptied, lines, hrem, List.length_append]
      exact Nat.add_pos_right _ (Nat.succ_pos _)
    · contradiction

end Inbox

end LaserCutter
