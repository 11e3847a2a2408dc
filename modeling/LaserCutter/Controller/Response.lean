import LaserCutter.Number.DecimalReader
import LaserCutter.Plane.Point
import LaserCutter.Text.Blank
import LaserCutter.Text.Lines

/-!
# Responses of a controller

A controller answers each line with `ok` or with an error, reports its position in frames of the
form `<state|MPos:x,y,z|…>`, and prints free text otherwise.
-/

namespace LaserCutter

inductive Response where
  | ack
  | position (p : Point)
  | status (text : String)
  | error (text : String)
  deriving DecidableEq, Repr

namespace Response

/-- The first two coordinates of the machine position in a frame. -/
def framePosition? (frame : List Char) : Option Point := do
  let (_, rest) ← Text.splitFirst? "MPos:".toList frame
  let field := rest.takeWhile fun c => c ≠ '|' && c ≠ '>'
  match field.splitOn ',' with
  | x :: y :: _ =>
    let x ← Number.readDecimal? (String.ofList (Text.trimBlanks x))
    let y ← Number.readDecimal? (String.ofList (Text.trimBlanks y))
    pure ⟨x, y⟩
  | _ => none

/-- What a line says, blanks at its ends aside. Blank lines and frames without a position say
nothing. -/
def ofLine? (line : String) : Option Response :=
  let cs := Text.trimBlanks line.toList
  if cs = [] then none
  else if cs = "ok".toList then some .ack
  else if "error".toList.isPrefixOf cs then some (.error (String.ofList cs))
  else if cs.head? = some '<' then (framePosition? cs).map .position
  else some (.status (String.ofList cs))

end Response

end LaserCutter
