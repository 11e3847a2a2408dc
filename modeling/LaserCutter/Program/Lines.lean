import LaserCutter.Text.Blank
import LaserCutter.Text.Lines

/-!
# Program lines

What a controller gets to see of a program: its lines, without blank ones and comments.
-/

namespace LaserCutter

/-- A comment starts with a semicolon in the first column. -/
def isSent (line : List Char) : Bool := !line.all Text.isBlank && line.head? ≠ some ';'

def sentLines (text : String) : List String :=
  ((Text.linesOf text.toList).filter isSent).map String.ofList

end LaserCutter
