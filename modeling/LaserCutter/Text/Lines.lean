/-!
# Lines of a text

A line ends at a line feed, and one carriage return right before that line feed belongs to the line
end. What follows the last line feed is a line too, unless it is empty; it keeps a carriage return.
-/

namespace LaserCutter.Text

def dropCarriageReturn (line : List Char) : List Char :=
  if line.getLast? = some '\r' then line.dropLast else line

def linesOf (cs : List Char) : List (List Char) :=
  let parts := cs.splitOn '\n'
  parts.dropLast.map dropCarriageReturn ++ (parts.getLast?.toList.filter (· ≠ []))

def lines (s : String) : List String := (linesOf s.toList).map String.ofList

/-- Looks for `tag`; `before` holds the characters already passed, last first. -/
def splitFrom? (tag before : List Char) : List Char → Option (List Char × List Char)
  | [] => if tag = [] then some (before.reverse, []) else none
  | c :: rest =>
    if tag.isPrefixOf (c :: rest) then some (before.reverse, (c :: rest).drop tag.length)
    else splitFrom? tag (c :: before) rest

/-- Splits at the first occurrence of `tag`, which is left out. -/
def splitFirst? (tag cs : List Char) : Option (List Char × List Char) := splitFrom? tag [] cs

end LaserCutter.Text
