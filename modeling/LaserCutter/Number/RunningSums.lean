/-!
# Running sums

The sums of the first one, two, three and more numbers of a list, each added to the sum before it.
-/

namespace LaserCutter.Number

/-- The running sums after `total`; `seen` holds the earlier ones, the last one first. -/
def runningSumsFrom : Float → List Float → List Float → List Float
  | _, seen, [] => seen.reverse
  | total, seen, x :: rest => runningSumsFrom (total + x) ((total + x) :: seen) rest

def runningSums (xs : List Float) : List Float := runningSumsFrom 0 [] xs

end LaserCutter.Number
