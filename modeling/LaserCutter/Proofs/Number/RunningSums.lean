import LaserCutter.Number.RunningSums

/-!
# Running sums

There is one running sum for each number, and each is the one before it plus its number.
-/

namespace LaserCutter.Number

theorem runningSumsFrom_seen (total : Float) (seen xs : List Float) :
    runningSumsFrom total seen xs = seen.reverse ++ runningSumsFrom total [] xs := by
  induction xs generalizing total seen with
  | nil => simp [runningSumsFrom]
  | cons x rest ih =>
    simp only [runningSumsFrom]
    rw [ih, ih (total + x) [total + x]]
    simp

theorem runningSumsFrom_cons (total x : Float) (rest : List Float) :
    runningSumsFrom total [] (x :: rest) =
      (total + x) :: runningSumsFrom (total + x) [] rest := by
  rw [runningSumsFrom, runningSumsFrom_seen]
  rfl

theorem length_runningSumsFrom (total : Float) (xs : List Float) :
    (runningSumsFrom total [] xs).length = xs.length := by
  induction xs generalizing total with
  | nil => rfl
  | cons x rest ih => rw [runningSumsFrom_cons, List.length_cons, List.length_cons, ih]

theorem getD_runningSumsFrom (total : Float) (xs : List Float) (i : Nat) (h : i < xs.length) :
    (runningSumsFrom total [] xs).getD i 0 =
      (if i = 0 then total else (runningSumsFrom total [] xs).getD (i - 1) 0) + xs[i] := by
  induction xs generalizing total i with
  | nil => contradiction
  | cons x rest ih =>
    rw [runningSumsFrom_cons]
    cases i with
    | zero => rfl
    | succ i =>
      have step := ih (total + x) i (Nat.lt_of_succ_lt_succ h)
      cases i with
      | zero => simpa using step
      | succ i => simpa using step

theorem length_runningSums (xs : List Float) : (runningSums xs).length = xs.length :=
  length_runningSumsFrom 0 xs

theorem getD_runningSums (xs : List Float) (i : Nat) (h : i < xs.length) :
    (runningSums xs).getD i 0 =
      (if i = 0 then 0 else (runningSums xs).getD (i - 1) 0) + xs[i] :=
  getD_runningSumsFrom 0 xs i h

end LaserCutter.Number
