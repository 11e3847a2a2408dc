import LaserCutter.Motion.Job

/-!
# Legs and routes without jumps

`Joined` says that moves lead from one point to another without a jump. A leg or route is `Unbroken`
if it is so from wherever it starts: then its moves are joined, and the stop that it reports is where
they lead. Doing unbroken parts one after the other is unbroken.

Doing parts in order is described by one equation for each way to do it (`Leg.chain_cons`,
`Route.chain_cons`, `Route.numbered_eq_chain`), so that nothing below needs to know how they gather
their moves.
-/

namespace LaserCutter

/-- The moves start at the first point, each goes on from where the one before stopped, and the last
one stops at the second point. Without moves the points are the same. -/
def Joined : Point → List Move → Point → Prop
  | start, [], stop => stop = start
  | start, move :: rest, stop => move.start = start ∧ Joined move.stop rest stop

namespace Joined

variable {start middle stop : Point} {front back moves : List Move}

theorem append (first : Joined start front middle) (second : Joined middle back stop) :
    Joined start (front ++ back) stop := by
  induction front generalizing start with
  | nil =>
    rw [first] at second
    exact second
  | cons move rest ih => exact ⟨first.1, ih first.2⟩

theorem head_start (joined : Joined start moves stop) :
    ∀ first ∈ moves.head?, first.start = start := by
  cases moves with
  | nil => nofun
  | cons move rest =>
    intro first member
    cases member
    exact joined.1

theorem getElem_start (joined : Joined start moves stop) (i : Nat) (h : i + 1 < moves.length) :
    moves[i + 1].start = moves[i].stop := by
  induction moves generalizing start i with
  | nil => contradiction
  | cons move rest ih =>
    cases i with
    | zero =>
      cases rest with
      | nil => exact absurd h (Nat.lt_irrefl 1)
      | cons next more => exact joined.2.1
    | succ i => exact ih joined.2 i (Nat.lt_of_succ_lt_succ h)

theorem getLast_stop (joined : Joined start moves stop) :
    ∀ last ∈ moves.getLast?, last.stop = stop := by
  induction moves generalizing start with
  | nil => nofun
  | cons move rest ih =>
    cases rest with
    | nil =>
      intro last member
      cases member
      exact joined.2.symm
    | cons next more =>
      intro last member
      exact ih joined.2 last (by simpa using member)

end Joined

namespace Leg

/-- From wherever it starts, the part leads to its stop without a jump. -/
def Unbroken (part : Point → Leg) : Prop :=
  ∀ position, Joined position (part position).moves (part position).stop

/-- One step of `chain`. -/
private def gather (state : List (List Move) × Point) (part : Point → Leg) :
    List (List Move) × Point :=
  ((part state.2).moves :: state.1, (part state.2).stop)

private theorem foldl_gather (parts : List (Point → Leg)) (legs : List (List Move))
    (position : Point) :
    parts.foldl gather (legs, position) =
      ((parts.foldl gather ([], position)).1 ++ legs,
        (parts.foldl gather ([], position)).2) := by
  induction parts generalizing legs position with
  | nil => rfl
  | cons part rest ih =>
    simp only [List.foldl_cons, gather]
    rw [ih, ih [_]]
    simp

theorem chain_cons (part : Point → Leg) (rest : List (Point → Leg)) (position : Point) :
    chain (part :: rest) position = (part position).andThen (chain rest) := by
  have unfolded (parts : List (Point → Leg)) (position : Point) : chain parts position =
      ⟨(parts.foldl gather ([], position)).1.reverse.flatten,
        (parts.foldl gather ([], position)).2⟩ := rfl
  simp only [andThen, unfolded, List.foldl_cons]
  rw [gather, foldl_gather]
  simp

theorem chain_append (front back : List (Point → Leg)) (position : Point) :
    chain (front ++ back) position = (chain front position).andThen (chain back) := by
  induction front generalizing position with
  | nil => rfl
  | cons part rest ih =>
    rw [List.cons_append, chain_cons, chain_cons, andThen, ih]
    simp [andThen]

theorem unbroken_stay : Unbroken stay := fun _ => rfl

theorem joined_andThen {leg : Leg} {next : Point → Leg} {position : Point}
    (joined : Joined position leg.moves leg.stop) (unbroken : Unbroken next) :
    Joined position (leg.andThen next).moves (leg.andThen next).stop :=
  joined.append (unbroken leg.stop)

theorem unbroken_chain {parts : List (Point → Leg)} (unbroken : ∀ part ∈ parts, Unbroken part) :
    Unbroken (chain parts) := by
  induction parts with
  | nil => exact unbroken_stay
  | cons part rest ih =>
    intro position
    rw [chain_cons]
    exact joined_andThen (unbroken part (by simp) position)
      (ih fun part member => unbroken part (by simp [member]))

end Leg

namespace Route

/-- Wherever the route starts and gives a leg, that leg leads to its stop without a jump. -/
def Unbroken (route : Route) : Prop :=
  ∀ position leg, route position = .ok leg → Joined position leg.moves leg.stop

/-- Drives one route and then the next from where the first one stopped. -/
def andThen (first next : Route) : Route := fun position => do
  let leg ← first position
  let more ← next leg.stop
  return ⟨leg.moves ++ more.moves, more.stop⟩

/-- One step of `chain`. -/
private def gather (state : List (List Move) × Point) (route : Route) :
    Except RouteFault (List (List Move) × Point) := do
  let leg ← route state.2
  return (leg.moves :: state.1, leg.stop)

private theorem foldlM_gather (routes : List Route) (legs : List (List Move)) (position : Point) :
    routes.foldlM gather (legs, position) =
      (routes.foldlM gather ([], position)).map fun state => (state.1 ++ legs, state.2) := by
  induction routes generalizing legs position with
  | nil => rfl
  | cons route rest ih =>
    simp only [List.foldlM_cons, gather]
    cases route position with
    | error fault => rfl
    | ok leg =>
      change rest.foldlM gather (leg.moves :: legs, leg.stop) =
        (rest.foldlM gather ([leg.moves], leg.stop)).map _
      rw [ih, ih [leg.moves]]
      cases rest.foldlM gather ([], leg.stop) with
      | error fault => rfl
      | ok state => simp [Except.map]

theorem chain_nil : chain [] = still := rfl

theorem chain_cons (route : Route) (rest : List Route) :
    chain (route :: rest) = route.andThen (chain rest) := by
  have unfolded (routes : List Route) (position : Point) : chain routes position =
      (routes.foldlM gather ([], position)).map
        fun state => (⟨state.1.reverse.flatten, state.2⟩ : Leg) := by
    change (routes.foldlM gather ([], position) >>= fun state => _) = _
    cases routes.foldlM gather ([], position) <;> rfl
  funext position
  simp only [andThen, unfolded, List.foldlM_cons, gather]
  cases route position with
  | error fault => rfl
  | ok leg =>
    change (rest.foldlM gather ([leg.moves], leg.stop)).map _ = _
    rw [foldlM_gather]
    cases folded : rest.foldlM gather ([], leg.stop) with
    | error fault => simp [folded, bind, Except.bind, Except.map]
    | ok state => simp [folded, bind, Except.bind, Except.map, pure, Except.pure]

/-- Routes that are made one by one are driven like a list of them. -/
theorem numberedFrom_eq_chain (route : Nat → Route) (count first : Nat) (legs : List (List Move))
    (position : Point) :
    numberedFrom route count first legs position =
      (chain ((List.range' first count).map route) position).map
        fun leg => (⟨legs.reverse.flatten ++ leg.moves, leg.stop⟩ : Leg) := by
  induction count generalizing first legs position with
  | zero => simp [numberedFrom, chain_nil, still, Leg.stay, Except.map]
  | succ more ih =>
    rw [numberedFrom, List.range'_succ, List.map_cons, chain_cons, andThen]
    cases route first position with
    | error fault => rfl
    | ok leg =>
      change numberedFrom route more (first + 1) (leg.moves :: legs) leg.stop = _
      rw [ih]
      change _ = Except.map _ (chain ((List.range' (first + 1) more).map route) leg.stop >>= _)
      cases chain ((List.range' (first + 1) more).map route) leg.stop with
      | error fault => rfl
      | ok rest => simp [Except.map, bind, Except.bind, pure, Except.pure]

theorem numbered_eq_chain (route : Nat → Route) (count : Nat) :
    numbered route count = chain ((List.range count).map route) := by
  funext position
  rw [numbered, numberedFrom_eq_chain, List.range_eq_range']
  cases chain ((List.range' 0 count).map route) position <;> rfl

theorem unbroken_still : Unbroken still := by
  intro position leg equal
  cases equal
  exact rfl

/-- A route that gives no leg has nothing that could break. -/
theorem unbroken_error (fault : RouteFault) : Unbroken fun _ => .error fault := nofun

/-- Two routes are driven one after the other exactly if the first one gives a leg and the next one
goes on from its stop. -/
theorem andThen_eq_ok {first next : Route} {position : Point} {leg : Leg} :
    first.andThen next position = .ok leg ↔ ∃ front back, first position = .ok front ∧
      next front.stop = .ok back ∧ leg = ⟨front.moves ++ back.moves, back.stop⟩ := by
  simp only [andThen, bind, Except.bind]
  cases first position with
  | error fault => simp
  | ok front =>
    cases driven : next front.stop with
    | error fault => simp [driven]
    | ok back => simp [driven, pure, Except.pure, eq_comm]

theorem unbroken_andThen {first next : Route} (unbroken : Unbroken first)
    (unbrokenNext : Unbroken next) : Unbroken (first.andThen next) := by
  intro position leg equal
  obtain ⟨front, back, driven, drivenNext, rfl⟩ := andThen_eq_ok.mp equal
  exact (unbroken position front driven).append (unbrokenNext front.stop back drivenNext)

theorem unbroken_chain {routes : List Route} (unbroken : ∀ route ∈ routes, Unbroken route) :
    Unbroken (chain routes) := by
  induction routes with
  | nil => exact unbroken_still
  | cons route rest ih =>
    rw [chain_cons]
    exact unbroken_andThen (unbroken route (by simp))
      (ih fun route member => unbroken route (by simp [member]))

theorem unbroken_numbered {route : Nat → Route} (unbroken : ∀ i, Unbroken (route i))
    (count : Nat) : Unbroken (numbered route count) := by
  rw [numbered_eq_chain]
  apply unbroken_chain
  intro route' member
  obtain ⟨i, _, rfl⟩ := List.mem_map.mp member
  exact unbroken i

end Route

namespace Pass

/-- A rapid that is left out stays at its start, not at the point it was meant for. -/
theorem unbroken_rapid (pass : Pass) (stop : Point) : Leg.Unbroken (pass.rapid stop) := by
  intro position
  unfold rapid
  split
  · exact rfl
  · exact ⟨rfl, rfl⟩

theorem unbroken_cut (pass : Pass) (power : Float) (mode : CutMode) (stop : Point) :
    Leg.Unbroken (pass.cut power mode stop) := fun _ => ⟨rfl, rfl⟩

end Pass

end LaserCutter
