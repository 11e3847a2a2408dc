import LaserCutter.Proofs.Image.Diffusion

/-!
# Error diffusion over a buffer

Error diffusion can be run over one buffer: a pixel is decided by what its cell holds, and shares of
its error are added at once to the cells of up to four pixels behind it. Every cell that is written
exists, and the pixels are decided as if each gathered its shares at the end (`spread_reached`).
-/

namespace LaserCutter

/-- A share of an error, by its sixteenths. -/
inductive Share where
  | one
  | three
  | five
  | seven

def Share.of : Share → Float32 → Float32
  | .one, error => error / 16
  | .three, error => error * 3 / 16
  | .five, error => error * 5 / 16
  | .seven, error => error * 7 / 16

namespace GrayField

/-- The pixels that get a share of the error of pixel `i`: on its right, and below it on the left,
straight below and on the right. -/
def targets (f : GrayField) (i : ℕ) : List (ℕ × Share) :=
  let x := i % f.width
  let y := i / f.width
  (if x + 1 < f.width then [(i + 1, .seven)] else []) ++
    if y + 1 < f.height then
      (if 0 < x then [(i + f.width - 1, .three)] else []) ++ [(i + f.width, .five)] ++
        if x + 1 < f.width then [(i + f.width + 1, .one)] else []
    else []

/-- The pixels whose errors pixel `k` gets a share of, in their order. -/
def sources (f : GrayField) (k : ℕ) : List (ℕ × Share) :=
  let x := k % f.width
  let y := k / f.width
  (if 0 < x ∧ 0 < y then [(k - f.width - 1, .one)] else []) ++
    (if 0 < y then [(k - f.width, .five)] else []) ++
    (if 0 < y ∧ x + 1 < f.width then [(k - f.width + 1, .three)] else []) ++
    if 0 < x then [(k - 1, .seven)] else []

section places

variable {f : GrayField} {i k : ℕ}

/-- A pixel that is not the last one of its row is followed by the next one of that row, and the last
one by the first one of the next row. -/
theorem next_pixel (wide : 0 < f.width) (i : ℕ) :
    i % f.width + 1 < f.width ∧ (i + 1) % f.width = i % f.width + 1 ∧
        (i + 1) / f.width = i / f.width ∨
      i % f.width + 1 = f.width ∧ (i + 1) % f.width = 0 ∧ (i + 1) / f.width = i / f.width + 1 := by
  have column := Nat.mod_lt i wide
  have whole := Nat.div_add_mod i f.width
  rcases Nat.lt_or_ge (i % f.width + 1) f.width with inner | last
  · have next : i + 1 = f.width * (i / f.width) + (i % f.width + 1) := by omega
    refine .inl ⟨inner, ?_, ?_⟩
    · rw [next, Nat.mul_add_mod, Nat.mod_eq_of_lt inner]
    · rw [next, Nat.mul_add_div wide, Nat.div_eq_of_lt inner, Nat.add_zero]
  · have next : i + 1 = f.width * (i / f.width + 1) := by
      rw [Nat.mul_succ]
      omega
    refine .inr ⟨by omega, ?_, ?_⟩
    · rw [next, Nat.mul_mod_right]
    · rw [next, Nat.mul_div_cancel_left _ wide]

theorem pixel_below (wide : 0 < f.width) (i : ℕ) :
    (i + f.width) % f.width = i % f.width ∧ (i + f.width) / f.width = i / f.width + 1 :=
  ⟨Nat.add_mod_right i f.width, Nat.add_div_right i wide⟩

/-- In front of a pixel that is not in the first row there are a row of pixels and those of its own
row. -/
theorem row_before (lower : 0 < k / f.width) : 0 < f.width ∧ f.width + k % f.width ≤ k := by
  have whole := Nat.div_add_mod k f.width
  have row : f.width ≤ f.width * (k / f.width) := Nat.le_mul_of_pos_right _ lower
  exact ⟨(Nat.div_pos_iff.mp lower).1, by omega⟩

theorem mem_targets {share : Share} : (k, share) ∈ f.targets i ↔
    i % f.width + 1 < f.width ∧ k = i + 1 ∧ share = .seven ∨
      i / f.width + 1 < f.height ∧
        (0 < i % f.width ∧ k = i + f.width - 1 ∧ share = .three ∨
          k = i + f.width ∧ share = .five ∨
          i % f.width + 1 < f.width ∧ k = i + f.width + 1 ∧ share = .one) := by
  simp [targets]

theorem mem_sources {share : Share} : (i, share) ∈ f.sources k ↔
    0 < k % f.width ∧ 0 < k / f.width ∧ i = k - f.width - 1 ∧ share = .one ∨
      0 < k / f.width ∧ i = k - f.width ∧ share = .five ∨
      0 < k / f.width ∧ k % f.width + 1 < f.width ∧ i = k - f.width + 1 ∧ share = .three ∨
      0 < k % f.width ∧ i = k - 1 ∧ share = .seven := by
  simp [sources, and_assoc]

/-- A pixel gets a share exactly from those that give it one. -/
theorem mem_targets_iff (inside : k < f.width * f.height) (share : Share) :
    (k, share) ∈ f.targets i ↔ (i, share) ∈ f.sources k := by
  have wide : 0 < f.width := Nat.pos_of_ne_zero fun zero => by simp [zero] at inside
  have row : k / f.width < f.height := Nat.div_lt_of_lt_mul inside
  have above := row_before (f := f) (k := k)
  obtain ⟨column, lower⟩ := pixel_below wide i
  rw [mem_targets, mem_sources]
  -- Both sides say how far apart the two pixels are, one in terms of each.
  cases share <;> simp only [reduceCtorEq, and_false, false_or, or_false, and_true]
  case one =>
    have next := next_pixel wide (i + f.width)
    rw [column, lower] at next
    by_cases place : k = i + f.width + 1
    · subst place
      generalize i % f.width = x, i / f.width = y, (i + f.width + 1) % f.width = x',
        (i + f.width + 1) / f.width = y' at *
      omega
    · generalize k % f.width = x, k / f.width = y at *
      omega
  case three =>
    have next := next_pixel wide k
    by_cases place : k + 1 = i + f.width
    · rw [place, column, lower] at next
      generalize i % f.width = x, i / f.width = y, k % f.width = x', k / f.width = y' at *
      omega
    · generalize k % f.width = x, k / f.width = y, i % f.width = x' at *
      omega
  case five =>
    by_cases place : k = i + f.width
    · subst place
      rw [column, lower] at *
      generalize i % f.width = x, i / f.width = y at *
      omega
    · generalize k % f.width = x, k / f.width = y at *
      omega
  case seven =>
    have next := next_pixel wide i
    have least := Nat.mod_le k f.width
    by_cases place : k = i + 1
    · subst place
      generalize i % f.width = x, i / f.width = y, (i + 1) % f.width = x',
        (i + 1) / f.width = y' at *
      omega
    · generalize k % f.width = x, k / f.width = y at *
      omega

/-- Nobody gets two shares of one error. -/
theorem targets_distinct (f : GrayField) (i : ℕ) :
    (f.targets i).Pairwise fun a b => a.1 ≠ b.1 := by
  have least := Nat.mod_le i f.width
  unfold targets
  dsimp only
  generalize i % f.width = x, i / f.width = y at *
  split <;> split <;> try split
  all_goals simp
  all_goals omega

/-- The errors come in the order in which they arise, all before the pixel is decided. -/
theorem sources_ordered (f : GrayField) (k : ℕ) : (f.sources k).Pairwise fun a b => a.1 < b.1 := by
  have above := row_before (f := f) (k := k)
  have column := Nat.mod_lt (y := f.width) k
  unfold sources
  dsimp only
  generalize k % f.width = x, k / f.width = y at *
  split <;> split <;> split <;> split
  all_goals simp
  all_goals omega

theorem lt_of_mem_sources {source : ℕ × Share} (member : source ∈ f.sources k) : source.1 < k := by
  have above := row_before (f := f) (k := k)
  have least := Nat.mod_le k f.width
  obtain ⟨i, share⟩ := source
  rw [mem_sources] at member
  generalize k % f.width = x, k / f.width = y at *
  dsimp only
  omega

end places

/-- What comes of a value as it gets shares of errors, in order. -/
def gathered (v : Float32) (error : ℕ → Float32) (shares : List (ℕ × Share)) : Float32 :=
  shares.foldl (fun v share => v + share.2.of (error share.1)) v

theorem gathered_nil (v : Float32) (error : ℕ → Float32) : gathered v error [] = v := by
  simp only [gathered, List.foldl_nil]

theorem gathered_cons (v : Float32) (error : ℕ → Float32) (share : ℕ × Share)
    (rest : List (ℕ × Share)) :
    gathered v error (share :: rest) =
      gathered (v + share.2.of (error share.1)) error rest := by
  simp only [gathered, List.foldl_cons]

theorem gathered_singleton (v : Float32) (error : ℕ → Float32) (share : ℕ × Share) :
    gathered v error [share] = v + share.2.of (error share.1) := by
  rw [gathered_cons, gathered_nil]

theorem gathered_append (v : Float32) (error : ℕ → Float32) (front back : List (ℕ × Share)) :
    gathered v error (front ++ back) = gathered (gathered v error front) error back :=
  List.foldl_append

/-- A pixel is decided once it has all its shares. -/
theorem held_eq (f : GrayField) (errors : Array Float32) (k : ℕ) :
    f.held errors k = gathered (f.value k).toFloat32 (errors.getD · 0) (f.sources k) := by
  have optional (v : Float32) (error : ℕ → Float32) (p : Prop) [Decidable p] (share : ℕ × Share) :
      gathered v error (if p then [share] else []) =
        if p then v + share.2.of (error share.1) else v := by
    split
    · exact gathered_singleton v error share
    · exact gathered_nil v error
  simp only [held, sources, gathered_append, optional, Share.of]

section shares

variable {f : GrayField} {shares : List (ℕ × Share)}

theorem gathered_congr {v : Float32} {error error' : ℕ → Float32}
    (same : ∀ share ∈ shares, error share.1 = error' share.1) :
    gathered v error shares = gathered v error' shares := by
  induction shares generalizing v with
  | nil => rw [gathered_nil, gathered_nil]
  | cons share rest ih =>
    rw [List.forall_mem_cons] at same
    rw [gathered_cons, gathered_cons, same.1, ih same.2]

/-- Of shares in order, those up to the pixel `n` are those before it and its own. -/
theorem filter_lt_succ (ordered : shares.Pairwise fun a b => a.1 < b.1) (n : ℕ) :
    shares.filter (·.1 < n + 1) = shares.filter (·.1 < n) ++ shares.filter (·.1 = n) := by
  induction shares with
  | nil => rfl
  | cons share rest ih =>
    obtain ⟨least, ordered⟩ := List.pairwise_cons.mp ordered
    rcases Nat.lt_or_ge share.1 n with before | notBefore
    · simp only [List.filter_cons, before, Nat.ne_of_lt before, Nat.lt_succ_of_lt before, ih ordered,
        decide_true, decide_false, if_true, Bool.false_eq_true, if_false, List.cons_append]
    · -- Nothing behind this share comes from before `n`, nor from `n` itself.
      have later : ∀ other ∈ rest, n < other.1 := fun other member =>
        Nat.lt_of_le_of_lt notBefore (least other member)
      have empty : rest.filter (·.1 < n + 1) = [] ∧ rest.filter (·.1 < n) = [] ∧
          rest.filter (·.1 = n) = [] := by
        simp only [List.filter_eq_nil_iff, decide_eq_true_eq]
        refine ⟨?_, ?_, ?_⟩ <;> intro other member <;> have := later other member <;> omega
      simp only [List.filter_cons, empty.1, empty.2.1, empty.2.2]
      by_cases here : share.1 = n
      · simp [here]
      · have beyond : ¬ share.1 < n + 1 := by omega
        simp [here, beyond, Nat.not_lt.mpr notBefore]

/-- The shares with one place, if places are distinct. -/
theorem filter_eq_singleton {a : ℕ} {share : Share}
    (distinct : shares.Pairwise fun a b => a.1 ≠ b.1) (member : (a, share) ∈ shares) :
    shares.filter (·.1 = a) = [(a, share)] := by
  induction shares with
  | nil => contradiction
  | cons first rest ih =>
    obtain ⟨other, distinct⟩ := List.pairwise_cons.mp distinct
    rcases List.mem_cons.mp member with rfl | member
    · have empty : rest.filter (·.1 = a) = [] := by
        simp only [List.filter_eq_nil_iff, decide_eq_true_eq]
        exact fun later member same => other later member same.symm
      simp [empty]
    · have different : first.1 ≠ a := other _ member
      simp [different, ih distinct member]

/-- What one pixel gives to another is what the other gets from it. -/
theorem gathered_targets {k : ℕ} (inside : k < f.width * f.height) (i : ℕ) (v : Float32)
    (error : ℕ → Float32) :
    gathered v (fun _ => error i) ((f.targets i).filter (·.1 = k)) =
      gathered v error ((f.sources k).filter (·.1 = i)) := by
  by_cases given : ∃ share, (k, share) ∈ f.targets i
  · obtain ⟨share, member⟩ := given
    rw [filter_eq_singleton (f.targets_distinct i) member,
      filter_eq_singleton ((f.sources_ordered k).imp Nat.ne_of_lt)
        ((mem_targets_iff inside share).mp member), gathered_singleton, gathered_singleton]
  · have empty : (f.targets i).filter (·.1 = k) = [] ∧ (f.sources k).filter (·.1 = i) = [] := by
      simp only [List.filter_eq_nil_iff, decide_eq_true_eq, Prod.forall]
      refine ⟨?_, ?_⟩
      · rintro _ share member rfl
        exact given ⟨share, member⟩
      · rintro _ share member rfl
        exact given ⟨share, (mem_targets_iff inside share).mpr member⟩
    rw [empty.1, empty.2, gathered_nil, gathered_nil]

end shares

/-- Adds a share of an error to a cell, if there is such a cell. -/
def receive (error : Float32) (cells : Array Float32) (target : ℕ × Share) :
    Option (Array Float32) :=
  if _ : target.1 < cells.size then
    some (cells.set target.1 (cells[target.1] + target.2.of error))
  else none

/-- Where a run over the buffer stands. -/
structure Spread where
  cells : Array Float32
  burned : Array UInt8

/-- Decides pixel `i` by what its cell holds and spreads its error. There is no result if a cell that
is read or written does not exist. -/
def spreadPixel (f : GrayField) (s : Spread) (i : ℕ) : Option Spread := do
  let v ← s.cells[i]?
  let cells ← (f.targets i).foldlM (receive (residue v)) s.cells
  if _ : i < s.burned.size then
    some ⟨cells, s.burned.set i (if burns v then 255 else 0)⟩
  else none

/-- The run over the first `n` pixels. -/
def spread (f : GrayField) (n : ℕ) : Option Spread :=
  (List.range n).foldlM f.spreadPixel
    ⟨(Array.range (f.width * f.height)).map fun k => (f.value k).toFloat32,
      Array.replicate (f.width * f.height) 0⟩

/-- Shares for cells that exist all arrive, and nothing else is changed. -/
theorem foldlM_receive (error : Float32) (targets : List (ℕ × Share)) (cells : Array Float32)
    (inside : ∀ target ∈ targets, target.1 < cells.size) :
    ∃ after, targets.foldlM (receive error) cells = some after ∧ after.size = cells.size ∧
      ∀ k : ℕ, after[k]? = cells[k]?.map fun v =>
        gathered v (fun _ => error) (targets.filter (·.1 = k)) := by
  induction targets generalizing cells with
  | nil => exact ⟨cells, rfl, rfl, fun k => by simp [gathered]⟩
  | cons target rest ih =>
    obtain ⟨within, others⟩ := List.forall_mem_cons.mp inside
    have received : receive error cells target =
        some (cells.set target.1 (cells[target.1] + target.2.of error) within) := dif_pos within
    obtain ⟨after, done, size, values⟩ :=
      ih (cells.set target.1 (cells[target.1] + target.2.of error) within) (by simpa using others)
    refine ⟨after, ?_, by simpa using size, fun k => ?_⟩
    · rw [List.foldlM_cons, received]
      exact done
    · rw [values, Array.getElem?_set]
      by_cases here : target.1 = k
      · subst here
        simp [gathered, within]
      · simp [here]

theorem size_diffusion (f : GrayField) (n : ℕ) : (f.diffusion n).size = n := by
  induction n with
  | zero => rfl
  | succ n ih => rw [diffusion_succ, Array.size_push, ih]

/-- Deciding more pixels changes none of the errors that there are. -/
theorem getD_diffusion (f : GrayField) {m n i : ℕ} (before : i < m) (le : m ≤ n) :
    (f.diffusion n).getD i 0 = (f.diffusion m).getD i 0 := by
  induction n, le using Nat.le_induction with
  | base => rfl
  | succ n le ih =>
    have old : i < (f.diffusion n).size := by rw [size_diffusion]; omega
    rw [← ih, diffusion_succ, Array.getD_eq_getD_getElem?, Array.getElem?_push_lt old,
      Array.getD_eq_getD_getElem?, Array.getElem?_eq_getElem old]

/-- What a pixel holds depends on the errors before it only. -/
theorem held_diffusion (f : GrayField) {n i : ℕ} (le : i ≤ n) :
    f.held (f.diffusion n) i = f.held (f.diffusion i) i := by
  rw [held_eq, held_eq]
  exact gathered_congr fun share member => f.getD_diffusion (lt_of_mem_sources member) le

/-- The error of a pixel is what deciding it leaves over. -/
theorem getD_diffusion_eq (f : GrayField) {n i : ℕ} (before : i < n) :
    (f.diffusion n).getD i 0 = residue (f.held (f.diffusion n) i) := by
  rw [f.getD_diffusion (Nat.lt_succ_self i) before, f.held_diffusion before.le, diffusion_succ,
    Array.getD_eq_getD_getElem?]
  have last : ((f.diffusion i).push (residue (f.held (f.diffusion i) i)))[(f.diffusion i).size]? =
      some (residue (f.held (f.diffusion i) i)) := Array.getElem?_push_size
  rw [size_diffusion] at last
  rw [last, Option.getD_some]

/-- The first `n` pixels are decided as they should be, and the cells of the others hold the shares of
these that have come in. -/
structure Reached (f : GrayField) (n : ℕ) (s : Spread) : Prop where
  size : s.cells.size = f.width * f.height
  cells : ∀ k, n ≤ k → k < f.width * f.height → s.cells[k]? =
    some (gathered (f.value k).toFloat32 ((f.diffusion (f.width * f.height)).getD · 0)
      ((f.sources k).filter (·.1 < n)))
  length : s.burned.size = f.width * f.height
  burned : ∀ k < n, s.burned[k]? =
    some (if burns (f.held (f.diffusion (f.width * f.height)) k) then 255 else 0)

/-- When a pixel is decided its cell holds all that it should. -/
theorem Reached.held {f : GrayField} {n : ℕ} {s : Spread} (reached : f.Reached n s)
    (more : n < f.width * f.height) :
    s.cells[n]? = some (f.held (f.diffusion (f.width * f.height)) n) := by
  have all : (f.sources n).filter (·.1 < n) = f.sources n := by
    rw [List.filter_eq_self]
    exact fun source member => decide_eq_true (lt_of_mem_sources member)
  rw [reached.cells n le_rfl more, all, held_eq]

/-- Only pixels of the field get shares. -/
theorem target_inside {f : GrayField} {i : ℕ} (inside : i < f.width * f.height) :
    ∀ target ∈ f.targets i, target.1 < f.width * f.height := by
  have wide : 0 < f.width := Nat.pos_of_ne_zero fun zero => by simp [zero] at inside
  obtain ⟨column, lower⟩ := pixel_below wide i
  have right := next_pixel wide i
  have belowRight := next_pixel wide (i + f.width)
  rw [column, lower] at belowRight
  rintro ⟨k, share⟩ member
  rw [mem_targets] at member
  rw [Nat.mul_comm, ← Nat.div_lt_iff_lt_mul wide] at inside
  have room {j : ℕ} (row : j / f.width < f.height) : j < f.width * f.height := by
    rwa [Nat.mul_comm, ← Nat.div_lt_iff_lt_mul wide]
  obtain ⟨inner, rfl, _⟩ | ⟨more, ⟨_, rfl, _⟩ | ⟨rfl, _⟩ | ⟨inner, rfl, _⟩⟩ := member
  · exact room (j := i + 1) (by omega)
  · exact Nat.lt_of_le_of_lt (Nat.sub_le _ _) (room (lower ▸ more))
  · exact room (lower ▸ more)
  · exact room (j := i + f.width + 1) (by omega)

/-- Deciding one more pixel. -/
theorem Reached.next {f : GrayField} {n : ℕ} {s : Spread} (reached : f.Reached n s)
    (more : n < f.width * f.height) :
    ∃ after, f.spreadPixel s n = some after ∧ f.Reached (n + 1) after := by
  have present := reached.held more
  obtain ⟨cells, spread, size, values⟩ := foldlM_receive
    (residue (f.held (f.diffusion (f.width * f.height)) n)) (f.targets n) s.cells
    (fun target member => reached.size ▸ target_inside more target member)
  have room : n < s.burned.size := reached.length ▸ more
  refine ⟨⟨cells, s.burned.set n
    (if burns (f.held (f.diffusion (f.width * f.height)) n) then 255 else 0) room⟩, ?_, ?_⟩
  · simp only [spreadPixel, present, Option.bind_eq_bind, Option.bind_some, spread, dif_pos room]
  · refine ⟨size.trans reached.size, fun k later inside => ?_, by simpa using reached.length,
      fun k before => ?_⟩
    · rw [values, reached.cells k (by omega) inside, Option.map_some,
        ← f.getD_diffusion_eq more,
        gathered_targets inside n _ ((f.diffusion (f.width * f.height)).getD · 0),
        filter_lt_succ (f.sources_ordered k), gathered_append]
    · rw [Array.getElem?_set]
      split
      · rename_i same
        rw [same]
      · exact reached.burned k (by omega)

theorem spread_reached (f : GrayField) {n : ℕ} (within : n ≤ f.width * f.height) :
    ∃ s, f.spread n = some s ∧ f.Reached n s := by
  induction n with
  | zero =>
    refine ⟨_, rfl, by simp, fun k _ inside => ?_, by simp, nofun⟩
    simp [inside, gathered_nil]
  | succ n ih =>
    obtain ⟨s, run, reached⟩ := ih (by omega)
    obtain ⟨after, step, reached⟩ := reached.next within
    refine ⟨after, ?_, reached⟩
    unfold spread at run ⊢
    rw [List.range_succ, List.foldlM_append, run]
    simpa using step

/-- A whole run decides the pixels as error diffusion does. -/
theorem burned_spread (f : GrayField) :
    ∃ s, f.spread (f.width * f.height) = some s ∧ s.burned = f.diffused.values := by
  obtain ⟨s, run, reached⟩ := f.spread_reached le_rfl
  refine ⟨s, run, Array.ext_getElem? fun k => ?_⟩
  by_cases inside : k < f.width * f.height
  · rw [reached.burned k inside]
    simp [diffused, ofIndices, inside]
  · rw [Array.getElem?_eq_none (by rw [reached.length]; omega)]
    simp [diffused, ofIndices, inside]

end GrayField

end LaserCutter
