import LaserCutter.Proofs.Number.Counts
import LaserCutter.Proofs.Number.Equality
import LaserCutter.Proofs.Scan.FarEdge
import Mathlib.Data.List.Destutter

/-!
# Merged runs

The pixels of a scan line are crossed in their order or against it (`walk`). What `Merges` says of
the runs and the pixels crossed is shown for the runs from one pixel on, by induction over the
pixels ahead, and so for any places of the pixels: for the binary64 centres, and for exact ones,
where each pixel lies in the one run that has its power.
-/

namespace LaserCutter

open Number

section power

open Float.Model.UnpackedFloat

theorem exact_burn_zero : exact ((0 : UInt8).toFloat / 255) = .zero .positive := by
  have zero : (0 : UInt8).toFloat / 255 = 0 := by decide
  rw [zero]
  rfl

/-- A burn value that is not zero is a positive share of full power. -/
theorem exact_burn_positive {burn : UInt8} (nonzero : burn ≠ 0) :
    ∃ m e positive, exact (burn.toFloat / 255) = .finite .positive m e positive := by
  have lit : burn.toNat ≠ 0 := fun zero => nonzero (UInt8.toNat_inj.mp zero)
  have byte := burn.toNat_lt
  have top : (255 : Float) = (255 : UInt8).toFloat := by decide
  have full : Stands .binary64 (255 : UInt8).toFloat.toModel.unpack (255 : ℕ) := stands_uint8 255
  have quotient := (stands_uint8 burn).div full (by norm_num)
  have low : (2 : ℚ) ^ (-8 : ℤ) ≤ burn.toNat / (255 : ℕ) := by
    have one : (1 : ℚ) ≤ burn.toNat := by exact_mod_cast Nat.one_le_iff_ne_zero.mpr lit
    rw [le_div_iff₀ (by norm_num)]
    norm_num
    linarith
  have high : (burn.toNat / (255 : ℕ) : ℚ) ≤ 2 ^ 64 := by
    have least : (burn.toNat : ℚ) ≤ 255 := by exact_mod_cast Nat.le_of_lt_succ byte
    rw [div_le_iff₀ (by norm_num)]
    norm_num
    linarith
  have exactLow : nearest .binary64 (2 ^ (-8 : ℤ)) = 2 ^ (-8 : ℤ) := by
    have self := nearest_eq_self .binary64 (n := 1) (k := -8) (by decide) (by decide)
    rwa [Int.cast_one, one_mul] at self
  have positive : 0 < nearest .binary64 (burn.toNat / (255 : ℕ)) :=
    lt_of_lt_of_le (by positivity) (exactLow ▸ nearest_mono .binary64 low)
  rw [top]
  exact (quotient.repack (by decide)
    (nearest_range (le_trans (by positivity) low) high).2.2).finite_of_pos positive

/-- The power has the sign of the layer power. There is none without burning under an infinite layer
power: that is NaN. -/
theorem sign?_steppedPower (burn : UInt8) (layerPower : Float) :
    sign? (exact (steppedPower burn layerPower)) =
      if burn = 0 ∧ ¬ Number.isFinite layerPower then none else sign? (exact layerPower) := by
  have four : ∃ m e positive, exact powerStep = .finite .positive m e positive := ⟨_, _, _, rfl⟩
  obtain ⟨m, e, positive, step⟩ := four
  have scaled (x : Float) :
      sign? (exact (round (x / powerStep) * powerStep)) = sign? (exact x) := by
    change sign? (unpack .binary64 (pack .binary64 (mul .binary64 _ (exact powerStep)))) = _
    rw [sign?_unpack_pack, step, sign?_mul_finite]
    change sign? (exact (round (x / powerStep))) = _
    rw [sign?_round]
    change sign? (unpack .binary64 (pack .binary64 (div .binary64 _ (exact powerStep)))) = _
    rw [sign?_unpack_pack, step, sign?_div_finite]
    rfl
  rw [steppedPower, scaled]
  change sign? (unpack .binary64 (pack .binary64 (mul .binary64 (exact (burn.toFloat / 255))
    (exact layerPower)))) = _
  rw [sign?_unpack_pack]
  by_cases zero : burn = 0
  · rw [zero, exact_burn_zero]
    unfold Number.isFinite
    rcases exact layerPower with ⟨⟨⟩⟩ | _ | ⟨⟨⟩⟩ | ⟨⟨⟩, _⟩ <;> rfl
  · obtain ⟨m, e, positive, share⟩ := exact_burn_positive zero
    rw [share, sign?_finite_mul, if_neg fun both => zero both.1]

end power

/-- Powers that compare equal are the same, so a zero has one sign. -/
def ComparesExactly (powers : List Float) : Prop :=
  ∀ power ∈ powers, ∀ other ∈ powers, power == other → power = other

section runs

variable {α : Type}

/-- The pixels with the given powers, each with its number, in the order in which they are crossed.
-/
def walk (powers : List Float) (reverse : Bool) : List (Nat × Float) :=
  let pixels := powers.mapIdx fun i power => (i, power)
  if reverse then pixels.reverse else pixels

/-- What runs from `entry` to `exit` have to do with the pixels that they cross: they meet, they
have the powers of the pixels without repetitions, and behind the first one each starts at the place
of the first of its own pixels. -/
structure Merges (walked : List (Nat × Float)) (place : Nat → α) (entry exit : α)
    (runs : List (Run α)) : Prop where
  powers : runs.map Run.power = (walked.map Prod.snd).destutter (· != ·)
  differ : runs.IsChain fun run next => run.power != next.power
  first : runs.head?.map Run.start = some entry
  last : runs.getLast?.map Run.stop = some exit
  meet : runs.IsChain fun run next => next.start = run.stop
  stretches : ∃ stretches : List (List (Nat × Float)), stretches.flatten = walked ∧
    List.Forall₂ (fun run stretch => stretch ≠ [] ∧ ∀ pixel ∈ stretch, pixel.2 = run.power)
      runs stretches ∧
    runs.tail.map Run.start =
      stretches.tail.filterMap fun stretch => stretch.head?.map fun pixel => place pixel.1

theorem ComparesExactly.tail {power : Float} {powers : List Float}
    (exactly : ComparesExactly (power :: powers)) : ComparesExactly powers :=
  fun x member y member' => exactly x (.tail _ member) y (.tail _ member')

theorem ComparesExactly.head_eq {power next : Float} {powers : List Float}
    (exactly : ComparesExactly (power :: next :: powers)) (equal : ¬ (power != next) = true) :
    power = next :=
  exactly _ (by simp) _ (by simp) (by simpa [bne] using equal)

theorem map_power_runsFrom (stop start : α) (power : Float) (ahead : List (α × Float))
    (exactly : ComparesExactly (power :: ahead.map Prod.snd)) :
    (runsFrom stop start power ahead).map Run.power =
      (power :: ahead.map Prod.snd).destutter (· != ·) := by
  rw [List.destutter_cons']
  -- where the next pixel goes on with the run, `start` stays and the power must be seen as its own
  induction ahead generalizing start power with
  | nil => rfl
  | cons pixel ahead ih =>
    rw [List.map_cons, runsFrom, List.destutter'_cons]
    split
    · rw [List.map_cons, ih _ _ exactly.tail]
    · rename_i equal
      rw [exactly.head_eq equal]
      exact ih start _ exactly.tail

theorem head?_runsFrom (stop start : α) (power : Float) (ahead : List (α × Float)) :
    (runsFrom stop start power ahead).head?.map Run.start = some start := by
  induction ahead generalizing power with
  | nil => rfl
  | cons pixel ahead ih =>
    rw [runsFrom]
    split
    · rfl
    · exact ih pixel.2

theorem isChain_runsFrom (stop start : α) (power : Float) (ahead : List (α × Float)) :
    (runsFrom stop start power ahead).IsChain fun run next => next.start = run.stop := by
  induction ahead generalizing start power with
  | nil => exact .singleton _
  | cons pixel ahead ih =>
    rw [runsFrom]
    split
    · refine (ih pixel.1 pixel.2).cons fun next follows => ?_
      have head := head?_runsFrom stop pixel.1 pixel.2 ahead
      rw [Option.mem_def.mp follows] at head
      exact Option.some.inj head
    · exact ih start pixel.2

/-- The runs share out the pixels ahead and the one that they start with. -/
theorem stretches_runsFrom (place : Nat → α) (stop start : α) (i : Nat) {power : Float}
    {ahead : List (Nat × Float)} (exactly : ComparesExactly (power :: ahead.map Prod.snd)) :
    ∃ own rest, own ++ rest.flatten = ahead ∧
      List.Forall₂ (fun run stretch => stretch ≠ [] ∧ ∀ pixel ∈ stretch, pixel.2 = run.power)
        (runsFrom stop start power (ahead.map fun pixel => (place pixel.1, pixel.2)))
        (((i, power) :: own) :: rest) ∧
      (runsFrom stop start power (ahead.map fun pixel => (place pixel.1, pixel.2))).map Run.start =
        start :: rest.filterMap fun stretch => stretch.head?.map fun pixel => place pixel.1 := by
  induction ahead generalizing start i power with
  | nil => exact ⟨[], [], rfl, .cons ⟨by simp, by simp⟩ .nil, rfl⟩
  | cons pixel ahead ih =>
    obtain ⟨next, nextPower⟩ := pixel
    rw [List.map_cons, runsFrom]
    split
    · obtain ⟨own, rest, shared, carried, starts⟩ := ih (place next) next exactly.tail
      refine ⟨[], ((next, nextPower) :: own) :: rest, by simp [shared],
        .cons ⟨by simp, by simp⟩ carried, ?_⟩
      rw [List.map_cons, starts]
      rfl
    · rename_i equal
      have same : power = nextPower := exactly.head_eq equal
      subst same
      obtain ⟨own, rest, shared, carried, starts⟩ := ih start next exactly.tail
      refine ⟨(next, power) :: own, rest, by simp [shared], ?_, starts⟩
      generalize runsFrom stop start power _ = runs at carried ⊢
      cases carried with
      | cons first others =>
        refine .cons ⟨by simp, fun pixel member => ?_⟩ others
        rcases List.mem_cons.mp member with rfl | member
        · exact first.2 (next, power) (by simp)
        · exact first.2 pixel member

/-- Runs from one pixel on merge that pixel and those ahead. -/
theorem merges_runsFrom (place : Nat → α) (entry exit : α) (i : Nat) {power : Float}
    {ahead : List (Nat × Float)} (exactly : ComparesExactly (power :: ahead.map Prod.snd)) :
    Merges ((i, power) :: ahead) place entry exit
      (runsFrom exit entry power (ahead.map fun pixel => (place pixel.1, pixel.2))) := by
  have values : (ahead.map fun pixel => (place pixel.1, pixel.2)).map Prod.snd =
      ahead.map Prod.snd := by
    simp
  have powers := map_power_runsFrom exit entry power
    (ahead.map fun pixel => (place pixel.1, pixel.2)) (by rwa [values])
  rw [values] at powers
  obtain ⟨own, rest, shared, carried, starts⟩ := stretches_runsFrom place exit entry i exactly
  refine ⟨powers, ?_, head?_runsFrom exit entry power _, getLast?_runsFrom exit entry power _,
    isChain_runsFrom exit entry power _, ((i, power) :: own) :: rest, by simp [shared], carried, ?_⟩
  · have chain := List.isChain_destutter (fun x y : Float => (x != y) = true)
      (power :: ahead.map Prod.snd)
    rw [← powers] at chain
    exact List.isChain_map Run.power |>.mp chain
  · rw [List.map_tail, starts]
    rfl

theorem map_snd_walk (powers : List Float) (reverse : Bool) :
    (walk powers reverse).map Prod.snd = if reverse then powers.reverse else powers := by
  have all : (powers.mapIdx fun i power => (i, power)).map Prod.snd = powers :=
    List.ext_getElem (by simp) (by simp)
  unfold walk
  cases reverse with
  | false => exact all
  | true => exact (List.map_reverse).trans (congrArg List.reverse all)

theorem mem_powers_walk {powers : List Float} {reverse : Bool} {power : Float} :
    power ∈ (walk powers reverse).map Prod.snd ↔ power ∈ powers := by
  rw [map_snd_walk]
  cases reverse with
  | false => exact Iff.rfl
  | true => exact List.mem_reverse

theorem ComparesExactly.walked {powers : List Float} (exactly : ComparesExactly powers)
    (reverse : Bool) : ComparesExactly ((walk powers reverse).map Prod.snd) :=
  fun x member y member' =>
    exactly x (mem_powers_walk.mp member) y (mem_powers_walk.mp member')

theorem runsOf_walk (low high : α) (place : Nat → α) (powers : List Float) (reverse : Bool) :
    runsOf low high place powers reverse =
      match walk powers reverse with
      | [] => []
      | (_, power) :: ahead => runsFrom (if reverse then low else high)
          (if reverse then high else low) power
          (ahead.map fun pixel => (place pixel.1, pixel.2)) := by
  have placed : (powers.mapIdx fun i power => (place i, power)) =
      (powers.mapIdx fun i power => (i, power)).map fun pixel => (place pixel.1, pixel.2) :=
    List.ext_getElem (by simp) (by simp)
  unfold runsOf walk
  dsimp only
  rw [placed]
  cases reverse with
  | false =>
    cases powers.mapIdx fun i power => (i, power) <;> rfl
  | true =>
    rw [← List.map_reverse]
    cases (powers.mapIdx fun i power => (i, power)).reverse <;> rfl

theorem merges_runsOf (low high : α) (place : Nat → α) {powers : List Float} (reverse : Bool)
    (pixels : powers ≠ []) (exactly : ComparesExactly powers) :
    Merges (walk powers reverse) place (if reverse then high else low)
      (if reverse then low else high) (runsOf low high place powers reverse) := by
  have values := map_snd_walk powers reverse
  have exactlyWalked := exactly.walked reverse
  rw [runsOf_walk]
  cases walked : walk powers reverse with
  | nil =>
    rw [walked] at values
    cases reverse <;> simp [pixels] at values
  | cons pixel ahead =>
    rw [walked] at exactlyWalked
    exact merges_runsFrom place _ _ pixel.1 exactlyWalked

end runs

section spans

variable {α : Type} (before : α → α → Prop)

/-- The run starts at `x` or before it and stops behind it. -/
def Run.Spans (run : Run α) (x : α) : Prop :=
  (run.start = x ∨ before run.start x) ∧ before x run.stop

/-- The first run starts at `start`; it and the others go on at places of pixels ahead. -/
theorem runsFrom_eq_cons (stop start : α) {power : Float} {ahead : List (α × Float)}
    (exactly : ComparesExactly (power :: ahead.map Prod.snd)) :
    ∃ turn rest, runsFrom stop start power ahead = ⟨start, turn, power⟩ :: rest ∧
      (turn = stop ∨ turn ∈ ahead.map Prod.fst) ∧ ∀ run ∈ rest, run.start ∈ ahead.map Prod.fst := by
  induction ahead generalizing start power with
  | nil => exact ⟨stop, [], rfl, .inl rfl, nofun⟩
  | cons pixel ahead ih =>
    obtain ⟨place, next⟩ := pixel
    rw [runsFrom]
    split
    · obtain ⟨turn, rest, equal, -, behind⟩ := ih place exactly.tail
      refine ⟨place, _, rfl, .inr (by simp), fun run member => ?_⟩
      rw [equal] at member
      rcases List.mem_cons.mp member with rfl | member
      · simp
      · exact .tail _ (behind run member)
    · rename_i equal
      have same : power = next := exactly.head_eq equal
      subst same
      obtain ⟨turn, rest, equal, stops, behind⟩ := ih start exactly.tail
      exact ⟨turn, rest, equal, stops.imp_right (.tail _), fun run member =>
        .tail _ (behind run member)⟩

variable [IsStrictOrder α before]

omit [IsStrictOrder α before] in
theorem Run.not_spans [Std.Asymm before] {run : Run α} {x : α} (ahead : before x run.start) :
    ¬ run.Spans before x := by
  rintro ⟨rfl | behind, -⟩
  · exact asymm_of before ahead ahead
  · exact asymm_of before ahead behind

/-- The pixel that the runs start with lies in the first of them alone. -/
theorem spans_first {stop place : α} (start : α) {power : Float} {ahead : List (α × Float)}
    (exactly : ComparesExactly (power :: ahead.map Prod.snd))
    (behind : ∀ x ∈ ahead.map Prod.fst, before place x) (inside : before place stop)
    (entered : start = place ∨ before start place) :
    ∃ run ∈ runsFrom stop start power ahead, run.Spans before place ∧ run.power = power ∧
      ∀ other ∈ runsFrom stop start power ahead, other.Spans before place → other = run := by
  obtain ⟨turn, rest, equal, stops, starts⟩ := runsFrom_eq_cons stop start exactly
  have later : before place turn := by
    rcases stops with rfl | ahead
    · exact inside
    · exact behind turn ahead
  rw [equal]
  refine ⟨_, .head _, ⟨entered, later⟩, rfl, ?_⟩
  rintro other (_ | ⟨_, member⟩) spans
  · rfl
  · exact absurd spans (Run.not_spans before (behind _ (starts other member)))

/-- Where the pixels lie one behind the other, each lies in one run, and that has its power. -/
theorem spans_runsFrom {stop place : α} (start : α) {power : Float} {ahead : List (α × Float)}
    (exactly : ComparesExactly (power :: ahead.map Prod.snd))
    (sorted : (place :: ahead.map Prod.fst).Pairwise before)
    (inside : ∀ x ∈ place :: ahead.map Prod.fst, before x stop)
    (entered : start = place ∨ before start place) :
    ∀ pixel ∈ (place, power) :: ahead, ∃ run ∈ runsFrom stop start power ahead,
      run.Spans before pixel.1 ∧ run.power = pixel.2 ∧
        ∀ other ∈ runsFrom stop start power ahead, other.Spans before pixel.1 → other = run := by
  -- the run in progress was entered at `place` or before it, which a longer run keeps true
  induction ahead generalizing start place power with
  | nil =>
    intro pixel member
    rw [List.mem_singleton.mp member]
    exact spans_first before start exactly nofun (inside place (.head _)) entered
  | cons pixel ahead ih =>
    obtain ⟨next, nextPower⟩ := pixel
    obtain ⟨behind, sortedAhead⟩ := List.pairwise_cons.mp sorted
    have step : before place next := behind next (.head _)
    have insideAhead : ∀ x ∈ next :: ahead.map Prod.fst, before x stop :=
      fun x member => inside x (.tail _ member)
    rintro pixel (_ | ⟨_, member⟩)
    · exact spans_first before start exactly behind (inside place (.head _)) entered
    rw [runsFrom]
    split
    · obtain ⟨run, among, spans, power, only⟩ :=
        ih next exactly.tail sortedAhead insideAhead (.inl rfl) pixel member
      refine ⟨run, .tail _ among, spans, power, ?_⟩
      rintro other (_ | ⟨_, member'⟩) spans'
      · -- the first run stops at `next`, which no pixel ahead lies before
        have early : before pixel.1 next := spans'.2
        rcases List.mem_cons.mp member with rfl | member
        · exact absurd early (irrefl_of before next)
        · have late := (List.pairwise_cons.mp sortedAhead).1 _ (List.mem_map_of_mem member)
          exact absurd late (asymm_of before early)
      · exact only other member' spans'
    · rename_i equal
      have same : power = nextPower := exactly.head_eq equal
      subst same
      have approached : start = next ∨ before start next :=
        .inr (entered.elim (fun here => here ▸ step) fun earlier => trans_of before earlier step)
      exact ih start exactly.tail sortedAhead insideAhead approached pixel member

end spans

section walk

theorem mem_walk {powers : List Float} (reverse : Bool) {i : Nat} (inside : i < powers.length) :
    (i, powers[i]) ∈ walk powers reverse := by
  have member : (i, powers[i]) ∈ powers.mapIdx fun i power => (i, power) :=
    List.mem_mapIdx.mpr ⟨i, inside, rfl⟩
  unfold walk
  cases reverse with
  | false => exact member
  | true => exact List.mem_reverse.mpr member

theorem map_fst_walk (powers : List Float) (reverse : Bool) :
    (walk powers reverse).map Prod.fst =
      if reverse then (List.range powers.length).reverse else List.range powers.length := by
  have all : (powers.mapIdx fun i power => (i, power)).map Prod.fst = List.range powers.length :=
    List.ext_getElem (by simp) (by simp)
  unfold walk
  cases reverse with
  | false => exact all
  | true => exact List.map_reverse.trans (congrArg List.reverse all)

theorem lt_length_of_mem_walk {powers : List Float} {reverse : Bool} {pixel : Nat × Float}
    (member : pixel ∈ walk powers reverse) : pixel.1 < powers.length := by
  have number := List.mem_map_of_mem (f := Prod.fst) member
  rw [map_fst_walk] at number
  cases reverse with
  | false => exact List.mem_range.mp number
  | true => exact List.mem_range.mp (List.mem_reverse.mp number)

/-- Where the pixels of a whole line lie one behind the other and between its edges, in the order in
which they are crossed, each lies in one run, and that has its power. -/
theorem spans_runsOf {α : Type} (before : α → α → Prop) [IsStrictOrder α before] {low high : α}
    (place : Nat → α) {powers : List Float} (reverse : Bool) (exactly : ComparesExactly powers)
    (sorted : ((walk powers reverse).map Prod.fst).Pairwise fun i j => before (place i) (place j))
    (between : ∀ i < powers.length, before (if reverse then high else low) (place i) ∧
      before (place i) (if reverse then low else high)) {i : Nat} (inside : i < powers.length) :
    ∃ run ∈ runsOf low high place powers reverse, run.Spans before (place i) ∧
      run.power = powers[i] ∧ ∀ other ∈ runsOf low high place powers reverse,
        other.Spans before (place i) → other = run := by
  have exactlyWalked := exactly.walked reverse
  have member := mem_walk reverse inside
  have all (pixel) (among : pixel ∈ walk powers reverse) := lt_length_of_mem_walk among
  rw [runsOf_walk]
  cases walked : walk powers reverse with
  | nil => simp [walked] at member
  | cons first ahead =>
    rw [walked] at exactlyWalked member sorted all
    have places : (ahead.map fun pixel => (place pixel.1, pixel.2)).map Prod.fst =
        (ahead.map Prod.fst).map place := by
      simp
    have values : (ahead.map fun pixel => (place pixel.1, pixel.2)).map Prod.snd =
        ahead.map Prod.snd := by
      simp
    have carried : ComparesExactly
        (first.2 :: (ahead.map fun pixel => (place pixel.1, pixel.2)).map Prod.snd) := by
      rwa [values]
    refine spans_runsFrom before _ carried ?_ ?_ (.inr (between first.1 (all first (.head _))).1)
      (place i, powers[i])
      (List.mem_map_of_mem (f := fun pixel : Nat × Float => (place pixel.1, pixel.2)) member)
    · rw [places]
      exact (List.pairwise_map (l := first.1 :: ahead.map Prod.fst)).mpr sorted
    · rw [places]
      intro x among
      have among : x ∈ (first :: ahead).map fun pixel => place pixel.1 := by simpa using among
      obtain ⟨pixel, crossed, rfl⟩ := List.mem_map.mp among
      exact (between pixel.1 (all pixel crossed)).2

end walk

/-- The powers of one scan line are NaN or have one sign, so equal ones are the same. -/
theorem comparesExactly_steppedPower (burns : List UInt8) (layerPower : Float) :
    ComparesExactly (burns.map fun burn => steppedPower burn layerPower) := by
  intro power member other member' equal
  obtain ⟨burn, -, rfl⟩ := List.mem_map.mp member
  obtain ⟨burn', -, rfl⟩ := List.mem_map.mp member'
  apply eq_of_beq equal
  obtain ⟨p, atPower, atOther⟩ := beq_iff_place.mp equal
  have number : sign? (exact (steppedPower burn layerPower)) ≠ none := by
    rw [Ne, sign?_eq_none_iff, atPower]
    nofun
  have number' : sign? (exact (steppedPower burn' layerPower)) ≠ none := by
    rw [Ne, sign?_eq_none_iff, atOther]
    nofun
  rw [sign?_steppedPower] at number number' ⊢
  rw [sign?_steppedPower]
  split at number
  · exact absurd rfl number
  · split at number'
    · exact absurd rfl number'
    · rw [if_neg ‹_›, if_neg ‹_›]

section centres

variable {low high : ℚ} {n : Nat}

theorem centreOf_strictMono (order : low < high) (pixels : 0 < n) {i j : Nat} (less : i < j) :
    centreOf (1 / 2) low high (n : ℚ) i < centreOf (1 / 2) low high (n : ℚ) j := by
  have width : 0 < high - low := sub_pos.mpr order
  have count : (0 : ℚ) < n := by exact_mod_cast pixels
  have numbers : (i : ℚ) < j := by exact_mod_cast less
  unfold centreOf
  gcongr

theorem centreOf_inside (order : low < high) {i : Nat} (inside : i < n) :
    low < centreOf (1 / 2) low high (n : ℚ) i ∧ centreOf (1 / 2) low high (n : ℚ) i < high := by
  have width : 0 < high - low := sub_pos.mpr order
  have count : (0 : ℚ) < n := by exact_mod_cast Nat.zero_lt_of_lt inside
  have number : (i : ℚ) + 1 ≤ n := by exact_mod_cast inside
  have share : ((i : ℚ) + 1 / 2) / n < 1 := by
    rw [div_lt_one count]
    linarith
  have positive : 0 < ((i : ℚ) + 1 / 2) / n := by positivity
  unfold centreOf
  constructor
  · nlinarith
  · nlinarith

end centres

/-- A run between exact places covers those from its start, which counts, to its stop, which does
not. -/
def Run.Covers (reverse : Bool) (run : Run ℚ) (x : ℚ) : Prop :=
  if reverse then run.stop < x ∧ x ≤ run.start else run.start ≤ x ∧ x < run.stop

theorem Run.covers_iff_spans (reverse : Bool) (run : Run ℚ) (x : ℚ) :
    run.Covers reverse x ↔ run.Spans (if reverse then (· > ·) else (· < ·)) x := by
  unfold Covers Spans
  cases reverse with
  | false => simp [le_iff_eq_or_lt]
  | true => simp [le_iff_eq_or_lt, and_comm, eq_comm]

/-- With exact centres each pixel lies in one run, and that has its power. -/
theorem covers_runsOf {low high : ℚ} (order : low < high) {powers : List Float} (reverse : Bool)
    (exactly : ComparesExactly powers) {i : Nat} (inside : i < powers.length) :
    let centre (i : Nat) : ℚ := centreOf (1 / 2) low high powers.length i
    ∃ run ∈ runsOf low high centre powers reverse, run.Covers reverse (centre i) ∧
      run.power = powers[i] ∧
        ∀ other ∈ runsOf low high centre powers reverse, other.Covers reverse (centre i) →
          other = run := by
  intro centre
  have pixels : 0 < powers.length := Nat.zero_lt_of_lt inside
  have within (i : Nat) (inside : i < powers.length) := centreOf_inside order inside
  have numbers := map_fst_walk powers reverse
  simp only [Run.covers_iff_spans]
  cases reverse with
  | false =>
    refine spans_runsOf (· < ·) centre false exactly ?_ within inside
    rw [numbers]
    exact List.pairwise_lt_range.imp fun less => centreOf_strictMono order pixels less
  | true =>
    refine spans_runsOf (· > ·) centre true exactly ?_ (fun i inside => (within i inside).symm)
      inside
    rw [numbers]
    exact List.pairwise_reverse.mpr
      (List.pairwise_lt_range.imp fun less => centreOf_strictMono order pixels less)

/-- Among powers that are numbers, leaving out equal neighbours is leaving out repetitions. -/
theorem destutter_bne {powers : List Float} (exactly : ComparesExactly powers)
    (numbers : ∀ power ∈ powers, power == power) :
    powers.destutter (· != ·) = powers.destutter (· ≠ ·) := by
  have differ : ∀ x ∈ powers, ∀ y ∈ powers, (x != y) = true ↔ id x ≠ id y := by
    intro x member y member'
    rw [bne, Bool.not_eq_true', Bool.eq_false_iff]
    refine not_congr ⟨exactly x member y member', fun same => ?_⟩
    rw [← show x = y from same]
    exact numbers x member
  have collapsed := List.map_destutter differ
  rwa [List.map_id, List.map_id] at collapsed

/-- Under a finite layer power, and under an infinite one where all pixels burn, no power is NaN. -/
theorem steppedPower_beq_self {burns : List UInt8} {layerPower : Float}
    (numbers : Number.isFinite layerPower ∨ ¬ layerPower.isNaN ∧ 0 ∉ burns) {burn : UInt8}
    (member : burn ∈ burns) :
    steppedPower burn layerPower == steppedPower burn layerPower := by
  rw [beq_self_iff, sign?_steppedPower]
  have signed : sign? (exact layerPower) ≠ none := by
    rcases numbers with finite | ⟨number, -⟩
    · exact beq_self_iff.mp (beq_self_of_isFinite finite)
    · intro signless
      apply number
      change (exact layerPower).isNaN = true
      cases known : exact layerPower <;> simp_all [sign?, Float.Model.UnpackedFloat.isNaN]
  rw [if_neg]
  · exact signed
  · rintro ⟨rfl, infinite⟩
    rcases numbers with finite | ⟨-, burning⟩
    · exact infinite finite
    · exact burning member

/-- Merging the pixels of a scan line loses nothing and leaves nothing to merge, whichever way the
line is crossed: the runs lead from the edge that is reached first to the other one and are what
`Merges` says. That compares powers as numbers; if none of them is NaN, equal ones are the same.
Between exact edges each pixel's centre lies in one run, and that has the power of the pixel. -/
theorem merging_lossless (burns : List UInt8) (layerPower low high : Float) (reverse : Bool)
    (pixels : burns ≠ []) :
    let powers := burns.map fun burn => steppedPower burn layerPower
    let runs := burnRuns burns layerPower low high reverse
    Merges (walk powers reverse) (pixelCentre burns.length low high)
        (if reverse then high else low) (if reverse then low else high) runs ∧
      runs.length ≤ burns.length ∧
      (Number.isFinite layerPower ∨ ¬ layerPower.isNaN ∧ 0 ∉ burns →
        runs.map Run.power = ((walk powers reverse).map Prod.snd).destutter (· ≠ ·)) ∧
      ∀ low high : ℚ, low < high → ∀ (i : Nat) (inside : i < burns.length),
        let centre (i : Nat) : ℚ := centreOf (1 / 2) low high burns.length i
        ∃ run ∈ runsOf low high centre powers reverse, run.Covers reverse (centre i) ∧
          run.power = steppedPower burns[i] layerPower ∧
            ∀ other ∈ runsOf low high centre powers reverse, other.Covers reverse (centre i) →
              other = run := by
  intro powers runs
  have exactly := comparesExactly_steppedPower burns layerPower
  have filled : powers ≠ [] := by simpa [powers] using pixels
  have merges : Merges (walk powers reverse) (pixelCentre burns.length low high)
      (if reverse then high else low) (if reverse then low else high) runs :=
    merges_runsOf low high _ reverse filled exactly
  refine ⟨merges, ?_, fun numbers => ?_, fun low high order i inside => ?_⟩
  -- repetitions are only left out
  · have fewer := (List.destutter_sublist (fun x y : Float => (x != y) = true)
      ((walk powers reverse).map Prod.snd)).length_le
    rw [← merges.powers, map_snd_walk] at fewer
    cases reverse <;> simpa [powers] using fewer
  · refine merges.powers.trans (destutter_bne (exactly.walked reverse) fun power member => ?_)
    obtain ⟨burn, burning, rfl⟩ := List.mem_map.mp (mem_powers_walk.mp member)
    exact steppedPower_beq_self numbers burning
  · have covered := covers_runsOf order reverse exactly (i := i) (by simpa using inside)
    simpa using covered

/-- Two dark pixels and two burning ones, crossed from the high end: the runs turn at the centre of
the first dark one. -/
theorem merging_lossless_backwards :
    let burns : List UInt8 := [0, 0, 255, 255]
    let runs := burnRuns burns 100 0 4 true
    let centre (i : Nat) : ℚ := centreOf (1 / 2) 0 4 4 i
    burns ≠ [] ∧ Number.isFinite 100 ∧ (0 : ℚ) < 4 ∧
      runs = [⟨4, 1.5, 100⟩, ⟨1.5, 0, 0⟩] ∧
      runs.map Run.power = [(100 : Float), 100, 0, 0].destutter (· ≠ ·) ∧
      runs.IsChain (fun run next => next.start = run.stop) ∧
      ∃ run ∈ runsOf 0 4 centre [0, 0, 100, 100] true, run.Covers true (3 / 2) ∧ run.power = 0 := by
  intro burns runs centre
  have dark : steppedPower 0 100 = 0 := by decide +kernel
  have bright : steppedPower 255 100 = 100 := by decide +kernel
  have powers : (burns.map fun burn => steppedPower burn 100) = [0, 0, 100, 100] := by
    simp only [burns, List.map_cons, List.map_nil, dark, bright]
  obtain ⟨merges, -, same, covers⟩ := merging_lossless burns 100 0 4 true (by decide)
  refine ⟨by decide, by decide, by norm_num, by decide +kernel, ?_, merges.meet, ?_⟩
  · have collapsed := same (.inl (by decide))
    rw [powers] at collapsed
    exact collapsed
  · obtain ⟨run, among, covered, power, -⟩ := covers 0 4 (by norm_num) 1 (by decide)
    rw [powers] at among
    have place : centreOf (1 / 2) 0 4 ((burns.length : ℕ) : ℚ) ((1 : ℕ) : ℚ) = 3 / 2 := by
      norm_num [centreOf, burns]
    exact ⟨run, among, place ▸ covered, power.trans dark⟩

end LaserCutter
