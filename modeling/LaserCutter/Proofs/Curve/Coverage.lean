import LaserCutter.Proofs.Curve.Lengths
import LaserCutter.Proofs.Number.Multiples
import LaserCutter.Proofs.Toolpath.Success
import Mathlib.Data.List.Destutter

/-!
# How samples cover a path

Of the points at the multiples of a step and the end, sampling drops those near the point kept
before them. So the points of a path are far from each other, and whatever is left out is near one of
them (`Path.samples_cover`). A finite step is sampled at no more points than it has steps in the
length and one; an infinite one still at both ends.
-/

namespace LaserCutter

open Number

section destutter

variable {α : Type} {R : α → α → Prop} [DecidableRel R]

/-- A list in runs: each is led by an element that is kept, and the others in it are dropped because
of that one. -/
theorem exists_runs_destutter' (a : α) (l : List α) :
    ∃ runs : List (α × List α), runs.map Prod.fst = l.destutter' R a ∧
      runs.flatMap (fun run => run.1 :: run.2) = a :: l ∧ ∀ run ∈ runs, ∀ b ∈ run.2, ¬ R run.1 b := by
  induction l generalizing a with
  | nil => exact ⟨[(a, [])], rfl, rfl, by simp⟩
  | cons b l ih =>
    by_cases kept : R a b
    · obtain ⟨runs, leaders, whole, dropped⟩ := ih b
      refine ⟨(a, []) :: runs, ?_, ?_, ?_⟩
      · rw [List.destutter'_cons_pos _ kept, List.map_cons, leaders]
      · rw [List.flatMap_cons, whole]
        rfl
      · exact List.forall_mem_cons.mpr ⟨by simp, dropped⟩
    · obtain ⟨runs, leaders, whole, dropped⟩ := ih a
      cases runs with
      | nil => contradiction
      | cons run runs =>
        obtain ⟨leader, others⟩ := run
        rw [List.flatMap_cons, List.cons_append, List.cons.injEq] at whole
        obtain ⟨rfl, rest⟩ := whole
        rw [List.forall_mem_cons] at dropped
        refine ⟨(leader, b :: others) :: runs, ?_, ?_, ?_⟩
        · rw [List.destutter'_cons_neg _ kept, ← leaders]
          rfl
        · rw [List.flatMap_cons, List.cons_append, List.cons_append, rest]
        · exact List.forall_mem_cons.mpr
            ⟨List.forall_mem_cons.mpr ⟨kept, dropped.1⟩, dropped.2⟩

theorem exists_getLast?_destutter' (a : α) (l : List α) :
    ∃ last, (l.destutter' R a).getLast? = some last := by
  refine Option.ne_none_iff_exists'.mp ?_
  rw [Ne, List.getLast?_eq_none_iff]
  exact List.destutter'_ne_nil l R

/-- One more element is kept if the last one kept so far lets it be. -/
theorem destutter'_concat {a last : α} {l : List α} (b : α)
    (final : (l.destutter' R a).getLast? = some last) :
    (l ++ [b]).destutter' R a = l.destutter' R a ++ if R last b then [b] else [] := by
  induction l generalizing a with
  | nil =>
    obtain rfl : a = last := Option.some.inj final
    rw [List.nil_append, List.destutter'_singleton, List.destutter'_nil]
    split <;> rfl
  | cons c l ih =>
    rw [List.cons_append]
    by_cases kept : R a c
    · obtain ⟨x, known⟩ := exists_getLast?_destutter' (R := R) c l
      rw [List.destutter'_cons_pos _ kept, List.getLast?_cons, known] at final
      cases final
      rw [List.destutter'_cons_pos _ kept, List.destutter'_cons_pos _ kept, ih known,
        List.cons_append]
    · rw [List.destutter'_cons_neg _ kept] at final ⊢
      rw [List.destutter'_cons_neg _ kept, ih final]

end destutter

/-- Not dropped for being near the point kept before it. -/
def Point.Far (p q : Point) : Prop := ¬ q.near p leastMove

instance : DecidableRel Point.Far := fun p q => inferInstanceAs (Decidable (¬ q.near p leastMove))

theorem Point.near_self_of_isFinite {p : Point} (finite : p.isFinite) : p.near p leastMove := by
  rw [isFinite, Bool.and_eq_true] at finite
  rw [near, sub_self_eq, sub_self_eq, finite.1, finite.2]
  decide

namespace MeasuredPath

variable {m : MeasuredPath} {place : Float → Point}

/-- Up to the first multiple that reaches the length, sampling keeps each point that is far from the
one kept before. -/
theorem sampleFrom_eq (placed : ∀ offset, m.pointAt offset = .ok (some (place offset)))
    (step length : Float) {count steps k : Nat} (last : Point) (earlier : List Point)
    (before : ∀ j, k ≤ j → j < k + count → ¬ length ≤ j.toUInt64.toFloat * step)
    (reached : length ≤ (k + count).toUInt64.toFloat * step) (fits : count < steps) :
    ∃ final kept, m.sampleFrom step length steps k last (last :: earlier) = .ok (final, kept) ∧
      kept.head? = some final ∧
      kept.reverse = earlier.reverse ++
        ((List.range' k count).map fun j => place (j.toUInt64.toFloat * step)).destutter'
          Point.Far last := by
  induction count generalizing steps k last earlier with
  | zero =>
    obtain ⟨steps, rfl⟩ := Nat.exists_eq_succ_of_ne_zero (Nat.ne_of_gt fits)
    refine ⟨last, last :: earlier, ?_, rfl, List.reverse_cons⟩
    unfold sampleFrom
    exact if_pos reached
  | succ count ih =>
    obtain ⟨steps, rfl⟩ := Nat.exists_eq_succ_of_ne_zero (Nat.ne_of_gt (Nat.zero_lt_of_lt fits))
    have fits' : count < steps := by omega
    have rest (next : Point) (seen : List Point) := ih (k := k + 1) next seen
      (fun j low high => before j (by omega) (by omega)) (by rwa [Nat.add_right_comm]) fits'
    unfold sampleFrom
    dsimp only
    rw [if_neg (before k le_rfl (by omega)), placed, List.range'_succ, List.map_cons]
    dsimp only
    by_cases near : (place (k.toUInt64.toFloat * step)).near last leastMove
    · rw [if_pos near, List.destutter'_cons_neg _ (not_not.mpr near)]
      exact rest last earlier
    · rw [if_neg near, List.destutter'_cons_pos _ near]
      obtain ⟨final, kept, result, head, order⟩ := rest _ (last :: earlier)
      refine ⟨final, kept, result, head, ?_⟩
      rw [order, List.reverse_cons, List.append_assoc]
      rfl

/-- How many multiples of the step are in front of the end. -/
theorem exists_count {step length : Float} (positive : 0 < step)
    (few : length ≤ (UInt32.size - 1).toUInt64.toFloat * step) :
    ∃ count, count < UInt32.size - 1 ∧ length ≤ (1 + count).toUInt64.toFloat * step ∧
      ∀ k, 1 ≤ k → k < UInt32.size → (k.toUInt64.toFloat * step < length ↔ k ≤ count) := by
  classical
  have reaches : ∃ count, length ≤ (1 + count).toUInt64.toFloat * step :=
    ⟨UInt32.size - 2, few⟩
  have most : Nat.find reaches ≤ UInt32.size - 2 := Nat.find_min' reaches few
  have size : UInt32.size = 2 ^ 32 := rfl
  refine ⟨Nat.find reaches, by omega, Nat.find_spec reaches, fun k one small => ?_⟩
  constructor
  · intro less
    by_contra behind
    have up := multiple_mono positive (by omega) (show 1 + Nat.find reaches ≤ k by omega) small
    exact float_not_lt_of_le (float_le_trans (Nat.find_spec reaches) up) less
  · intro inside
    have before := Nat.find_min reaches (m := k - 1) (by omega)
    rw [Nat.add_sub_cancel' one] at before
    have number := (numbers_of_float_le (multiple_mono positive one le_rfl small)).1
    exact (float_lt_or_le_of_number number (numbers_of_float_le few).1).resolve_right before

end MeasuredPath

namespace Path

/-- The offset of the exact end: the start again if the path is closed. -/
def endOffset (path : Path) : Float := if path.closed then 0 else (MeasuredPath.ofPath path).length

/-- A path that is not too short is sampled to the points of its multiples of the step and its end,
without those that are near the one kept before. -/
theorem samples_eq {path : Path} {step : Float} {place : Float → Point} {count : Nat}
    (filled : path.segments ≠ []) (positive : 0 < step)
    (long : ¬ (MeasuredPath.ofPath path).length < leastMove)
    (placed : ∀ offset, (MeasuredPath.ofPath path).pointAt offset = .ok (some (place offset)))
    (fits : count < UInt32.size - 1)
    (reached : (MeasuredPath.ofPath path).length ≤ (1 + count).toUInt64.toFloat * step)
    (before : ∀ j, 1 ≤ j → j < 1 + count →
      ¬ (MeasuredPath.ofPath path).length ≤ j.toUInt64.toFloat * step) :
    path.samples step = .ok (((List.range' 1 count).map (fun j =>
      place (j.toUInt64.toFloat * step)) ++ [place path.endOffset]).destutter'
        Point.Far (place 0)) := by
  obtain ⟨final, kept, result, head, order⟩ :=
    MeasuredPath.sampleFrom_eq placed step _ (place 0) [] before reached fits
  rw [List.reverse_nil, List.nil_append] at order
  have last := congrArg List.getLast? order.symm
  rw [List.getLast?_reverse, head] at last
  have close (stop : Point) : (kept.reverse ++ if final.Far stop then [stop] else []) =
      if stop.near final leastMove then kept.reverse else (stop :: kept).reverse := by
    by_cases near : stop.near final leastMove <;> simp [Point.Far, near]
  simp only [samples, two_le_vertexCount filled, positive, long, placed, result, decide_false,
    decide_true, Bool.not_true, Bool.or_self, Bool.false_eq_true, if_false, bind, Except.bind]
  rw [destutter'_concat _ last, ← order, close, endOffset]
  split <;> split <;> rfl

/-- What `points` have to do with the points at the multiples of the step, between the start and the
exact end of a path. -/
structure Covers (start stop : Point) (multiples points : List Point) : Prop where
  first : points.head? = some start
  /-- In order, some of the multiples, and possibly the end. -/
  sublist : points.Sublist (start :: (multiples ++ [stop]))
  far : points.IsChain fun p q => ¬ q.near p leastMove
  /-- What is left out is near the point kept before it. -/
  omitted : ∃ runs : List (Point × List Point), runs.map Prod.fst = points ∧
    runs.flatMap (fun run => run.1 :: run.2) = start :: (multiples ++ [stop]) ∧
    ∀ run ∈ runs, ∀ p ∈ run.2, p.near run.1 leastMove
  last : ∀ p ∈ points.getLast?, stop.near p leastMove

theorem covers_destutter' (start : Point) {stop : Point} (finite : stop.isFinite)
    (multiples : List Point) :
    Covers start stop multiples ((multiples ++ [stop]).destutter' Point.Far start) := by
  obtain ⟨runs, leaders, whole, near⟩ :=
    exists_runs_destutter' (R := Point.Far) start (multiples ++ [stop])
  have near (run) (member : run ∈ runs) (p) (dropped : p ∈ run.2) : p.near run.1 leastMove :=
    not_not.mp (near run member p dropped)
  refine ⟨?_, List.destutter'_sublist _ _ start, List.isChain_destutter' _ _ start,
    ⟨runs, leaders, whole, near⟩, ?_⟩
  · rw [← leaders]
    cases runs with
    | nil => contradiction
    | cons run rest =>
      rw [List.flatMap_cons, List.cons_append, List.cons.injEq] at whole
      rw [List.map_cons, List.head?_cons, whole.1]
  · obtain ⟨final, known⟩ := exists_getLast?_destutter' (R := Point.Far) start multiples
    rw [destutter'_concat stop known]
    by_cases far : final.Far stop
    · rw [if_pos far, List.getLast?_concat]
      rintro p ⟨⟩
      exact Point.near_self_of_isFinite finite
    · rw [if_neg far, List.append_nil, known]
      rintro p ⟨⟩
      exact not_not.mp far

/-- A path of one vertex, or one that is shorter than the least move, has no samples. -/
theorem samples_eq_nil {path : Path} (step : Float)
    (short : path.vertexCount < 2 ∨ (MeasuredPath.ofPath path).length < leastMove) :
    path.samples step = .ok [] := by
  unfold samples
  rcases short with few | tiny
  · rw [decide_eq_true few]
    rfl
  · split
    · rfl
    · rw [if_pos tiny]
      rfl

section steps

variable {length step : Float} {count : Nat} (positive : 0 < step) (small : count < UInt32.size)
  (before : 1 ≤ count → count.toUInt64.toFloat * step < length)

include positive small before

/-- The multiples in front of the end of a path that is not too short are fewer than the steps in its
length. -/
theorem count_lt_ceil {a b : ℚ} (bound : Stands .binary64 (exact length) a)
    (stands : Stands .binary64 (exact step) b) (long : ¬ length < leastMove) :
    (count : ℤ) < ⌈a / b⌉ := by
  have size := (float_lt_iff_of_stands stands_zero stands).mp positive
  obtain ⟨c, least, _⟩ := exists_stands (x := leastMove) (by decide)
  have low : 0 < c := (float_lt_iff_of_stands stands_zero least).mp (by decide)
  have high : c ≤ a := not_lt.mp (mt (float_lt_iff_of_stands bound least).mpr long)
  rw [Int.lt_ceil, lt_div_iff₀ size]
  cases count with
  | zero => simpa using low.trans_le high
  | succ count =>
    have less := lt_of_multiple_lt bound stands (low.trans_le high).le small (before (by omega))
    exact_mod_cast less

/-- No multiple of an infinite step is in front of the end. -/
theorem count_eq_zero (infinite : ¬ isFinite step) : count = 0 := by
  by_contra more
  have one := Nat.one_le_iff_ne_zero.mpr more
  exact not_multiple_lt_of_infinite positive infinite one small (before one)

end steps

/-- Sampling a path of finite length with a finite end, in steps that 32 bits count: it gives points
that cover the path, and none for a path that is too short. -/
theorem samples_cover (path : Path) (step : Float) (positive : 0 < step)
    (measured : isFinite (MeasuredPath.ofPath path).length)
    (few : (MeasuredPath.ofPath path).length ≤ (UInt32.size - 1).toUInt64.toFloat * step)
    (ends : ∀ stop, (MeasuredPath.ofPath path).pointAt path.endOffset = .ok (some stop) →
      stop.isFinite) :
    ∃ points, path.samples step = .ok points ∧
      (points = [] ↔ path.vertexCount < 2 ∨ (MeasuredPath.ofPath path).length < leastMove) ∧
      (points ≠ [] → ∃ start stop multiples,
        (MeasuredPath.ofPath path).pointAt 0 = .ok (some start) ∧
        (MeasuredPath.ofPath path).pointAt path.endOffset = .ok (some stop) ∧
        multiples.map (fun p => .ok (some p)) = (List.range' 1 multiples.length).map (fun k =>
          (MeasuredPath.ofPath path).pointAt (k.toUInt64.toFloat * step)) ∧
        (∀ k, 1 ≤ k → k < UInt32.size →
          (k.toUInt64.toFloat * step < (MeasuredPath.ofPath path).length ↔
            k ≤ multiples.length)) ∧
        Covers start stop multiples points) ∧
      (∀ a b, Stands .binary64 (exact (MeasuredPath.ofPath path).length) a →
        Stands .binary64 (exact step) b → (points.length : ℤ) ≤ ⌈a / b⌉ + 1) ∧
      (¬ isFinite step → points.length ≤ 2) := by
  have nonneg := MeasuredPath.length_nonneg measured
  by_cases short : path.vertexCount < 2 ∨ (MeasuredPath.ofPath path).length < leastMove
  · refine ⟨[], samples_eq_nil step short, iff_of_true rfl short,
      fun filled => absurd rfl filled, ?_, fun _ => Nat.zero_le 2⟩
    intro a b bound stands
    have low := (float_le_iff_of_stands stands_zero bound).mp nonneg
    have size := (float_lt_iff_of_stands stands_zero stands).mp positive
    have steps : 0 ≤ ⌈a / b⌉ := Int.ceil_nonneg (div_nonneg low size.le)
    rw [List.length_nil]
    omega
  · obtain ⟨many, long⟩ := not_or.mp short
    have segments : path.segments ≠ [] := by
      intro noSegments
      exact many (by simp [vertexCount, noSegments])
    choose place placed using exists_pointAt segments nonneg
    obtain ⟨count, fits, reached, before⟩ := MeasuredPath.exists_count positive few
    have behind (j : Nat) (one : 1 ≤ j) (inside : j < 1 + count) :
        ¬ (MeasuredPath.ofPath path).length ≤ j.toUInt64.toFloat * step := fun le =>
      float_not_lt_of_le le ((before j one (by omega)).mpr (by omega))
    have small : count < UInt32.size := by omega
    have front (one : 1 ≤ count) : count.toUInt64.toFloat * step < (MeasuredPath.ofPath path).length :=
      (before count one small).mpr le_rfl
    have result := samples_eq segments positive long placed fits reached behind
    have covers := covers_destutter' (place 0) (ends _ (placed path.endOffset))
      ((List.range' 1 count).map fun j => place (j.toUInt64.toFloat * step))
    generalize List.destutter' Point.Far _ _ = points at result covers
    have most := covers.sublist.length_le
    rw [List.length_cons, List.length_append, List.length_map, List.length_range',
      List.length_singleton] at most
    have filled : points ≠ [] := by
      rintro rfl
      simpa using covers.first
    refine ⟨points, result, iff_of_false filled short, fun _ => ?_, ?_, ?_⟩
    · refine ⟨_, _, _, placed 0, placed _, ?_, ?_, covers⟩
      · rw [List.map_map, List.length_map, List.length_range']
        exact List.map_congr_left fun k _ => (placed _).symm
      · rw [List.length_map, List.length_range']
        exact before
    · intro a b bound stands
      have steps := count_lt_ceil positive small front bound stands long
      omega
    · intro infinite
      have noMultiples := count_eq_zero positive small front infinite
      omega

/-- A line of two steps. -/
theorem samples_cover_line :
    let line : Path := .polyline [⟨0, 0⟩, ⟨1, 0⟩] false
    0 < sampleSpacing ∧ (MeasuredPath.ofPath line).length = 1 ∧
      (MeasuredPath.ofPath line).length ≤ (UInt32.size - 1).toUInt64.toFloat * sampleSpacing ∧
      (MeasuredPath.ofPath line).pointAt line.endOffset = .ok (some ⟨1, 0⟩) ∧
      line.samples sampleSpacing = .ok [⟨0, 0⟩, ⟨0.5, 0⟩, ⟨1, 0⟩] ∧
      ∃ multiples, Covers ⟨0, 0⟩ ⟨1, 0⟩ multiples [⟨0, 0⟩, ⟨0.5, 0⟩, ⟨1, 0⟩] := by
  intro line
  have positive : 0 < sampleSpacing := by decide
  have length : (MeasuredPath.ofPath line).length = 1 := by decide
  have measured : isFinite (MeasuredPath.ofPath line).length := by
    rw [length]
    decide
  have bound : Stands .binary64 (exact (MeasuredPath.ofPath line).length) 1 := length ▸ stands_one
  have spacing : Stands .binary64 (exact sampleSpacing) (1 / 2) := stands_half
  have few := le_last_multiple bound spacing zero_le_one (by norm_num) (by norm_num [UInt32.size])
  have stop : (MeasuredPath.ofPath line).pointAt line.endOffset = .ok (some ⟨1, 0⟩) := by
    decide +kernel
  have ends : ∀ stop, (MeasuredPath.ofPath line).pointAt line.endOffset = .ok (some stop) →
      stop.isFinite := by
    intro other known
    cases stop.symm.trans known
    decide
  have known : line.samples sampleSpacing = .ok [⟨0, 0⟩, ⟨0.5, 0⟩, ⟨1, 0⟩] := by decide +kernel
  obtain ⟨points, result, _, covers, _⟩ :=
    samples_cover line sampleSpacing positive measured few ends
  cases known.symm.trans result
  obtain ⟨start, last, multiples, _, atEnd, _, _, cover⟩ := covers (by simp)
  cases stop.symm.trans atEnd
  cases cover.first
  exact ⟨positive, length, few, stop, known, multiples, cover⟩

/-- An infinite step: the length is no step at all, but both ends of the line are sampled. -/
theorem samples_infinite_step :
    let line : Path := .polyline [⟨0, 0⟩, ⟨1, 0⟩] false
    let length := (MeasuredPath.ofPath line).length
    let step : Float := 1 / 0
    0 < step ∧ (∀ p ∈ line.start :: line.segments.map Segment.stop, p.isFinite) ∧
      isFinite length ∧ length ≤ (UInt32.size - 1).toUInt64.toFloat * step ∧
      ∃ q, Stands .binary64 (exact (length / step)) q ∧
        ¬ ∃ points, line.samples step = .ok points ∧ (points.length : ℤ) ≤ ⌈q⌉ + 1 := by
  intro line length step
  have quotient : length / step = 0 := by decide +kernel
  have known : line.samples step = .ok [⟨0, 0⟩, ⟨1, 0⟩] := by decide
  refine ⟨by decide, by decide, by decide, by decide, 0, quotient ▸ stands_zero, ?_⟩
  rintro ⟨points, result, bound⟩
  cases known.symm.trans result
  simp at bound

end Path

end LaserCutter
