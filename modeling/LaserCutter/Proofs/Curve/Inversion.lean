import LaserCutter.Proofs.Curve.Moderate
import LaserCutter.Proofs.Curve.Pieces

/-!
# From lengths back to parameters

The lengths in the table of a curve are in order if they are finite, so a length on the curve lies
in one interval of the table. The search for its parameter starts in that interval and never leaves
it, whatever speeds and lengths it is told on the way. So sampled parameters lie between zero and
one, and those of lengths in different intervals are in order (`MeasuredCubic.parameterAt_bracketed`).
-/

namespace LaserCutter

open Number

section parameters

variable {i : Nat}

theorem abs_le_largest_of_le_two {q : ℚ} (nonneg : 0 ≤ q) (small : q ≤ 2) :
    |q| ≤ largest .binary64 := by
  rw [abs_of_nonneg nonneg]
  exact small.trans ((le_abs_self 2).trans (abs_le_largest stands_two))

/-- A part of an interval of the table is added to its start. -/
theorem interpolated_between {part : Float} {q : ℚ} (within : i < tableSteps)
    (stands : Stands .binary64 (exact part) q) (nonneg : 0 ≤ q) (most : q ≤ 1) :
    tableParameter i ≤ tableParameter i + part * (tableParameter (i + 1) - tableParameter i) ∧
      tableParameter i + part * (tableParameter (i + 1) - tableParameter i) ≤
        tableParameter (i + 1) := by
  have start := stands_tableParameter within.le
  have stop := stands_tableParameter (Nat.succ_le_of_lt within)
  have least : (0 : ℚ) ≤ i / 32 := by positivity
  have next : ((i + 1 : ℕ) : ℚ) / 32 = i / 32 + 1 / 32 := by
    push_cast
    ring
  have last : ((i + 1 : ℕ) : ℚ) / 32 ≤ 1 := by
    have below : ((i + 1 : ℕ) : ℚ) ≤ 32 := by exact_mod_cast Nat.succ_le_of_lt within
    linarith
  have unit : nearest .binary64 (1 / 32) = 1 / 32 := by
    simpa using nearest_tableParameter (i := 1) (by decide)
  have width := stands_span start stop least (by linarith)
  rw [next, add_sub_cancel_left, unit] at width
  have step := stands_mul stands width (abs_le_largest_of_le_two (by linarith) (by linarith))
  have low : 0 ≤ nearest .binary64 (q * (1 / 32)) := nearest_nonneg _ (by linarith)
  have high : nearest .binary64 (q * (1 / 32)) ≤ 1 / 32 :=
    (nearest_mono .binary64 (show q * (1 / 32) ≤ 1 / 32 by linarith)).trans_eq unit
  have sum := stands_add start step (abs_le_largest_of_le_two (by linarith) (by linarith))
  rw [float_le_iff_of_stands start sum, float_le_iff_of_stands sum stop]
  constructor
  · calc
      (i / 32 : ℚ) = nearest .binary64 (i / 32) := (nearest_tableParameter within.le).symm
      _ ≤ nearest .binary64 (i / 32 + nearest .binary64 (q * (1 / 32))) :=
        nearest_mono _ (by linarith)
  · calc
      nearest .binary64 (i / 32 + nearest .binary64 (q * (1 / 32)))
          ≤ nearest .binary64 ((i + 1 : ℕ) / 32) := nearest_mono _ (by linarith)
      _ = (i + 1 : ℕ) / 32 := nearest_tableParameter (Nat.succ_le_of_lt within)

/-- A parameter in the interval `k` of a table. -/
def InInterval (k : Nat) (t : Float) : Prop :=
  ∃ q : ℚ, Stands .binary64 (exact t) q ∧ k / 32 ≤ q ∧ q ≤ (k + 1) / 32

theorem inInterval_iff {t : Float} (within : i < tableSteps) :
    InInterval i t ↔ tableParameter i ≤ t ∧ t ≤ tableParameter (i + 1) := by
  have start := stands_tableParameter within.le
  have stop := stands_tableParameter (Nat.succ_le_of_lt within)
  rw [Nat.cast_succ] at stop
  constructor
  · rintro ⟨q, stands, low, high⟩
    exact ⟨(float_le_iff_of_stands start stands).mpr low,
      (float_le_iff_of_stands stands stop).mpr high⟩
  · rintro ⟨low, high⟩
    exact stands_between start stop low high

end parameters

/-- The parameters that a search has left, and its guess among them. -/
structure Bracket where
  lo : Float
  hi : Float
  guess : Float

namespace Bracket

/-- What is left after a round. The guess was too long by `err`, and the speed there is `speed`. -/
def narrow (b : Bracket) (err speed : Float) : Bracket :=
  let lo := if 0 < err then b.lo else b.guess
  let hi := if 0 < err then b.guess else b.hi
  let next := b.guess - err / speed
  ⟨lo, hi, if 1e-12 < speed && lo < next && next < hi then next else (lo + hi) / 2⟩

/-- The search for the parameter at length `s`, with any lengths and speeds that it is told in its
rounds. -/
def search (lengthTo speed : Nat → Float → Float) (base s : Float) : Nat → Bracket → Float
  | 0, b => b.guess
  | rounds + 1, b =>
    let err := base + lengthTo rounds b.guess - s
    if err.abs < 1e-9 then b.guess
    else search lengthTo speed base s rounds (b.narrow err (speed rounds b.guess))

/-- The guess is in the bracket, and that is between `first` and `last`. -/
structure Within (b : Bracket) (first last : Float) : Prop where
  start : first ≤ b.lo
  low : b.lo ≤ b.guess
  high : b.guess ≤ b.hi
  stop : b.hi ≤ last

namespace Within

variable {b : Bracket} {first last : Float}

theorem guess (within : b.Within first last) : first ≤ b.guess ∧ b.guess ≤ last :=
  ⟨float_le_trans within.start within.low, float_le_trans within.high within.stop⟩

/-- A round keeps the bracket, even if its speed or its error is not a number. -/
theorem narrow (within : b.Within first last) (nonneg : 0 ≤ first) (small : last ≤ 1)
    (err speed : Float) : (b.narrow err speed).Within first last := by
  obtain ⟨start, low, high, stop⟩ := within
  have ends : first ≤ (b.narrow err speed).lo ∧
      (b.narrow err speed).lo ≤ (b.narrow err speed).hi ∧ (b.narrow err speed).hi ≤ last := by
    simp only [Bracket.narrow]
    split
    · exact ⟨start, low, float_le_trans high stop⟩
    · exact ⟨float_le_trans start low, high, stop⟩
  obtain ⟨start, order, stop⟩ := ends
  have guess : (b.narrow err speed).guess =
      if 1e-12 < speed && (b.narrow err speed).lo < b.guess - err / speed &&
        b.guess - err / speed < (b.narrow err speed).hi then b.guess - err / speed
      else ((b.narrow err speed).lo + (b.narrow err speed).hi) / 2 := rfl
  have inside : (b.narrow err speed).lo ≤ (b.narrow err speed).guess ∧
      (b.narrow err speed).guess ≤ (b.narrow err speed).hi := by
    rw [guess]
    split
    · rename_i strict
      simp only [Bool.and_eq_true, decide_eq_true_eq] at strict
      exact ⟨float_le_of_lt strict.1.2, float_le_of_lt strict.2⟩
    · exact middle_between (float_le_trans nonneg start) order (float_le_trans stop small)
  exact ⟨start, inside.1, inside.2, stop⟩

theorem search (within : b.Within first last) (nonneg : 0 ≤ first) (small : last ≤ 1)
    (lengthTo speed : Nat → Float → Float) (base s : Float) (rounds : Nat) :
    first ≤ b.search lengthTo speed base s rounds ∧
      b.search lengthTo speed base s rounds ≤ last := by
  induction rounds generalizing b with
  | zero => exact within.guess
  | succ rounds ih =>
    unfold Bracket.search
    dsimp only
    split
    · exact within.guess
    · exact ih (within.narrow nonneg small _ _)

end Within

end Bracket

namespace MeasuredCubic

/-- The rounds of a curve are a search that is told the curve's own lengths and speeds. -/
theorem refine_eq_search (curve : Cubic) (s base from0 : Float) (rounds : Nat) (b : Bracket) :
    refine curve s base from0 rounds b.lo b.hi b.guess =
      b.search (fun _ => curve.arcLength from0) (fun _ => curve.speed) base s rounds := by
  induction rounds generalizing b with
  | zero => rfl
  | succ rounds ih =>
    have next := ih (b.narrow (base + curve.arcLength from0 b.guess - s) (curve.speed b.guess))
    unfold refine Bracket.search
    dsimp only
    rw [← next]
    unfold Bracket.narrow
    dsimp only
    split
    · rfl
    · exact (apply_ite (refine curve s base from0 rounds _ _) _ _ _).symm

/-- Lengths that are finite grow along the curve. -/
theorem ordered_lengthsUpTo (curve : Cubic) {n : Nat} (within : n ≤ tableSteps)
    (finite : ∀ length ∈ lengthsUpTo curve n, isFinite length) :
    (lengthsUpTo curve n).Pairwise fun longer shorter => shorter ≤ longer := by
  induction n with
  | zero => exact List.pairwise_singleton _ _
  | succ n ih =>
    rw [lengthsUpTo, List.forall_mem_cons] at finite
    have ordered := ih (by omega) finite.2
    have stretch := curve.arcLength_nonneg within (isFinite_of_add finite.1).2
    have grown := float_le_add finite.1 stretch
    rw [lengthsUpTo, List.pairwise_cons]
    refine ⟨fun shorter member => float_le_trans ?_ grown, ordered⟩
    -- The first length is the longest so far.
    cases known : lengthsUpTo curve n with
    | nil => simp [known] at member
    | cons longest rest =>
      rw [known] at member ordered finite
      obtain rfl | later := List.mem_cons.mp member
      · exact float_le_self_of_number (number_of_isFinite (finite.2 shorter List.mem_cons_self))
      · exact (List.pairwise_cons.mp ordered).1 shorter later

/-- A table of finite lengths, in order from zero on. -/
structure Tabled (m : MeasuredCubic) : Prop where
  counted : m.lengths.length = tableSteps + 1
  first : m.lengths.getD 0 0 = 0
  finite : ∀ length ∈ m.lengths, isFinite length
  ordered : m.lengths.Pairwise (· ≤ ·)

theorem getLast?_lengthsUpTo (curve : Cubic) (n : Nat) :
    (lengthsUpTo curve n).getLast? = some 0 := by
  induction n with
  | zero => rfl
  | succ n ih => rw [lengthsUpTo, List.getLast?_cons, ih, Option.getD_some]

theorem tabled_ofCubic (curve : Cubic) (finite : ∀ length ∈ (ofCubic curve).lengths, isFinite length) :
    (ofCubic curve).Tabled := by
  refine ⟨?_, ?_, finite, ?_⟩
  · rw [ofCubic, List.length_reverse, length_lengthsUpTo]
  · rw [ofCubic, List.getD_eq_getElem?_getD, ← List.head?_eq_getElem?, List.head?_reverse,
      getLast?_lengthsUpTo, Option.getD_some]
  · rw [ofCubic] at finite ⊢
    rw [List.pairwise_reverse]
    exact ordered_lengthsUpTo curve le_rfl fun length member =>
      finite length (List.mem_reverse.mpr member)

/-- Length `s` lies in interval `k` of the table. -/
structure Covers (m : MeasuredCubic) (s : Float) (k : Nat) : Prop where
  bound : k < tableSteps
  start : m.lengths.getD k 0 ≤ s
  stop : s < m.lengths.getD (k + 1) 0

/-- What the search for the parameter at length `s` starts with. -/
def bracketAt (m : MeasuredCubic) (s : Float) : Bracket :=
  let k := m.interval s
  let base := m.lengths.getD k 0
  let span := m.lengths.getD (k + 1) 0 - base
  let lo := tableParameter k
  let hi := tableParameter (k + 1)
  ⟨lo, hi, if 0 < span then lo + (s - base) / span * (hi - lo) else lo⟩

theorem parameterAt_start {m : MeasuredCubic} {s : Float} (behind : s ≤ 0) : m.parameterAt s = 0 :=
  if_pos behind

theorem parameterAt_stop {m : MeasuredCubic} {s : Float} (behind : ¬ s ≤ 0) (before : m.length ≤ s) :
    m.parameterAt s = 1 :=
  (if_neg behind).trans (if_pos before)

theorem parameterAt_eq_search {m : MeasuredCubic} {s : Float} (behind : ¬ s ≤ 0)
    (before : ¬ m.length ≤ s) :
    m.parameterAt s = (m.bracketAt s).search
      (fun _ => m.curve.arcLength (tableParameter (m.interval s))) (fun _ => m.curve.speed)
      (m.lengths.getD (m.interval s) 0) s 16 := by
  rw [← refine_eq_search, parameterAt, if_neg behind, if_neg before]
  rfl

namespace Tabled

variable {m : MeasuredCubic} (tabled : m.Tabled) {s : Float}

include tabled

theorem getElem?_lengths {i : Nat} (within : i ≤ tableSteps) :
    m.lengths[i]? = some (m.lengths.getD i 0) := by
  have inside : i < m.lengths.length := tabled.counted ▸ Nat.lt_succ_of_le within
  rw [List.getD_eq_getElem _ _ inside, List.getElem?_eq_getElem inside]

theorem isFinite_getD {i : Nat} (within : i ≤ tableSteps) : isFinite (m.lengths.getD i 0) :=
  tabled.finite _ (List.mem_of_getElem? (tabled.getElem?_lengths within))

theorem getD_mono {i j : Nat} (le : i ≤ j) (within : j ≤ tableSteps) :
    m.lengths.getD i 0 ≤ m.lengths.getD j 0 := by
  have last : j < m.lengths.length := tabled.counted ▸ Nat.lt_succ_of_le within
  rcases le.lt_or_eq with less | rfl
  · rw [List.getD_eq_getElem _ _ (less.trans last), List.getD_eq_getElem _ _ last]
    exact List.pairwise_iff_getElem.mp tabled.ordered i j _ last less
  · exact float_le_self_of_number (number_of_isFinite (tabled.isFinite_getD within))

/-- A length on the curve lies in the interval that is looked up. -/
theorem covers_interval (number : s.isNaN = false) (behind : ¬ s ≤ 0) (before : ¬ m.length ≤ s) :
    m.Covers s (m.interval s) := by
  obtain ⟨front, next⟩ := takeWhile_split (· ≤ s) m.lengths
  have counted := tabled.counted
  have most := (m.lengths.takeWhile_prefix (p := (· ≤ s))).length_le
  have entered : (m.lengths.takeWhile (· ≤ s)).length ≠ 0 := by
    intro noneBelow
    rw [noneBelow, tabled.first] at next
    exact behind (float_le_of_not_lt number rfl fun positive =>
      next (by omega) (float_le_of_lt positive))
  have few : (m.lengths.takeWhile (· ≤ s)).length ≠ tableSteps + 1 := fun all =>
    before (front tableSteps (by omega))
  have found : m.interval s = (m.lengths.takeWhile (· ≤ s)).length - 1 := by
    unfold interval
    omega
  have after : m.interval s + 1 = (m.lengths.takeWhile (· ≤ s)).length := by omega
  refine ⟨by omega, front _ (by omega), ?_⟩
  rw [after]
  have finite := tabled.isFinite_getD (i := (m.lengths.takeWhile (· ≤ s)).length) (by omega)
  exact (float_lt_or_le_of_number number (number_of_isFinite finite)).resolve_right (next (by omega))

/-- The search starts in the interval that is looked up, even if that has no length. -/
theorem within_bracketAt (covers : m.Covers s (m.interval s)) :
    (m.bracketAt s).Within (tableParameter (m.interval s)) (tableParameter (m.interval s + 1)) := by
  have inside := covers.bound
  have order := tableParameter_mono (m.interval s).le_succ inside
  obtain ⟨numberLo, numberHi⟩ := numbers_of_float_le order
  have self := float_le_self_of_number numberLo
  obtain ⟨a, base, _⟩ := exists_stands (tabled.isFinite_getD inside.le)
  obtain ⟨b, stop, _⟩ := exists_stands (tabled.isFinite_getD inside)
  have nonneg := tabled.getD_mono (m.interval s).zero_le inside.le
  rw [tabled.first, float_le_iff_of_stands stands_zero base] at nonneg
  obtain ⟨n, stands, low, high⟩ :=
    stands_between base stop covers.start (float_le_of_lt covers.stop)
  have guess : tableParameter (m.interval s) ≤ (m.bracketAt s).guess ∧
      (m.bracketAt s).guess ≤ tableParameter (m.interval s + 1) := by
    unfold bracketAt
    dsimp only
    split
    · rename_i positive
      have span := stands_span base stop nonneg (low.trans high)
      have lasts := (float_lt_iff_of_stands stands_zero span).mp positive
      obtain ⟨least, most⟩ := roundedPart_bounds lasts low high
      exact interpolated_between inside (stands_part base stop stands nonneg low high lasts) least
        most
    · exact ⟨self, order⟩
  exact ⟨self, guess.1, guess.2, float_le_self_of_number numberHi⟩

/-- Whatever the search is told about lengths and speeds, it ends in its interval. -/
theorem inInterval_search (covers : m.Covers s (m.interval s)) (lengthTo speed : Nat → Float → Float)
    (base : Float) (rounds : Nat) :
    InInterval (m.interval s) ((m.bracketAt s).search lengthTo speed base s rounds) := by
  rw [inInterval_iff covers.bound]
  exact (tabled.within_bracketAt covers).search (tableParameter_bounds covers.bound.le).1
    (tableParameter_bounds covers.bound).2 lengthTo speed base s rounds

theorem inInterval_parameterAt (number : s.isNaN = false) (behind : ¬ s ≤ 0)
    (before : ¬ m.length ≤ s) : InInterval (m.interval s) (m.parameterAt s) := by
  rw [parameterAt_eq_search behind before]
  exact tabled.inInterval_search (tabled.covers_interval number behind before) _ _ _ _

theorem parameterAt_bounds (number : s.isNaN = false) :
    0 ≤ m.parameterAt s ∧ m.parameterAt s ≤ 1 := by
  by_cases behind : s ≤ 0
  · rw [parameterAt_start behind]
    exact ⟨by decide, by decide⟩
  · by_cases before : m.length ≤ s
    · rw [parameterAt_stop behind before]
      exact ⟨by decide, by decide⟩
    · have bound := (tabled.covers_interval number behind before).bound
      obtain ⟨low, high⟩ := (inInterval_iff bound).mp
        (tabled.inInterval_parameterAt number behind before)
      exact ⟨float_le_trans (tableParameter_bounds bound.le).1 low,
        float_le_trans high (tableParameter_bounds bound).2⟩

/-- Of two lengths in different intervals, the one that is further has the parameter that is further. -/
theorem parameterAt_le {s₁ s₂ : Float} (less : s₁ < s₂)
    (apart : s₁ ≤ 0 ∨ m.interval s₁ ≠ m.interval s₂ ∨ m.length ≤ s₂) :
    m.parameterAt s₁ ≤ m.parameterAt s₂ := by
  obtain ⟨number₁, number₂⟩ := numbers_of_float_le (float_le_of_lt less)
  obtain ⟨low, _⟩ := tabled.parameterAt_bounds number₂
  obtain ⟨_, high⟩ := tabled.parameterAt_bounds number₁
  by_cases behind : s₁ ≤ 0
  · rwa [parameterAt_start behind]
  have behind₂ : ¬ s₂ ≤ 0 := fun le => behind (float_le_trans (float_le_of_lt less) le)
  by_cases before : m.length ≤ s₂
  · rwa [parameterAt_stop behind₂ before]
  have before₁ : ¬ m.length ≤ s₁ := fun le => before (float_le_trans le (float_le_of_lt less))
  have differ := (apart.resolve_left behind).resolve_right before
  have covers₁ := tabled.covers_interval number₁ behind before₁
  have covers₂ := tabled.covers_interval number₂ behind₂ before
  have further : m.interval s₁ < m.interval s₂ := by
    by_contra back
    have order := tabled.getD_mono (show m.interval s₂ + 1 ≤ m.interval s₁ by omega) covers₁.bound.le
    have reached := float_le_trans order (float_le_trans covers₁.start (float_le_of_lt less))
    exact float_not_lt_of_le reached covers₂.stop
  have last := (inInterval_iff covers₁.bound).mp
    (tabled.inInterval_parameterAt number₁ behind before₁)
  have first := (inInterval_iff covers₂.bound).mp
    (tabled.inInterval_parameterAt number₂ behind₂ before)
  exact float_le_trans last.2
    (float_le_trans (tableParameter_mono further covers₂.bound.le) first.1)

end Tabled

/-- The parameter at length `s`: the ends of the curve for what is not between them, and else a
parameter of the interval that the length is in. -/
structure Inverts (m : MeasuredCubic) (s : Float) : Prop where
  start : s ≤ 0 → m.parameterAt s = 0
  /-- A curve without length has both ends at length zero, where its start is taken. -/
  stop : 0 < s → m.length ≤ s → m.parameterAt s = 1
  inside : 0 < s → s < m.length → ∃ k < tableSteps, m.interval s = k ∧
    ∃ a ∈ m.lengths[k]?, ∃ b ∈ m.lengths[k + 1]?, a ≤ s ∧ s < b ∧
      m.parameterAt s = (m.bracketAt s).search (fun _ => m.curve.arcLength (tableParameter k))
        (fun _ => m.curve.speed) a s 16 ∧
      ∀ lengthTo speed, InInterval k ((m.bracketAt s).search lengthTo speed a s 16)
  range : 0 ≤ m.parameterAt s ∧ m.parameterAt s ≤ 1

theorem Tabled.inverts {m : MeasuredCubic} (tabled : m.Tabled) {s : Float}
    (number : s.isNaN = false) : m.Inverts s := by
  refine ⟨parameterAt_start, fun positive before => ?_, fun positive short => ?_,
    tabled.parameterAt_bounds number⟩
  · exact parameterAt_stop (fun behind => float_not_lt_of_le behind positive) before
  · have behind : ¬ s ≤ 0 := fun behind => float_not_lt_of_le behind positive
    have before : ¬ m.length ≤ s := fun before => float_not_lt_of_le before short
    have covers := tabled.covers_interval number behind before
    exact ⟨m.interval s, covers.bound, rfl, _, tabled.getElem?_lengths covers.bound.le, _,
      tabled.getElem?_lengths covers.bound, covers.start, covers.stop,
      parameterAt_eq_search behind before,
      fun lengthTo speed => tabled.inInterval_search covers lengthTo speed _ 16⟩

/-- The parameters of a curve with finite lengths, at every length that is not NaN. The table is in
order, so that the search for an interval is meaningful, and only lengths in it are looked up. What
the rounds compute does not lead out of the interval. Lengths in different intervals have parameters
in order, and all samples of a path are taken at parameters between zero and one. -/
theorem parameterAt_bracketed (curve : Cubic)
    (finite : ∀ length ∈ (ofCubic curve).lengths, isFinite length) :
    (ofCubic curve).lengths.length = tableSteps + 1 ∧
      (ofCubic curve).lengths.Pairwise (· ≤ ·) ∧
      (∀ s, s.isNaN = false → (ofCubic curve).Inverts s) ∧
      (∀ s, s.isNaN = false → 0 < s → s < (ofCubic curve).length →
        InInterval ((ofCubic curve).interval s) ((ofCubic curve).parameterAt s)) ∧
      (∀ s₁ s₂, s₁ < s₂ →
        (s₁ ≤ 0 ∨ (ofCubic curve).interval s₁ ≠ (ofCubic curve).interval s₂ ∨
          (ofCubic curve).length ≤ s₂) →
        (ofCubic curve).parameterAt s₁ ≤ (ofCubic curve).parameterAt s₂) ∧
      ∀ path step points, Path.samples path step = .ok points → ∀ p ∈ points,
        ∃ piece ∈ path.pieces, ∃ s, s.isNaN = false ∧ p = piece.pointAt s ∧
          (piece = .curve (ofCubic curve) →
            p = curve.point ((ofCubic curve).parameterAt s) ∧
              0 ≤ (ofCubic curve).parameterAt s ∧ (ofCubic curve).parameterAt s ≤ 1) := by
  have tabled := tabled_ofCubic curve finite
  refine ⟨tabled.counted, tabled.ordered, fun s => tabled.inverts, fun s number positive short => ?_,
    fun s₁ s₂ => tabled.parameterAt_le, fun path step points sampled p member => ?_⟩
  · exact tabled.inInterval_parameterAt number (fun behind => float_not_lt_of_le behind positive)
      fun before => float_not_lt_of_le before short
  · obtain ⟨piece, among, s, number, rfl⟩ := Path.onPieces_of_samples sampled p member
    refine ⟨piece, among, s, number, rfl, ?_⟩
    rintro rfl
    exact ⟨rfl, tabled.parameterAt_bounds number⟩

/-- A curve with a cusp in its middle, at a length in the first interval and in front of the curve. -/
theorem parameterAt_bracketed_cusp :
    let cusp : Cubic := ⟨⟨0, 0⟩, ⟨30, 40⟩, ⟨0, 40⟩, ⟨30, 0⟩⟩
    (∀ length ∈ (ofCubic cusp).lengths, isFinite length) ∧ (2 : Float).isNaN = false ∧
      (0 : Float) < 2 ∧ 2 < (ofCubic cusp).length ∧ (ofCubic cusp).Inverts 2 ∧
      InInterval ((ofCubic cusp).interval 2) ((ofCubic cusp).parameterAt 2) ∧
      (-1 : Float) < 2 ∧ (-1 : Float) ≤ 0 ∧
      (ofCubic cusp).parameterAt (-1) ≤ (ofCubic cusp).parameterAt 2 := by
  intro cusp
  have zero : Number.Moderate 6 0 := ⟨0, stands_zero, by norm_num⟩
  have thirty : Number.Moderate 6 30 := ⟨30, stands_of_byte 30 rfl, by norm_num⟩
  have forty : Number.Moderate 6 40 := ⟨40, stands_of_byte 40 rfl, by norm_num⟩
  have finite := isFinite_of_moderate (by decide)
    (show cusp.Moderate 6 from ⟨⟨zero, zero⟩, ⟨thirty, forty⟩, ⟨zero, forty⟩, ⟨thirty, zero⟩⟩)
  have positive : (0 : Float) < 2 := by decide
  have order : (-1 : Float) < 2 := by decide
  have behind : (-1 : Float) ≤ 0 := by decide
  -- Already the first interval is longer.
  have first : 2 < (ofCubic cusp).lengths.getD 1 0 := by decide +kernel
  have longer := (tabled_ofCubic cusp finite).getD_mono (show 1 ≤ tableSteps by decide) le_rfl
  have short : 2 < (ofCubic cusp).length :=
    (float_lt_or_le_of_number rfl (numbers_of_float_le longer).2).resolve_right fun le =>
      float_not_lt_of_le (float_le_trans longer le) first
  obtain ⟨_, _, inverts, inside, ordered, _⟩ := parameterAt_bracketed cusp finite
  exact ⟨finite, rfl, positive, short, inverts 2 rfl, inside 2 rfl positive short, order, behind,
    ordered (-1) 2 order (.inl behind)⟩

end MeasuredCubic

end LaserCutter
