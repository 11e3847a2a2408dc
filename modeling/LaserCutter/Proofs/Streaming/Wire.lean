import LaserCutter.Proofs.Streaming.Deeds

/-!
# What a job puts on the wire

A job writes whole units, up to one that a cut of the wire may tear: lines of its program, in order,
and signals of one byte. Between a hold and the next resume no line goes out. While the job runs,
the lines that are written and those still pending are the program, and the machine is held exactly
while the streamer is paused (`Accounts`).
-/

namespace LaserCutter

def WireUnit.line? : WireUnit → Option String
  | .line text => some text
  | .signal _ => none

/-- The lines among units, in order. -/
def linesIn (units : List WireUnit) : List String := units.filterMap WireUnit.line?

/-- Whether the machine is held after a unit, given whether it was before. -/
def heldBy (held : Bool) : WireUnit → Bool
  | .signal .hold => true
  | .signal .resume => false
  | _ => held

/-- Lines go out only while the machine is not held. -/
def HeedsHold : Bool → List WireUnit → Prop
  | _, [] => True
  | held, unit :: rest => (unit.line?.isSome → held = false) ∧ HeedsHold (heldBy held unit) rest

variable {program : String} {units more : List WireUnit} {held : Bool}

@[simp] theorem linesIn_append (front back : List WireUnit) :
    linesIn (front ++ back) = linesIn front ++ linesIn back := List.filterMap_append

theorem unitsOf_append (front back : List Effect) :
    unitsOf (front ++ back) = unitsOf front ++ unitsOf back := List.filterMap_append

theorem unitsOf_sends (lines : List String) : unitsOf (lines.map .send) = lines.map .line := by
  rw [unitsOf, List.filterMap_map]
  exact congrFun List.filterMap_eq_map lines

theorem linesIn_unitsOf (effects : List Effect) : linesIn (unitsOf effects) = sends effects := by
  have same : (fun effect : Effect => effect.unit?.bind WireUnit.line?) = Effect.line? := by
    funext effect
    cases effect <;> rfl
  rw [linesIn, unitsOf, List.filterMap_filterMap, same, sends]

theorem heedsHold_append (front back : List WireUnit) :
    HeedsHold held (front ++ back) ↔
      HeedsHold held front ∧ HeedsHold (front.foldl heldBy held) back := by
  induction front generalizing held with
  | nil => simp [HeedsHold]
  | cons unit rest ih => simp [HeedsHold, ih, and_assoc]

theorem heedsHold_lines (lines : List String) : HeedsHold false (lines.map .line) := by
  induction lines with
  | nil => trivial
  | cons line rest ih => exact ⟨fun _ => rfl, ih⟩

theorem heldBy_lines (lines : List String) :
    (lines.map WireUnit.line).foldl heldBy held = held := by
  induction lines with
  | nil => rfl
  | cons line rest ih => exact ih

theorem held_until_resumed (kept : .signal .resume ∉ units) : units.foldl heldBy true = true := by
  induction units with
  | nil => rfl
  | cons unit rest ih =>
    obtain ⟨first, later⟩ := not_or.mp (mt List.mem_cons.mpr kept)
    have still : heldBy true unit = true := by
      cases unit with
      | line => rfl
      | signal s => cases s <;> first | rfl | exact absurd rfl first
    rw [List.foldl_cons, still, ih later]

/-- Between a hold and a line there is a resume. -/
theorem HeedsHold.resumes {before between after : List WireUnit} {line : String}
    (heeds : HeedsHold held (before ++ .signal .hold :: between ++ .line line :: after)) :
    .signal .resume ∈ between := by
  rw [heedsHold_append, List.foldl_append, List.foldl_cons] at heeds
  have free : between.foldl heldBy true = false := heeds.2.1 rfl
  by_cases resumed : .signal .resume ∈ between
  · exact resumed
  · rw [held_until_resumed resumed] at free
    contradiction

namespace Streamer

variable {s : Streamer} {event : StreamEvent}

/-- A job that fills its window writes lines only, and it is not paused then. -/
theorem unitsOf_fill (running : s.phase = .running) :
    (∃ lines : List String, unitsOf s.fill.2 = lines.map .line) ∧ s.fill.1.phase ≠ .paused := by
  have sent : unitsOf s.fillEffects = s.batch.map .line := by
    rw [fillEffects, unitsOf_append, unitsOf_sends]
    exact List.append_nil _
  rcases fill_cases running with ⟨equal, _⟩ | ⟨equal, _⟩
  · rw [equal]
    exact ⟨⟨s.batch, sent⟩, by simp [afterBatch, running]⟩
  · rw [equal]
    refine ⟨⟨s.batch, ?_⟩, by simp [idle]⟩
    rw [unitsOf_append, sent]
    exact List.append_nil _

/-- Filling the window heeds the hold, whatever signals go before it. -/
theorem heedsHold_fill (running : s.phase = .running) :
    HeedsHold false (unitsOf s.fill.2) ∧
      (unitsOf s.fill.2).foldl heldBy false = decide (s.fill.1.phase = .paused) := by
  obtain ⟨⟨lines, units⟩, free⟩ := unitsOf_fill running
  rw [units, heldBy_lines]
  exact ⟨heedsHold_lines lines, (decide_eq_false free).symm⟩

/-- A job that is paused exactly while the machine is held writes no line under hold, and it stays
so as long as it goes on. -/
theorem heedsHold_step (active : s.phase ≠ .idle) (event : StreamEvent) :
    HeedsHold (decide (s.phase = .paused)) (unitsOf (s.step event).2) ∧
      ((s.step event).1.phase ≠ .idle →
        (unitsOf (s.step event).2).foldl heldBy (decide (s.phase = .paused)) =
          decide ((s.step event).1.phase = .paused)) := by
  obtain ⟨phase, lines, sent, inFlight⟩ := s
  have filled (unanswered : Nat) := heedsHold_fill (s := ⟨.running, lines, sent, unanswered⟩) rfl
  cases phase with
  | idle => exact absurd rfl active
  | running =>
    cases event with
    | start | resume => exact ⟨trivial, fun _ => rfl⟩
    | pause => exact ⟨⟨nofun, trivial⟩, fun _ => rfl⟩
    | abort => exact ⟨⟨nofun, trivial⟩, fun active => absurd rfl active⟩
    | ack | poll => exact ⟨(filled _).1, fun _ => (filled _).2⟩
  | paused =>
    cases event with
    | pause | ack | poll => exact ⟨trivial, fun _ => rfl⟩
    | abort => exact ⟨⟨nofun, trivial⟩, fun active => absurd rfl active⟩
    | start | resume => exact ⟨⟨nofun, (filled _).1⟩, fun _ => (filled _).2⟩

end Streamer

/-- Units that a job of the program may write: lines of the program in order, and none under hold.
-/
structure Proper (program : String) (units : List WireUnit) : Prop where
  lines : linesIn units <+: sentLines program
  heeds : HeedsHold false units

theorem Proper.of_prefix (proper : Proper program more) (front : units <+: more) :
    Proper program units := by
  refine ⟨(front.filterMap _).trans proper.lines, ?_⟩
  obtain ⟨rest, rfl⟩ := front
  exact ((heedsHold_append units rest).mp proper.heeds).1

/-- The lines written and the lines pending are the program, and the machine is held exactly while
the streamer is paused. -/
structure Streams (program : String) (units : List WireUnit) (s : Streamer) : Prop where
  coherent : s.Coherent
  active : s.phase ≠ .idle
  lines : linesIn units ++ s.pending = sentLines program
  held : units.foldl heldBy false = decide (s.phase = .paused)

/-- What the units written say of how a job stands whose writes all went out. -/
def Settled (program : String) (units : List WireUnit) : Standing → Prop
  | .running s => Streams program units s
  | .ended (.ok .completed) => linesIn units = sentLines program
  | .ended (.ok .aborted) => units.getLast? = some (.signal .reset)
  | .ended (.ok .disconnected) => True
  | .ended (.ok .nothingToSend) => False
  | .ended (.error e) => e ≠ .wire .cut

structure Accounts (program : String) (units : List WireUnit) (standing : Standing) : Prop where
  proper : Proper program units
  settled : Settled program units standing

section
variable {s : Streamer} {heard : List Heard} {next : Standing}

/-- An event is carried out by writing the next lines and, where it pauses, resumes or aborts the
job, the signal for it. -/
theorem accounts_step (accounts : Accounts program units (.running s)) (event : StreamEvent) :
    Accounts program (units ++ unitsOf (s.step event).2) (standingOf (s.step event)) := by
  obtain ⟨proper, coherent, active, lines, held⟩ := accounts
  obtain ⟨heedsStep, heldStep⟩ := Streamer.heedsHold_step active event
  rw [← held] at heedsStep heldStep
  have heeds := (heedsHold_append _ _).mpr ⟨proper.heeds, heedsStep⟩
  have written : linesIn (units ++ unitsOf (s.step event).2) =
      linesIn units ++ sends (s.step event).2 := by
    rw [linesIn_append, linesIn_unitsOf]
  rcases Streamer.step_of_active coherent active event with
    ⟨goesOn, _, sent, open'⟩ | ⟨_, front, split, sent, open'⟩ | ⟨_, result⟩
  · have all : linesIn (units ++ unitsOf (s.step event).2) ++ (s.step event).1.pending =
        sentLines program := by
      rw [written, List.append_assoc, sent, lines]
    have running : standingOf (s.step event) = .running (s.step event).1 := standingOf_open open'
    rw [running]
    refine ⟨⟨⟨_, all⟩, heeds⟩, Streamer.coherent_step coherent event, goesOn, all, ?_⟩
    rw [List.foldl_append]
    exact heldStep goesOn
  · have all : linesIn (units ++ unitsOf (s.step event).2) = sentLines program := by
      rw [written, split, sends_append, sent, ← lines]
      simp [Effect.line?]
    have completed : standingOf (s.step event) = .ended (.ok .completed) := by
      rw [← standingOf_completed (s := (s.step event).1) open', ← split]
    rw [completed]
    exact ⟨⟨⟨[], by rw [all, List.append_nil]⟩, heeds⟩, all⟩
  · rw [result] at written heeds ⊢
    refine ⟨⟨?_, heeds⟩, ?_⟩
    · rw [written, ← lines]
      simp [Effect.line?]
    · change (units ++ [WireUnit.signal .reset]).getLast? = some (.signal .reset)
      rw [List.getLast?_concat]

/-- Asking for the status writes no line and holds nothing. -/
theorem accounts_status (accounts : Accounts program units (.running s)) :
    Accounts program (units ++ [.signal .status]) (.running s) := by
  obtain ⟨proper, coherent, active, lines, held⟩ := accounts
  have written : linesIn (units ++ [.signal .status]) = linesIn units := by
    simp [linesIn, WireUnit.line?]
  refine ⟨⟨by rw [written]; exact proper.lines, ?_⟩, coherent, active, ?_, ?_⟩
  · exact (heedsHold_append _ _).mpr ⟨proper.heeds, nofun, trivial⟩
  · rw [written, lines]
  · rw [List.foldl_append, held]
    rfl

theorem accounts_plan (accounts : Accounts program units (.running s))
    (plan : Plan (fun _ => True) s heard more next) : Accounts program (units ++ more) next := by
  cases plan with
  | control event => exact accounts_step accounts event
  | answer => exact accounts_step accounts .ack
  | passOver =>
    rw [List.append_nil]
    exact accounts
  | askStatus => exact accounts_status accounts
  | giveUp =>
    rw [List.append_nil]
    exact ⟨accounts.proper, nofun⟩
  | disconnect =>
    rw [List.append_nil]
    exact ⟨accounts.proper, trivial⟩

end

/-- What has gone out is in order, up to a unit that the wire tore. -/
inductive Written (program : String) (activity : Activity) : Standing → Prop where
  | whole (standing : Standing) (untorn : activity.torn = none)
      (accounts : Accounts program activity.wrote standing) : Written program activity standing
  | torn (unit : WireUnit) (part : List UInt8) (torn : activity.torn = some part)
      (front : part <+: unit.bytes) (proper : Proper program (activity.wrote ++ [unit])) :
      Written program activity (.ended (.error (.wire .cut)))

theorem Written.carried (before : Activity) {activity : Activity} {heard : List Heard}
    {next standing : Standing} (untorn : before.torn = none)
    (accounts : Accounts program (before.wrote ++ units) next)
    (carried : Carried heard units next activity standing) :
    Written program (before ++ activity) standing := by
  cases carried with
  | whole => exact .whole _ (by simp [untorn]) accounts
  | cut out unit rest part split front =>
    refine .torn unit part (by simp [untorn]) front (accounts.proper.of_prefix ⟨rest, ?_⟩)
    simp [split]

theorem kept_written (program : String) : Turn.Kept (fun _ => True) (Written program) := by
  intro before s heard units next activity standing written plan carried
  cases written with
  | whole _ untorn accounts => exact .carried before untorn (accounts_plan accounts plan) carried

theorem written_begin (filled : sentLines program ≠ []) (channel : Channel)
    (interval : Option Nat) :
    Written program (Session.begin channel program interval).activity
      (Session.begin channel program interval).state.standing := by
  have carried := Turn.carries_begin filled channel interval
  have coherent := Streamer.coherent_step Streamer.coherent_idle (.start program)
  obtain ⟨running, _, sent, _, open'⟩ :=
    Streamer.step_of_start Streamer.coherent_idle rfl filled
  have units : ∃ lines : List String,
      unitsOf (Streamer.idle.step (.start program)).2 = lines.map .line := by
    rw [Streamer.start_filled filled]
    exact (Streamer.unitsOf_fill rfl).1
  -- Only what is known of the first step counts from here on; unfolding it is slow.
  generalize Streamer.idle.step (.start program) = begun at *
  obtain ⟨lines, units⟩ := units
  have all : linesIn (unitsOf begun.2) ++ begun.1.pending = sentLines program := by
    rw [linesIn_unitsOf, sent]
  have accounts : Accounts program (unitsOf begun.2) (standingOf begun) := by
    rw [show standingOf begun = .running begun.1 from standingOf_open open']
    refine ⟨⟨⟨_, all⟩, ?_⟩, coherent, ?_, all, ?_⟩
    · rw [units]
      exact heedsHold_lines lines
    · simp [running]
    · rw [units, running]
      exact heldBy_lines lines
  have written := Written.carried .none rfl accounts carried
  rwa [Activity.none_append] at written

namespace Written

variable {activity : Activity} {standing : Standing}

theorem front_of_units (written : Written program activity standing) :
    ∃ units, activity.wrote <+: units ∧ activity.bytes <+: units.flatMap WireUnit.bytes ∧
      Proper program units := by
  cases written with
  | whole _ untorn accounts =>
    refine ⟨activity.wrote, List.prefix_rfl, ?_, accounts.proper⟩
    simp [Activity.bytes, untorn]
  | torn unit part torn front proper =>
    refine ⟨activity.wrote ++ [unit], List.prefix_append _ _, ?_, proper⟩
    simpa [Activity.bytes, torn] using front

theorem completed (written : Written program activity (.ended (.ok .completed))) :
    activity.torn = none ∧ linesIn activity.wrote = sentLines program := by
  cases written with
  | whole _ untorn accounts => exact ⟨untorn, accounts.settled⟩

theorem aborted (written : Written program activity (.ended (.ok .aborted))) :
    activity.torn = none ∧ activity.wrote.getLast? = some (.signal .reset) := by
  cases written with
  | whole _ untorn accounts => exact ⟨untorn, accounts.settled⟩

theorem not_nothingToSend : ¬ Written program activity (.ended (.ok .nothingToSend)) := by
  intro written
  cases written with
  | whole _ _ accounts => exact accounts.settled

theorem torn_iff (written : Written program activity standing) :
    activity.torn.isSome ↔ standing = .ended (.error (.wire .cut)) := by
  cases written with
  | whole _ untorn accounts =>
    have uncut : standing ≠ .ended (.error (.wire .cut)) := by
      rintro rfl
      exact accounts.settled rfl
    simp [untorn, uncut]
  | torn _ _ torn => simp [torn]

end Written

theorem state_of_standing {state : SessionState} {result : Except ChannelError JobEnding} :
    state = .over result ↔ state.standing = .ended result := by
  cases state <;> simp [SessionState.standing]

end LaserCutter
