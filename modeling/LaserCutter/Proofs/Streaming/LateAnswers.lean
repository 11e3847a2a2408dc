import LaserCutter.Proofs.Streaming.Delivery

/-!
# Answers that come late

An acknowledgement carries no job. So one for a line of an aborted job that arrives while a later
job is active is taken for a line of that job. The ledger keeps, beside the streamer, which job each
line belongs to that may still be acknowledged, and counts for each job what was sent and what was
acknowledged. Lines are acknowledged in the order in which they were sent, each at most once, and
perhaps never.

For an active job, what is sent and not acknowledged is what the streamer counts as unanswered, plus
the late answers that it counted, less the answers of its own that found nothing unanswered any more
(`Ledger.Counts`).
-/

namespace LaserCutter

/-- What has come of the lines of a job. -/
structure Tally where
  sent : Nat
  /-- How many of its lines are acknowledged themselves. -/
  acknowledged : Nat
  /-- How many of these acknowledgements found nothing unanswered. -/
  missed : Nat
  /-- How many acknowledgements of earlier jobs' lines were counted for this job. -/
  late : Nat
  deriving DecidableEq, Repr

namespace Tally

def none : Tally := ⟨0, 0, 0, 0⟩

def unacknowledged (t : Tally) : Nat := t.sent - t.acknowledged

end Tally

/-- A streamer, and whose lines may still be acknowledged. -/
structure Ledger where
  streamer : Streamer
  /-- How many jobs have begun, which is also the number of the latest one. -/
  job : Nat
  /-- The jobs of the lines that may still be acknowledged, the oldest line first. -/
  outstanding : List Nat
  tally : Nat → Tally

namespace Ledger

/-- What can happen next. -/
inductive Act where
  /-- Any event but an acknowledgement. -/
  | event (event : StreamEvent)
  /-- A line is acknowledged; the `lost` lines before it never will be. -/
  | acknowledge (lost : Nat)
  deriving DecidableEq, Repr

/-- The ledger once `count` lines of the job `latest` are sent. -/
def extended (l : Ledger) (streamer : Streamer) (latest count : Nat) : Ledger where
  streamer := streamer
  job := latest
  outstanding := l.outstanding ++ List.replicate count latest
  tally job := { l.tally job with sent := (l.tally job).sent + if job = latest then count else 0 }

/-- The streamer takes an event, and what it sends may be acknowledged. -/
def take (l : Ledger) (event : StreamEvent) : Ledger × List Effect :=
  let (next, effects) := l.streamer.step event
  let latest := if (l.streamer.begun? event).isSome then l.job + 1 else l.job
  (l.extended next latest (sends effects).length, effects)

/-- The tallies once a line of `owner` is acknowledged: its own job has one line more acknowledged,
and the active job counts the answer for a line of its own as long as it has any unanswered. -/
def credited (l : Ledger) (owner job : Nat) : Tally :=
  let t := l.tally job
  let active := l.streamer.phase ≠ .idle ∧ job = l.job
  let counts := 0 < l.streamer.inFlight
  { t with
    acknowledged := t.acknowledged + if job = owner then 1 else 0
    missed := t.missed + if job = owner ∧ active ∧ ¬ counts then 1 else 0
    late := t.late + if job ≠ owner ∧ active ∧ counts then 1 else 0 }

/-- What an act leads to, with the effects of the streamer; `none` where it cannot happen. -/
def act (l : Ledger) : Act → Option (Ledger × List Effect)
  | .event .ack => none
  | .event event => some (l.take event)
  | .acknowledge lost =>
    match l.outstanding.drop lost with
    | [] => none
    | owner :: rest => some ({ l with outstanding := rest, tally := l.credited owner }.take .ack)

/-- No job yet. -/
def empty : Ledger := ⟨.idle, 0, [], fun _ => .none⟩

/-- What a new streamer can come to. -/
inductive Reachable : Ledger → Prop where
  | empty : Reachable empty
  | next {l l' : Ledger} {a : Act} {effects : List Effect} (reached : Reachable l)
      (acted : l.act a = some (l', effects)) : Reachable l'

variable {l l' : Ledger} {a : Act} {event : StreamEvent} {effects : List Effect} {owner : Nat}
  {rest : List Nat}

/-- The counts agree, when `answered` of the unanswered lines are being answered. -/
structure Counts (l : Ledger) (answered : Nat) : Prop where
  coherent : l.streamer.Coherent
  fresh : ∀ job, l.job < job → l.tally job = .none
  once : ∀ job, (l.tally job).acknowledged + l.outstanding.count job ≤ (l.tally job).sent
  bounded : ∀ job, (l.tally job).sent + (l.tally job).missed ≤
    window + (l.tally job).acknowledged + (l.tally job).late
  counted : l.streamer.phase ≠ .idle → (l.tally l.job).sent + (l.tally l.job).missed =
    l.streamer.inFlight - answered + (l.tally l.job).acknowledged + (l.tally l.job).late
  current : l.streamer.phase ≠ .idle → (l.tally l.job).sent = l.streamer.sent

theorem counts_empty : Counts empty 0 :=
  ⟨Streamer.coherent_idle, fun _ _ => rfl, fun _ => Nat.le_refl _, fun _ => Nat.zero_le _,
    fun active => absurd rfl active, fun active => absurd rfl active⟩

/-- An acknowledgement is credited to the line's own job, and counted for the active one. -/
theorem counts_credited (counts : Counts l 0) {lost : Nat}
    (dropped : l.outstanding.drop lost = owner :: rest) :
    Counts { l with outstanding := rest, tally := l.credited owner } 1 := by
  obtain ⟨coherent, fresh, once, bounded, counted, current⟩ := counts
  have fewer (job : Nat) : rest.count job + (if job = owner then 1 else 0) ≤
      l.outstanding.count job := by
    have sublist := (List.drop_sublist lost l.outstanding).count_le job
    rw [dropped, List.count_cons] at sublist
    grind
  have known : owner ≤ l.job := by
    by_cases later : l.job < owner
    · have unsent := once owner
      have one := fewer owner
      rw [fresh owner later] at unsent
      simp only [Tally.none, if_pos] at unsent one
      omega
    · exact Nat.le_of_not_lt later
  refine ⟨coherent, fun job later => ?_, fun job => ?_, fun job => ?_, fun active => ?_, current⟩
  · have later : l.job < job := later
    have other : job ≠ owner := by omega
    have idle : job ≠ l.job := by omega
    simp [credited, fresh job later, other, idle, Tally.none]
  · have before := once job
    have one := fewer job
    simp only [credited]
    omega
  · have before := bounded job
    simp only [credited]
    grind
  · have before := counted active
    simp only [credited]
    grind

/-- How many lines are sent follows from which are pending. -/
theorem sent_of_pending {s : Streamer} {lines : List String} {before : Nat} (coherent : s.Coherent)
    (within : before ≤ s.total) (pending : lines ++ s.pending = s.lines.drop before) :
    s.sent = before + lines.length := by
  have bounded := coherent.sent_le_total
  have length := congrArg List.length pending
  simp only [Streamer.pending, Streamer.total, List.length_append, List.length_drop] at *
  omega

/-- Lines are sent for the latest job, and the counts agree again. -/
theorem counts_extended {next : Streamer} {answered latest count : Nat} (counts : Counts l answered)
    (coherent : next.Coherent) (latest_le : l.job ≤ latest)
    (within : (l.tally latest).sent + count + (l.tally latest).missed ≤
      window + (l.tally latest).acknowledged + (l.tally latest).late)
    (counted : next.phase ≠ .idle → (l.tally latest).sent + count + (l.tally latest).missed =
      next.inFlight + (l.tally latest).acknowledged + (l.tally latest).late)
    (current : next.phase ≠ .idle → (l.tally latest).sent + count = next.sent) :
    Counts (l.extended next latest count) 0 := by
  obtain ⟨_, fresh, once, bounded, _, _⟩ := counts
  refine ⟨coherent, fun job later => ?_, fun job => ?_, fun job => ?_, ?_, ?_⟩
  · have later : latest < job := later
    have other : job ≠ latest := by omega
    simp [extended, fresh job (by omega), other, Tally.none]
  · have before := once job
    simp only [extended, List.count_append, List.count_replicate]
    grind
  · have before := bounded job
    simp only [extended]
    grind
  · simpa [extended] using counted
  · simpa [extended] using current

/-- A new job begins its tally with the lines that it sends at once. -/
theorem counts_begun {program : String} {answered : Nat} (counts : Counts l answered)
    (free : l.streamer.phase = .idle) (filled : sentLines program ≠ []) :
    Counts (l.take (.start program)).1 0 := by
  have coherent := Streamer.coherent_step counts.coherent (.start program)
  obtain ⟨_, lines, sent, inFlight, _⟩ := Streamer.step_of_start counts.coherent free filled
  have begins : (l.streamer.begun? (.start program)).isSome := by
    simp [Streamer.begun?, free, filled]
  have first := sent_of_pending coherent (Nat.zero_le _) (sent.trans lines.symm)
  have new := counts.fresh (l.job + 1) (Nat.lt_succ_self _)
  have fits := coherent.inFlight_le_window
  simp only [take, begins, if_true]
  refine counts_extended counts coherent (Nat.le_succ _) ?_ (fun _ => ?_) fun _ => ?_
  all_goals simp only [new, Tally.none, Nat.zero_add, Nat.add_zero]
  · omega
  · exact inFlight.symm
  · rw [first, Nat.zero_add]

/-- Where no job begins, what is sent is sent for the latest one. -/
theorem take_of_none (unbegun : l.streamer.begun? event = none) :
    l.take event = (l.extended (l.streamer.step event).1 l.job
      (sends (l.streamer.step event).2).length, (l.streamer.step event).2) := by
  simp [take, unbegun]

/-- Where the streamer comes to rest without sending, no count changes. -/
theorem counts_rest {answered : Nat} (counts : Counts l answered)
    (unbegun : l.streamer.begun? event = none) (rests : (l.streamer.step event).1 = .idle)
    (silent : sends (l.streamer.step event).2 = []) : Counts (l.take event).1 0 := by
  rw [take_of_none unbegun, rests, silent]
  exact counts_extended counts Streamer.coherent_idle (Nat.le_refl _) (counts.bounded l.job)
    (fun active => absurd rfl active) fun active => absurd rfl active

/-- An active job adds what it sends to its tally, also with its last step. -/
theorem counts_active (counts : Counts l (Streamer.answered event))
    (active : l.streamer.phase ≠ .idle) (keeps : event ≠ .abort) : Counts (l.take event).1 0 := by
  have coherent := Streamer.coherent_step counts.coherent event
  have unbegun : l.streamer.begun? event = none := Streamer.begun?_of_active active event
  have inFlight := Streamer.inFlight_of_active counts.coherent active keeps
  have before := counts.counted active
  have counted : (l.tally l.job).sent + (sends (l.streamer.step event).2).length +
      (l.tally l.job).missed = (l.streamer.step event).1.inFlight +
        (l.tally l.job).acknowledged + (l.tally l.job).late := by omega
  have fits := coherent.inFlight_le_window
  rw [take_of_none unbegun]
  refine counts_extended counts coherent (Nat.le_refl _) (by omega) (fun _ => counted) ?_
  intro goesOn
  rcases Streamer.step_of_active counts.coherent active event with
    ⟨_, lines, pending, _⟩ | ⟨next, _⟩ | ⟨abort, _⟩
  · rw [counts.current active]
    have within : l.streamer.sent ≤ (l.streamer.step event).1.total := by
      rw [Streamer.total, lines]
      exact counts.coherent.sent_le_total
    have left : l.streamer.pending = (l.streamer.step event).1.lines.drop l.streamer.sent := by
      rw [lines, Streamer.pending]
    exact (sent_of_pending coherent within (pending.trans left)).symm
  · rw [next] at goesOn
    exact absurd rfl goesOn
  · exact absurd abort keeps

/-- Whatever event the streamer takes, the counts agree again. -/
theorem counts_take (counts : Counts l (Streamer.answered event)) : Counts (l.take event).1 0 := by
  by_cases free : l.streamer.phase = .idle
  · cases begins : l.streamer.begun? event with
    | none =>
      have still := Streamer.step_of_begun?_none counts.coherent free begins
      exact counts_rest counts begins (by rw [still]) (by rw [still]; rfl)
    | some lines =>
      cases event with
      | start program =>
        have filled : sentLines program ≠ [] := by
          intro empty
          simp [Streamer.begun?, empty] at begins
        exact counts_begun counts free filled
      | _ => contradiction
  · by_cases abort : event = .abort
    · have result : l.streamer.step event = (.idle, [.signal .reset, .aborted]) := by
        rw [abort, Streamer.step_abort free]
      exact counts_rest counts (Streamer.begun?_of_active free event) (by rw [result])
        (by rw [result]; rfl)
    · exact counts_active counts free abort

/-- An act is an event that the streamer takes with the counts in order. -/
theorem take_of_act (counts : Counts l 0) (acted : l.act a = some (l', effects)) :
    ∃ ready event, ready.streamer = l.streamer ∧ Counts ready (Streamer.answered event) ∧
      ready.take event = (l', effects) := by
  cases a with
  | event event =>
    have taken : Streamer.answered event = 0 ∧ some (l.take event) = some (l', effects) := by
      cases event with
      | ack => contradiction
      | _ => exact ⟨rfl, acted⟩
    exact ⟨l, event, rfl, by rw [taken.1]; exact counts, Option.some.inj taken.2⟩
  | acknowledge lost =>
    simp only [act] at acted
    split at acted
    · contradiction
    · rename_i owner rest dropped
      exact ⟨{ l with outstanding := rest, tally := l.credited owner }, .ack, rfl,
        counts_credited counts dropped, Option.some.inj acted⟩

theorem counts_reachable (reached : Reachable l) : Counts l 0 := by
  induction reached with
  | empty => exact counts_empty
  | next _ acted ih =>
    obtain ⟨ready, event, _, counts, taken⟩ := take_of_act ih acted
    have after := counts_take counts
    rw [taken] at after
    exact after

/-- A completed job has sent all its lines, and has none left that it counts as unanswered. -/
theorem tally_of_completed (counts : Counts l (Streamer.answered event))
    (completed : .completed ∈ (l.take event).2) :
    let t := (l.take event).1.tally (l.take event).1.job
    t.sent = l.streamer.total ∧ t.sent + t.missed = t.acknowledged + t.late := by
  have active : l.streamer.phase ≠ .idle :=
    Streamer.active_of_ends counts.coherent completed trivial
  have unbegun : l.streamer.begun? event = none := Streamer.begun?_of_active active event
  rw [take_of_none unbegun] at completed ⊢
  have keeps : event ≠ .abort := by
    rintro rfl
    rw [Streamer.step_abort active] at completed
    simp at completed
  have inFlight := Streamer.inFlight_of_active counts.coherent active keeps
  have counted := counts.counted active
  have current := counts.current active
  have bounded := counts.coherent.sent_le_total
  rcases Streamer.step_of_active counts.coherent active event with
    ⟨_, _, _, open'⟩ | ⟨next, front, split, pending, _⟩ | ⟨abort, _⟩
  · exact absurd trivial (open' _ completed)
  · have rest : (sends (l.streamer.step event).2).length = l.streamer.total - l.streamer.sent := by
      rw [split, sends_append, pending]
      simp [Effect.line?, Streamer.pending, Streamer.total]
    rw [next] at inFlight
    simp only [extended, if_true, Streamer.idle] at inFlight ⊢
    omega
  · exact absurd abort keeps

/-- For every job, what is sent and not itself acknowledged exceeds the window at most by the late
answers that were counted for the job, less its own answers that were missed. While the job is
active, it exceeds what the streamer counts as unanswered by just as many. And when the job is
completed, all its lines are sent, and just as many are not acknowledged. So the window holds, and
completion means that every line is acknowledged, as long as no late answer is counted for the job.
-/
theorem late_answers_counted (reached : Reachable l) :
    (∀ job, (l.tally job).unacknowledged + (l.tally job).missed ≤ window + (l.tally job).late) ∧
      (l.streamer.phase ≠ .idle →
        (l.tally l.job).unacknowledged + (l.tally l.job).missed =
          l.streamer.inFlight + (l.tally l.job).late) ∧
      ∀ a l' effects, l.act a = some (l', effects) → .completed ∈ effects →
        (l'.tally l'.job).sent = l.streamer.total ∧
          (l'.tally l'.job).unacknowledged + (l'.tally l'.job).missed = (l'.tally l'.job).late := by
  have counts := counts_reachable reached
  refine ⟨fun job => ?_, fun active => ?_, fun a l' effects acted completed => ?_⟩
  · have once := counts.once job
    have bounded := counts.bounded job
    unfold Tally.unacknowledged
    omega
  · have once := counts.once l.job
    have counted := counts.counted active
    unfold Tally.unacknowledged
    omega
  · obtain ⟨ready, event, same, before, taken⟩ := take_of_act counts acted
    have after : Counts l' 0 := by simpa only [taken] using counts_take before
    obtain ⟨all, balance⟩ : (l'.tally l'.job).sent = ready.streamer.total ∧
        (l'.tally l'.job).sent + (l'.tally l'.job).missed =
          (l'.tally l'.job).acknowledged + (l'.tally l'.job).late := by
      simpa only [taken] using tally_of_completed before (by rw [taken]; exact completed)
    have once := after.once l'.job
    refine ⟨all.trans (by rw [same]), ?_⟩
    unfold Tally.unacknowledged
    omega

/-- A job of one line is aborted, and the acknowledgement of that line arrives while the next job
runs: the job is then completed with one late answer counted and one line not acknowledged. -/
theorem late_answers_counted_restart :
    ∃ l l' : Ledger, ∃ effects, Reachable l ∧ l.act (.acknowledge 0) = some (l', effects) ∧
      .completed ∈ effects ∧ (l'.tally l'.job).late = 1 ∧
      (l'.tally l'.job).unacknowledged + (l'.tally l'.job).missed = (l'.tally l'.job).late := by
  have aborted := (Reachable.empty.next (a := .event (.start "A\n")) rfl).next
    (a := .event .abort) rfl
  have restarted := aborted.next (a := .event (.start "B\n")) rfl
  obtain ⟨_, _, completes⟩ := late_answers_counted restarted
  have counted := (completes (.acknowledge 0) _ _ rfl (by decide)).2
  exact ⟨_, _, _, restarted, rfl, by decide, by decide, counted⟩

/-- Late answers count for a later job: a job runs with four lines sent and not acknowledged, and
another is completed with its only line not acknowledged. -/
theorem late_answer_counts :
    (∃ l : Ledger, Reachable l ∧ l.streamer.phase = .running ∧
        (l.tally l.job).unacknowledged = 4) ∧
      ∃ l l' : Ledger, ∃ effects, Reachable l ∧ l.act (.acknowledge 0) = some (l', effects) ∧
        .completed ∈ effects ∧ (l'.tally l'.job).sent = 1 ∧
        (l'.tally l'.job).acknowledged = 0 := by
  refine ⟨?_, ?_⟩
  · have aborted := (Reachable.empty.next (a := .event (.start "A\nB\nC\n")) rfl).next
      (a := .event .abort) rfl
    have restarted := aborted.next (a := .event (.start "D\nE\nF\nG\n")) rfl
    exact ⟨_, restarted.next (a := .acknowledge 0) rfl, by decide, by decide⟩
  · have aborted := (Reachable.empty.next (a := .event (.start "A\n")) rfl).next
      (a := .event .abort) rfl
    have restarted := aborted.next (a := .event (.start "B\n")) rfl
    exact ⟨_, _, _, restarted, rfl, by decide, by decide, by decide⟩

end Ledger

end LaserCutter
