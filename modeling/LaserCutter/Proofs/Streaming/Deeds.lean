import LaserCutter.Controller.Session
import LaserCutter.Proofs.Streaming.Step

/-!
# What a job does on its channel

However things happen, a job does one thing after the other: it takes up an event, passes over a
response, asks for the status, or ends with its channel (`Plan`). What it writes goes out whole, or
the wire is cut on the way (`Carried`). A property that each of these keeps is kept by everything
that happens (`Turn.run_keeps`).
-/

namespace LaserCutter

/-- How a job stands: with a streamer, or ended. -/
inductive Standing where
  | running (streamer : Streamer)
  | ended (result : Except ChannelError JobEnding)

def SessionState.standing : SessionState → Standing
  | .running session => .running session.streamer
  | .over result => .ended result

/-- How a job stands when effects that lead to a streamer are carried out. -/
def standingOf (result : Streamer × List Effect) : Standing :=
  match result.2.findSome? Effect.outcome? with
  | some outcome => .ended (.ok outcome)
  | none => .running result.1

/-- What a job sets out to do: what it hears, what it then writes, and how it stands once that is
written. The user's events are `allowed` ones. -/
inductive Plan (allowed : StreamEvent → Prop) (s : Streamer) :
    List Heard → List WireUnit → Standing → Prop where
  | control (event : StreamEvent) (fits : allowed event) :
      Plan allowed s [] (unitsOf (s.step event).2) (standingOf (s.step event))
  | answer : Plan allowed s [.response .ack] (unitsOf (s.step .ack).2) (standingOf (s.step .ack))
  /-- A response that is no acknowledgement. -/
  | passOver (r : Response) (other : r ≠ .ack) : Plan allowed s [.response r] [] (.running s)
  | askStatus : Plan allowed s [] [.signal .status] (.running s)
  | giveUp (fault : Text.Utf8Fault) :
    Plan allowed s [] [] (.ended (.error (.wire (.garbled fault))))
  | disconnect : Plan allowed s [.disconnected] [] (.ended (.ok .disconnected))

/-- What comes of a plan: its units go out whole, or the wire is cut inside one of them. -/
inductive Carried (heard : List Heard) (units : List WireUnit) (next : Standing) :
    Activity → Standing → Prop where
  | whole : Carried heard units next ⟨units, heard, none⟩ next
  | cut (out : List WireUnit) (unit : WireUnit) (rest : List WireUnit) (torn : List UInt8)
      (split : units = out ++ unit :: rest) (front : torn <+: unit.bytes) :
      Carried heard units next ⟨out, heard, some torn⟩ (.ended (.error (.wire .cut)))

/-- What was heard before comes first. -/
theorem Carried.after {units : List WireUnit} {next standing : Standing} {activity : Activity}
    (carried : Carried [] units next activity standing) (heard : List Heard) :
    Carried heard units next (.hearing heard ++ activity) standing := by
  have report (out : List WireUnit) (torn : Option (List UInt8)) :
      Activity.hearing heard ++ ⟨out, [], torn⟩ = ⟨out, heard, torn⟩ := by
    ext1 <;> simp [Activity.hearing]
  cases carried with
  | whole =>
    rw [report]
    exact .whole
  | cut out unit rest torn split front =>
    rw [report]
    exact .cut out unit rest torn split front

/-- A line is given up only because it is not UTF-8. -/
theorem garbled_of_error {line : List UInt8} {fault : WireFault}
    (failed : responseOf? line = .error fault) : ∃ reason, fault = .garbled reason := by
  unfold responseOf? at failed
  split at failed
  · cases failed
    exact ⟨_, rfl⟩
  · contradiction

theorem findSome?_outcome? {effects : List Effect} (open' : ∀ effect ∈ effects, ¬ effect.Ends) :
    effects.findSome? Effect.outcome? = none := by
  rw [List.findSome?_eq_none_iff]
  intro effect member
  have goesOn := open' effect member
  cases effect <;> simp [Effect.outcome?, Effect.Ends] at goesOn ⊢

/-- A job goes on after effects that end nothing. -/
theorem standingOf_open {s : Streamer} {effects : List Effect}
    (open' : ∀ effect ∈ effects, ¬ effect.Ends) : standingOf (s, effects) = .running s := by
  simp [standingOf, findSome?_outcome? open']

theorem standingOf_completed {s : Streamer} {front : List Effect}
    (open' : ∀ effect ∈ front, ¬ effect.Ends) :
    standingOf (s, front ++ [.completed]) = .ended (.ok .completed) := by
  simp [standingOf, List.findSome?_append, findSome?_outcome? open', Effect.outcome?]

namespace Channel

/-- The units that fit are the first ones, and what fits of the next one is its front. -/
theorem fitting_split {units : List WireUnit} {room : Nat}
    (short : room < (units.flatMap WireUnit.bytes).length) :
    ∃ unit rest, units = (fitting units room).1 ++ unit :: rest ∧
      (fitting units room).2 <+: unit.bytes := by
  induction units generalizing room with
  | nil => simp at short
  | cons u more ih =>
    by_cases fits : u.bytes.length ≤ room
    · have later : room - u.bytes.length < (more.flatMap WireUnit.bytes).length := by
        rw [List.flatMap_cons, List.length_append] at short
        omega
      obtain ⟨unit, rest, split, front⟩ := ih later
      simp only [fitting, if_pos fits]
      exact ⟨unit, rest, congrArg (u :: ·) split, front⟩
    · simp only [fitting, if_neg fits]
      exact ⟨u, more, rfl, List.take_prefix _ _⟩

/-- Either all units go out, or the wire is cut inside one of them. -/
theorem put_cases (c : Channel) (units : List WireUnit) :
    (∃ after, c.put units = (.sent units, some after)) ∨
      ∃ out unit rest torn, c.put units = (⟨out, [], some torn⟩, none) ∧
        units = out ++ unit :: rest ∧ torn <+: unit.bytes := by
  unfold put
  by_cases cut : c.cut
  · by_cases fits : (units.flatMap WireUnit.bytes).length ≤ c.room
    · exact .inl ⟨_, by simp only [if_pos cut, if_pos fits]; rfl⟩
    · obtain ⟨unit, rest, split, front⟩ := fitting_split (Nat.lt_of_not_le fits)
      exact .inr ⟨_, unit, rest, _, by simp only [if_pos cut, if_neg fits], split, front⟩
  · exact .inl ⟨c, by simp [cut]⟩

end Channel

namespace Turn

variable {allowed : StreamEvent → Prop} {P : Activity → Standing → Prop}

/-- A turn comes of a plan. -/
def Carries (turn : Turn) (heard : List Heard) (units : List WireUnit) (next : Standing) : Prop :=
  Carried heard units next turn.activity turn.state.standing

theorem carries_write (s : Session) (units : List WireUnit) :
    (s.write units).Carries [] units (.running s.streamer) := by
  rcases s.channel.put_cases units with ⟨after, whole⟩ | ⟨out, unit, rest, torn, cut, split, front⟩
  · simp only [Session.write, whole]
    exact .whole
  · simp only [Session.write, cut]
    exact .cut out unit rest torn split front

theorem carries_perform (s : Session) (effects : List Effect) :
    (s.perform effects).Carries [] (unitsOf effects) (standingOf (s.streamer, effects)) := by
  rcases s.channel.put_cases (unitsOf effects) with
    ⟨after, whole⟩ | ⟨out, unit, rest, torn, cut, split, front⟩
  · simp only [Session.perform, Session.write, whole, andThen, standingOf]
    cases effects.findSome? Effect.outcome? with
    | none =>
      simp only [wait, Carries, Activity.append_none]
      exact .whole
    | some outcome =>
      simp only [Carries, Activity.append_none]
      exact .whole
  · simp only [Session.perform, Session.write, cut, andThen]
    exact .cut out unit rest torn split front

theorem carries_handle (s : Session) (event : StreamEvent) :
    (s.handle event).Carries [] (unitsOf (s.streamer.step event).2)
      (standingOf (s.streamer.step event)) := carries_perform _ _

theorem begin_empty {program : String} (empty : sentLines program = []) (channel : Channel)
    (interval : Option Nat) :
    Session.begin channel program interval = ⟨.none, .over (.ok .nothingToSend)⟩ := by
  simp [Session.begin, Streamer.start_empty empty]

/-- A job with lines begins with the first of them. -/
theorem carries_begin {program : String} (filled : sentLines program ≠ []) (channel : Channel)
    (interval : Option Nat) :
    (Session.begin channel program interval).Carries []
      (unitsOf (Streamer.idle.step (.start program)).2)
      (standingOf (Streamer.idle.step (.start program))) := by
  have effects : (Streamer.idle.step (.start program)).2.isEmpty = false := by
    rw [Streamer.start_filled filled]
    have begun : (⟨.running, sentLines program, 0, 0⟩ : Streamer).phase = .running := rfl
    rcases Streamer.fill_cases begun with ⟨equal, _⟩ | ⟨equal, _⟩ <;>
      simp [equal, Streamer.fillEffects]
  have begins : Session.begin channel program interval =
      Session.perform ⟨(Streamer.idle.step (.start program)).1, channel, true,
        Polling.every? interval⟩ (Streamer.idle.step (.start program)).2 := by
    simp [Session.begin, effects]
  rw [begins]
  exact carries_perform _ _

/-- Nothing happens to a job that is over. -/
theorem run_over {turn : Turn} {result : Except ChannelError JobEnding}
    (ended : turn.state = .over result) (happenings : List Happening) :
    turn.run happenings = turn := by
  induction happenings with
  | nil => rfl
  | cons happening rest ih =>
    have still : turn.andThen (·.step happening) = turn := by simp [andThen, ended]
    change Turn.run (turn.andThen (·.step happening)) rest = turn
    rw [still, ih]

/-- The property holds when the turn is made after what went on before. -/
def Holds (P : Activity → Standing → Prop) (before : Activity) (turn : Turn) : Prop :=
  P (before ++ turn.activity) turn.state.standing

/-- Whatever a job does by a plan keeps the property. -/
def Kept (allowed : StreamEvent → Prop) (P : Activity → Standing → Prop) : Prop :=
  ∀ ⦃before s heard units next activity standing⦄, P before (.running s) →
    Plan allowed s heard units next → Carried heard units next activity standing →
      P (before ++ activity) standing

variable {before : Activity} {turn : Turn} {s : Session}

theorem holds_wait (holds : P before (.running s.streamer)) : (wait s).Holds P before := by
  change P (before ++ .none) (.running s.streamer)
  rw [Activity.append_none]
  exact holds

theorem holds_andThen {next : Session → Turn} (holds : turn.Holds P before)
    (goesOn : ∀ (before : Activity) (s : Session), P before (.running s.streamer) →
      (next s).Holds P before) : (turn.andThen next).Holds P before := by
  unfold andThen
  cases state : turn.state with
  | running session =>
    simp only [Holds, state, ← Activity.append_assoc] at holds ⊢
    exact goesOn _ session holds
  | _ result => exact holds

section
variable (kept : Kept allowed P)
include kept

theorem holds_hear (holds : P before (.running s.streamer)) (line : List UInt8) :
    (s.hear line).Holds P before := by
  unfold Session.hear
  split
  · rename_i fault failed
    obtain ⟨reason, rfl⟩ := garbled_of_error failed
    exact kept holds (.giveUp reason) .whole
  · exact holds_wait holds
  · rename_i r _
    by_cases ack : r = .ack
    · simp only [ack]
      exact kept holds .answer ((carries_handle s .ack).after [.response .ack])
    · simp only [if_neg ack]
      exact kept holds (.passOver r ack) .whole

/-- All lines that are ready are heard one after the other. -/
theorem holds_listen (holds : P before (.running s.streamer)) : s.listen.Holds P before := by
  have heard (lines : List (List UInt8)) (turn : Turn) (holds : turn.Holds P before) :
      (lines.foldl (fun turn line => turn.andThen (·.hear line)) turn).Holds P before := by
    induction lines generalizing turn with
    | nil => exact holds
    | cons line rest ih =>
      exact ih _ (holds_andThen holds fun _ _ holds => holds_hear kept holds line)
  refine holds_andThen (heard _ _ (holds_wait holds)) fun before s holds => ?_
  by_cases closed : s.channel.inbox.closed
  · simp only [if_pos closed]
    exact kept holds .disconnect .whole
  · simp only [if_neg closed]
    exact holds_wait holds

theorem holds_tick (holds : P before (.running s.streamer)) (passed : Nat) :
    (s.tick passed).Holds P before := by
  unfold Session.tick
  split
  · exact holds_wait holds
  · rename_i p _
    split
    · exact holds_wait holds
    · have asked := carries_write { s with polling := some { p with left := p.interval } }
        [.signal .status]
      exact kept holds .askStatus asked

theorem holds_step (holds : P before (.running s.streamer)) (happening : Happening)
    (fits : ∀ event, happening = .control event → allowed event) :
    (s.step happening).Holds P before := by
  cases happening with
  | received bytes => exact holds_listen kept holds
  | closed => exact holds_listen kept holds
  | control event =>
    by_cases controls : s.controls
    · simp only [Session.step, if_pos controls]
      exact kept holds (.control event (fits event rfl)) (carries_handle s event)
    · simp only [Session.step, if_neg controls]
      exact holds_wait holds
  | controlsClosed => exact holds_wait holds
  | clock passed => exact holds_tick kept holds passed
  | wireEnds room => exact holds_wait holds

/-- What every plan keeps holds whatever happens. -/
theorem run_keeps (happenings : List Happening)
    (fits : ∀ event, .control event ∈ happenings → allowed event)
    (holds : P turn.activity turn.state.standing) :
    P (turn.run happenings).activity (turn.run happenings).state.standing := by
  change turn.Holds P .none at holds
  induction happenings generalizing turn with
  | nil => exact holds
  | cons happening rest ih =>
    apply ih fun event member => fits event (List.mem_cons_of_mem _ member)
    refine holds_andThen holds fun before s holds => holds_step kept holds happening ?_
    intro event equal
    exact fits event (equal ▸ List.mem_cons_self)

end

end Turn

end LaserCutter
