import LaserCutter.Proofs.Streaming.Turns

/-!
# Status queries

A job that asks for the status does the same as one that does not, the queries aside: it takes up the
same events and hears the same, and it ends with the same happening (`polling_transparent`). The two
are driven side by side (`Turn.Alike`). How often a job asks is a matter of the clock alone: once
after the first lines, and then once for each deadline that it lives to see.
-/

namespace LaserCutter

namespace Activity

/-- The activity without status queries. -/
def unasked (a : Activity) : Activity := { a with wrote := a.wrote.filter (· ≠ .signal .status) }

/-- How many status queries went out. -/
def asked (a : Activity) : Nat := a.wrote.count (.signal .status)

variable (a b : Activity)

@[simp] theorem unasked_append : (a ++ b).unasked = a.unasked ++ b.unasked := by
  ext1 <;> simp [unasked]

@[simp] theorem asked_append : (a ++ b).asked = a.asked + b.asked := List.count_append

@[simp] theorem asked_hearing (heard : List Heard) : (hearing heard).asked = 0 := rfl

@[simp] theorem asked_unasked : a.unasked.asked = 0 := by
  refine List.count_eq_zero.mpr fun member => ?_
  simpa using (List.mem_filter.mp member).2

theorem unasked_of_silent {a : Activity} (silent : a.asked = 0) : a.unasked = a := by
  have kept : a.wrote.filter (· ≠ .signal .status) = a.wrote := by
    refine List.filter_eq_self.mpr fun unit member => ?_
    have absent := List.count_eq_zero.mp silent
    simp only [decide_eq_true_eq]
    rintro rfl
    exact absent member
  rw [unasked, kept]

end Activity

/-- How far the clock moves on with each of the happenings that move it. -/
def advances (happenings : List Happening) : List Nat :=
  happenings.filterMap fun
    | .clock passed => some passed
    | _ => none

theorem advances_cons (happening : Happening) (rest : List Happening) :
    advances (happening :: rest) = advances [happening] ++ advances rest := by
  rw [advances, ← List.singleton_append, List.filterMap_append]
  rfl

/-- How much time passes. -/
def elapsed (times : List Nat) : Nat := times.foldr (· + ·) 0

/-- How many status deadlines the clock reaches when it moves on by the given times, `since` after
the last query. A deadline stands one interval after the query before it. -/
def deadlines (interval : Nat) : Nat → List Nat → Nat
  | _, [] => 0
  | since, passed :: rest =>
    if since + passed < interval then deadlines interval (since + passed) rest
    else deadlines interval 0 rest + 1

/-- The clock never moves on past a deadline, only up to it. -/
def Punctual (interval : Nat) : Nat → List Nat → Prop
  | _, [] => True
  | since, passed :: rest =>
    since + passed ≤ interval ∧ Punctual interval ((since + passed) % interval) rest

/-- A clock that never moves on past a deadline reaches one for each interval. -/
theorem deadlines_punctual {interval since : Nat} {times : List Nat} (early : since < interval)
    (punctual : Punctual interval since times) :
    deadlines interval since times = (since + elapsed times) / interval := by
  induction times generalizing since with
  | nil => simpa [deadlines, elapsed] using (Nat.div_eq_of_lt early).symm
  | cons passed rest ih =>
    obtain ⟨within, later⟩ := punctual
    have sum : since + elapsed (passed :: rest) = since + passed + elapsed rest :=
      (Nat.add_assoc ..).symm
    rw [deadlines, sum]
    rcases Nat.lt_or_eq_of_le within with before | reached
    · rw [Nat.mod_eq_of_lt before] at later
      rw [if_pos before, ih before later]
    · rw [reached, Nat.mod_self] at later
      have positive : 0 < interval := Nat.lt_of_le_of_lt (Nat.zero_le _) early
      rw [if_neg (by omega), ih positive later, reached, Nat.zero_add, Nat.add_comm interval,
        Nat.add_div_right _ positive]

/-- How many of the deadlines of a session the clock reaches. -/
def due (polling : Option Polling) (times : List Nat) : Nat :=
  match polling with
  | none => 0
  | some p => deadlines p.interval (p.interval - p.left) times

/-- No more than an interval is left to the next query. -/
def Timed (polling : Option Polling) : Prop := ∀ p ∈ polling, p.left ≤ p.interval

@[simp] theorem due_nil (polling : Option Polling) : due polling [] = 0 := by
  cases polling <;> rfl

theorem due_before {interval left passed : Nat} (within : left ≤ interval) (before : passed < left)
    (times : List Nat) :
    due (some ⟨interval, left⟩) (passed :: times) =
      due (some ⟨interval, left - passed⟩) times := by
  have early : interval - left + passed < interval := by omega
  have since : interval - left + passed = interval - (left - passed) := by omega
  simp only [due, deadlines]
  rw [if_pos early, since]

theorem due_reached {interval left passed : Nat} (within : left ≤ interval)
    (reached : ¬ passed < left) (times : List Nat) :
    due (some ⟨interval, left⟩) (passed :: times) =
      due (some ⟨interval, interval⟩) times + 1 := by
  have late : ¬ interval - left + passed < interval := by omega
  simp only [due, deadlines, Nat.sub_self]
  rw [if_neg late]

/-- The happenings that a job lives to see, the one that ends it included. -/
def SessionState.lived : SessionState → List Happening → List Happening
  | .over _, _ => []
  | .running _, [] => []
  | .running s, happening :: rest => happening :: lived (s.step happening).state rest

/-- How far the clock moves on at each go as long as the job lives. -/
def SessionState.lifetime (state : SessionState) (happenings : List Happening) : List Nat :=
  advances (state.lived happenings)

@[simp] theorem SessionState.lived_nil (state : SessionState) : state.lived [] = [] := by
  cases state <;> rfl

/-- The session without status queries. -/
def Session.unpolled (s : Session) : Session := { s with polling := none }

/-- The streamer does not ask for the status. -/
theorem Streamer.asks_nothing (s : Streamer) (event : StreamEvent) :
    (unitsOf (s.step event).2).count (.signal .status) = 0 := by
  obtain ⟨phase, lines, sent, inFlight⟩ := s
  have filled (lines : List String) (sent inFlight : Nat) :
      (unitsOf (fill ⟨.running, lines, sent, inFlight⟩).2).count (.signal .status) = 0 := by
    rw [unitsOf_fill_eq rfl, List.count_eq_zero]
    simp
  have resumed (lines : List String) (sent inFlight : Nat) :
      (unitsOf (.signal .resume :: (fill ⟨.running, lines, sent, inFlight⟩).2)).count
        (.signal .status) = 0 := by
    simpa [unitsOf, Effect.unit?] using filled lines sent inFlight
  cases phase with
  | idle =>
    cases event with
    | start program =>
      simp only [step]
      split
      · rfl
      · exact filled _ _ _
    | _ => rfl
  | running =>
    cases event with
    | ack | poll => exact filled _ _ _
    | _ => rfl
  | paused =>
    cases event with
    | start | resume => exact resumed _ _ _
    | _ => rfl

namespace Turn

/-- Two turns, of which only the first one may ask for the status: they do the same apart from
`queries` queries, and lead to the same session on a whole wire, with `polling` in the first one, or
to the same end. -/
structure Alike (queries : Nat) (polling : Option Polling) (polled quiet : Turn) : Prop where
  activity : quiet.activity = polled.activity.unasked
  asked : polled.activity.asked = queries
  state : (∃ s : Session, polled.state = .running s ∧ quiet.state = .running s.unpolled ∧
      s.channel.cut = false ∧ s.polling = polling) ∨
    ∃ result, polled.state = .over result ∧ quiet.state = .over result

variable {polling next : Option Polling} {polled quiet : Turn} {queries : Nat} {s : Session}

theorem alike_wait (whole : s.channel.cut = false) :
    Alike 0 s.polling (wait s) (wait s.unpolled) where
  activity := rfl
  asked := rfl
  state := .inl ⟨s, rfl, rfl, whole, rfl⟩

theorem Alike.quiet_running (alike : Alike queries polling polled quiet)
    (state : polled.state = .running s) :
    quiet.state = .running s.unpolled ∧ s.channel.cut = false ∧ s.polling = polling := by
  obtain ⟨t, goesOn, goesOn', whole, same⟩ | ⟨result, ended, _⟩ := alike.state
  · obtain rfl : t = s := SessionState.running.inj (goesOn.symm.trans state)
    exact ⟨goesOn', whole, same⟩
  · exact SessionState.noConfusion (ended.symm.trans state)

theorem Alike.goesOn {f g : Session → Turn} {more : Nat}
    (alike : Alike queries polling polled quiet) (state : polled.state = .running s)
    (then_ : Alike more next (f s) (g s.unpolled)) :
    Alike (queries + more) next (polled.andThen f) (quiet.andThen g) := by
  rw [andThen_running state, andThen_running (alike.quiet_running state).1]
  exact ⟨by simp [alike.activity, then_.activity], by simp [alike.asked, then_.asked], then_.state⟩

theorem Alike.over_iff (alike : Alike queries polling polled quiet)
    {result : Except ChannelError JobEnding} :
    polled.state = .over result ↔ quiet.state = .over result := by
  obtain ⟨s, state, state', _⟩ | ⟨_, state, state'⟩ := alike.state
  · simp [state, state']
  · rw [state, state']

/-- Turns that are alike and ask nothing, and go on alike. -/
theorem alike_andThen {f g : Session → Turn} (alike : Alike 0 polling polled quiet)
    (goesOn : ∀ s : Session, s.channel.cut = false → s.polling = polling →
      Alike 0 polling (f s) (g s.unpolled)) :
    Alike 0 polling (polled.andThen f) (quiet.andThen g) := by
  cases state : polled.state with
  | running s =>
    obtain ⟨_, whole, same⟩ := alike.quiet_running state
    exact alike.goesOn state (goesOn s whole same)
  | _ result =>
    obtain ⟨s, state', _⟩ | ⟨result, state', ended⟩ := alike.state
    · exact SessionState.noConfusion (state.symm.trans state')
    · rw [andThen_over state', andThen_over ended]
      exact alike

theorem alike_after (alike : Alike queries polling polled quiet) (heard : List Heard) :
    Alike queries polling (polled.after (.hearing heard)) (quiet.after (.hearing heard)) where
  activity := by
    simp only [after, alike.activity, Activity.unasked_append]
    rfl
  asked := by simp [after, alike.asked]
  state := alike.state

theorem alike_handle (whole : s.channel.cut = false) (event : StreamEvent) :
    Alike 0 s.polling (s.handle event) (s.unpolled.handle event) := by
  have silent : (Activity.sent (unitsOf (s.streamer.step event).2)).asked = 0 :=
    s.streamer.asks_nothing event
  have same : s.unpolled.streamer = s.streamer := rfl
  rw [Session.handle_whole whole, Session.handle_whole (s := s.unpolled) whole, same]
  cases standingOf (s.streamer.step event) with
  | running streamer =>
    exact ⟨(Activity.unasked_of_silent silent).symm, silent, .inl ⟨_, rfl, rfl, whole, rfl⟩⟩
  | ended result =>
    exact ⟨(Activity.unasked_of_silent silent).symm, silent, .inr ⟨result, rfl, rfl⟩⟩

theorem alike_hear (whole : s.channel.cut = false) (line : List UInt8) :
    Alike 0 s.polling (s.hear line) (s.unpolled.hear line) := by
  unfold Session.hear
  cases responseOf? line with
  | error fault => exact ⟨rfl, rfl, .inr ⟨_, rfl, rfl⟩⟩
  | ok said =>
    cases said with
    | none => exact alike_wait whole
    | some r =>
      apply alike_after
      split
      · exact alike_handle whole .ack
      · exact alike_wait whole

theorem alike_hearAll (whole : s.channel.cut = false) (lines : List (List UInt8)) :
    Alike 0 s.polling (s.hearAll lines) (s.unpolled.hearAll lines) := by
  induction lines generalizing s with
  | nil => exact alike_wait whole
  | cons line rest ih =>
    refine alike_andThen (alike_hear whole line) fun s whole same => ?_
    rw [← same]
    exact ih whole

theorem alike_hangUp (whole : s.channel.cut = false) :
    Alike 0 s.polling s.hangUp s.unpolled.hangUp := by
  have copied : s.unpolled.channel.inbox.closed = s.channel.inbox.closed := rfl
  rw [Session.hangUp, Session.hangUp, copied]
  split
  · exact ⟨rfl, rfl, .inr ⟨_, rfl, rfl⟩⟩
  · exact alike_wait whole

theorem alike_listen (whole : s.channel.cut = false) :
    Alike 0 s.polling s.listen s.unpolled.listen := by
  rw [Session.listen_eq, Session.listen_eq]
  have heard := alike_hearAll (s := { s with channel.inbox := s.channel.inbox.emptied }) whole
    s.channel.inbox.lines
  refine alike_andThen heard fun s whole same => ?_
  rw [← same]
  exact alike_hangUp whole

/-- Passing time writes nothing but a query for the deadline that it reaches, if it does. -/
theorem alike_tick (whole : s.channel.cut = false) (timed : Timed s.polling) (passed : Nat) :
    ∃ next, Alike (due s.polling [passed]) next (s.tick passed) (s.unpolled.tick passed) ∧
      Timed next ∧ ∀ times, due s.polling (passed :: times) =
        due s.polling [passed] + due next times := by
  rw [Session.tick_whole whole, Session.tick_whole (s := s.unpolled) whole]
  cases polling : s.polling with
  | none =>
    refine ⟨none, ?_, nofun, fun times => rfl⟩
    have waits := alike_wait whole
    rwa [polling] at waits
  | some p =>
    obtain ⟨interval, left⟩ := p
    have within : left ≤ interval := timed ⟨interval, left⟩ polling
    by_cases before : passed < left
    · simp only [due_before within before, before, if_true]
      refine ⟨some ⟨interval, left - passed⟩, ?_, ?_, fun times => (Nat.zero_add _).symm⟩
      · exact alike_wait (s := { s with polling := some ⟨interval, left - passed⟩ }) whole
      · rintro _ ⟨⟩
        exact Nat.le_trans (Nat.sub_le ..) within
    · simp only [due_reached within before, before, if_false]
      refine ⟨some ⟨interval, interval⟩, ?_, ?_, fun times => Nat.add_comm ..⟩
      · exact ⟨rfl, rfl, .inl ⟨_, rfl, rfl, whole, rfl⟩⟩
      · rintro _ ⟨⟩
        exact Nat.le_refl _

/-- Whatever happens, short of a cut of the wire, is the same for both. -/
theorem alike_step (whole : s.channel.cut = false) (timed : Timed s.polling)
    {happening : Happening} (spared : ∀ room, happening ≠ .wireEnds room) :
    ∃ next, Alike (due s.polling (advances [happening])) next (s.step happening)
        (s.unpolled.step happening) ∧ Timed next ∧
      ∀ times, due s.polling (advances [happening] ++ times) =
        due s.polling (advances [happening]) + due next times := by
  have silent {polled quiet : Turn} (alike : Alike 0 s.polling polled quiet) :
      ∃ next, Alike (due s.polling []) next polled quiet ∧ Timed next ∧
        ∀ times, due s.polling ([] ++ times) = due s.polling [] + due next times :=
    ⟨s.polling, by rwa [due_nil], timed, fun times => by rw [due_nil, Nat.zero_add]; rfl⟩
  cases happening with
  | received bytes =>
    exact silent (alike_listen (s := { s with channel := s.channel.receive bytes }) whole)
  | closed => exact silent (alike_listen (s := { s with channel := s.channel.close }) whole)
  | control event =>
    refine silent ?_
    have same : s.unpolled.controls = s.controls := rfl
    simp only [Session.step, same]
    split
    · exact alike_handle whole event
    · exact alike_wait whole
  | controlsClosed => exact silent (alike_wait (s := { s with controls := false }) whole)
  | clock passed => exact alike_tick whole timed passed
  | wireEnds room => exact absurd rfl (spared room)

theorem alike_run {happenings : List Happening} (whole : ∀ room, .wireEnds room ∉ happenings)
    (alike : Alike queries polling polled quiet) (timed : Timed polling) :
    ∃ next, Alike (queries + due polling (polled.state.lifetime happenings)) next
      (polled.run happenings) (quiet.run happenings) := by
  induction happenings generalizing polled quiet polling queries with
  | nil =>
    refine ⟨polling, ?_⟩
    rw [SessionState.lifetime, SessionState.lived_nil, advances, List.filterMap_nil, due_nil]
    exact alike
  | cons happening rest ih =>
    obtain ⟨s, state, _, uncut, rfl⟩ | ⟨result, state, state'⟩ := alike.state
    · have spared : ∀ room, happening ≠ .wireEnds room := by
        rintro room rfl
        exact whole room (.head _)
      obtain ⟨next, step, timed, adds⟩ := alike_step uncut timed spared
      have goesOn := alike.goesOn (f := (·.step happening)) (g := (·.step happening)) state step
      obtain ⟨last, alike⟩ := ih (fun room member => whole room (.tail _ member)) goesOn timed
      refine ⟨last, ?_⟩
      have later : (polled.andThen (·.step happening)).state = (s.step happening).state := by
        rw [andThen_running state]
      rw [later] at alike
      rw [state, SessionState.lifetime, SessionState.lived, advances_cons, adds, ← Nat.add_assoc]
      exact alike
    · refine ⟨polling, ?_⟩
      rw [run_over state, run_over state', state, SessionState.lifetime, SessionState.lived, advances,
        List.filterMap_nil, due_nil]
      exact alike

/-- However often it is to ask, a job begins like one that never asks. -/
theorem alike_start (program : String) (interval : Option Nat) :
    ∃ queries next, Alike queries next (Session.start program interval)
      (Session.start program none) ∧ Timed next := by
  have begins : Alike 0 (Polling.every? interval) (Session.begin .fresh program interval)
      (Session.begin .fresh program none) := by
    simp only [Session.begin]
    split
    · exact ⟨rfl, rfl, .inr ⟨_, rfl, rfl⟩⟩
    · exact alike_handle (s := ⟨.idle, .fresh, true, Polling.every? interval⟩) rfl (.start program)
  have timed : Timed (Polling.every? interval) := by
    intro p member
    obtain ⟨period, _, rfl⟩ := Option.map_eq_some_iff.mp member
    exact Nat.zero_le _
  cases state : (Session.begin .fresh program interval).state with
  | running s =>
    obtain ⟨_, whole, same⟩ := begins.quiet_running state
    rw [← same] at timed
    obtain ⟨next, ticks, timed, _⟩ := alike_tick whole timed 0
    exact ⟨_, next, begins.goesOn (f := (·.tick 0)) (g := (·.tick 0)) state ticks, timed⟩
  | _ result =>
    obtain ⟨s, state', _⟩ | ⟨result, state', ended⟩ := begins.state
    · exact SessionState.noConfusion (state.symm.trans state')
    · refine ⟨0, Polling.every? interval, ?_, timed⟩
      rw [Session.start, Session.start, andThen_over state', andThen_over ended]
      exact begins

end Turn

theorem Session.start_unpolled (program : String) {interval : Option Nat}
    (never : Polling.every? interval = none) :
    Session.start program interval = Session.start program none := by
  have same : Polling.every? none = none := rfl
  simp only [Session.start, Session.begin, never, same]

end LaserCutter
