import LaserCutter.Controller.Exchange
import LaserCutter.Proofs.Streaming.Reading
import LaserCutter.Proofs.Text.Boundaries

/-!
# Control lines and their own replies

Control lines go out one after the other, and a line waits for its reply before the next one is
written. What comes in is a stream of lines: replies, and between them banners, status texts,
position reports and lines that say nothing. A call takes chunks off the wire only as long as its
reply has not come (`Channel.awaitThrough`); what a chunk holds beyond the reply stays in the inbox
for the next call. A line that can be taken is taken all the same when more arrives
(`Inbox.next?_later`), so the calls go as if the whole stream had been there from the start
(`Channel.exchangeAll_later`), and each call takes the lines of the stream up to its reply
(`Answered`) and leaves those behind it to the calls that follow (`Conversation`).
-/

namespace LaserCutter

/-- The responses that answer a line. -/
def Response.isReply : Response → Bool
  | .ack | .error _ => true
  | _ => false

/-- The line is text and answers nothing. -/
def PassedOver (received : List UInt8) : Prop :=
  ∃ said, responseOf? received = .ok said ∧ ∀ r ∈ said, r.isReply = false

/-- How the reply to `line` comes in a stream whose next lines are `lines`: what is heard, the reply,
and the lines behind it. -/
inductive Answered (ended : Bool) (line : String) (lines : List (List UInt8)) :
    List Heard → Reply → List (List UInt8) → Prop where
  | accepted (front : List (List UInt8)) (answer : List UInt8) (behind : List (List UInt8))
      (split : lines = front ++ answer :: behind) (passed : ∀ other ∈ front, PassedOver other)
      (ack : responseOf? answer = .ok (some .ack)) :
      Answered ended line lines (reports (front ++ [answer])) .accepted behind
  | rejected (front : List (List UInt8)) (answer : List UInt8) (behind : List (List UInt8))
      (text : String) (split : lines = front ++ answer :: behind)
      (passed : ∀ other ∈ front, PassedOver other)
      (error : responseOf? answer = .ok (some (.error text))) :
      Answered ended line lines (reports (front ++ [answer])) (.failed (.rejected line text)) behind
  /-- A line is no text. -/
  | garbled (front : List (List UInt8)) (bad : List UInt8) (behind : List (List UInt8))
      (fault : WireFault) (split : lines = front ++ bad :: behind)
      (passed : ∀ other ∈ front, PassedOver other) (illegible : responseOf? bad = .error fault) :
      Answered ended line lines (reports front) (.failed (.wire fault)) behind
  | cutOff (closed : ended = true) (passed : ∀ other ∈ lines, PassedOver other) :
      Answered ended line lines (reports lines ++ [.disconnected]) (.failed .disconnected) []
  | waits (opened : ended = false) (passed : ∀ other ∈ lines, PassedOver other) :
      Answered ended line lines (reports lines) .awaited []

/-- What a call does that hears the given things: it writes its line whole before. -/
def called (line : String) (heard : List Heard) : Activity := ⟨[.line line], heard, none⟩

/-- How control lines are sent one after the other while the lines of a stream come in: what each
call does, the reply to it, and the lines of the stream that are left. -/
inductive Conversation (ended : Bool) :
    List String → List (List UInt8) → List (Activity × Reply) → List (List UInt8) → Prop where
  | done (left : List (List UInt8)) : Conversation ended [] left [] left
  | goesOn {line : String} {rest : List String} {lines left behind : List (List UInt8)}
      {heard : List Heard} {calls : List (Activity × Reply)}
      (answered : Answered ended line lines heard .accepted left)
      (more : Conversation ended rest left calls behind) :
      Conversation ended (line :: rest) lines ((called line heard, .accepted) :: calls) behind
  /-- No later line is written. -/
  | stops {line : String} {rest : List String} {lines left : List (List UInt8)}
      {heard : List Heard} {reply : Reply} (answered : Answered ended line lines heard reply left)
      (failed : reply ≠ .accepted) :
      Conversation ended (line :: rest) lines [(called line heard, reply)] left

namespace Inbox

/-- The inbox after an arrival; nothing arrives once the channel is closed. -/
def heed (inbox : Inbox) : Happening → Inbox
  | .received bytes => if inbox.closed then inbox else inbox.receive bytes
  | .closed => inbox.close
  | _ => inbox

def later (inbox : Inbox) (arrivals : List Happening) : Inbox := arrivals.foldl heed inbox

variable {inbox rest : Inbox} {line : List UInt8}

theorem heed_closed (closed : inbox.closed = true) (happening : Happening) :
    inbox.heed happening = inbox := by
  obtain ⟨ready, unfinished, _⟩ := inbox
  cases closed
  cases happening <;> rfl

theorem later_closed (closed : inbox.closed = true) (arrivals : List Happening) :
    inbox.later arrivals = inbox := by
  induction arrivals with
  | nil => rfl
  | cons happening arrivals ih =>
    rw [later, List.foldl_cons, heed_closed closed]
    exact ih

theorem next?_eq_none : inbox.next? = none ↔ inbox.lines = [] := by
  unfold next? lines
  cases ready : inbox.ready with
  | cons first more => simp
  | nil => cases remainder inbox <;> simp

theorem lines_of_next? (next : inbox.next? = some (line, rest)) :
    inbox.lines = line :: rest.lines ∧ rest.closed = inbox.closed := by
  unfold next? at next
  cases ready : inbox.ready with
  | cons first more =>
    rw [ready] at next
    cases next
    simp [lines, ready, remainder]
  | nil =>
    simp only [ready] at next
    cases remains : inbox.remainder with
    | nil => simp [remains] at next
    | cons first more =>
      simp only [remains] at next
      cases next
      have only : more = [] := by
        unfold remainder at remains
        split at remains <;> simp_all
      rw [lines_emptied, lines, ready, remains, only]
      exact ⟨rfl, rfl⟩

/-- A line that can be taken is taken all the same when more has arrived. -/
theorem next?_heed (next : inbox.next? = some (line, rest)) (happening : Happening) :
    (inbox.heed happening).next? = some (line, rest.heed happening) := by
  have kept := (lines_of_next? next).2
  cases closed : inbox.closed with
  | true => rw [heed_closed closed, heed_closed (kept.trans closed), next]
  | false =>
    obtain ⟨ready, unfinished, _⟩ := inbox
    cases closed
    cases ready with
    | nil => simp [next?, remainder] at next
    | cons first more =>
      cases next
      cases happening with
      | received bytes => simp [heed, receive_eq, next?]
      | closed => rfl
      | _ => rfl

theorem next?_later (next : inbox.next? = some (line, rest)) (arrivals : List Happening) :
    (inbox.later arrivals).next? = some (line, rest.later arrivals) := by
  induction arrivals generalizing inbox rest with
  | nil => exact next
  | cons happening arrivals ih => exact ih (next?_heed next happening)

/-- A stream that has arrived in chunks, with its end if it has one. -/
theorem later_arrivals (ended : Bool) (chunks : List (List UInt8)) :
    empty.later (arrivals ended chunks) =
      { empty.receive chunks.flatten with closed := ended } := by
  have opened (inbox : Inbox) (opened : inbox.closed = false) :
      inbox.later (chunks.map .received) = inbox.receive chunks.flatten := by
    induction chunks generalizing inbox with
    | nil => rfl
    | cons chunk rest ih =>
      have taken : inbox.heed (.received chunk) = inbox.receive chunk := by simp [heed, opened]
      rw [List.map_cons, later, List.foldl_cons, taken, List.flatten_cons, receive_append]
      exact ih _ (by rw [closed_receive, opened])
  rw [arrivals, later, List.foldl_append]
  change (later _ _).later _ = _
  rw [opened empty rfl]
  cases ended with
  | true => rfl
  | false =>
    change empty.receive chunks.flatten = _
    have still : (empty.receive chunks.flatten).closed = false := closed_receive ..
    rw [← still]

end Inbox

section Reply

variable {ended : Bool} {line : String} {received : List UInt8} {lines left : List (List UInt8)}
  {heard : List Heard} {reply : Reply}

/-- One more line in front that answers nothing. -/
theorem Answered.pass (passed : PassedOver received)
    (answered : Answered ended line lines heard reply left) :
    Answered ended line (received :: lines) (reports [received] ++ heard) reply left := by
  have split (lines : List (List UInt8)) :
      reports [received] ++ reports lines = reports (received :: lines) :=
    (List.filterMap_append (l := [received])).symm
  have all {lines : List (List UInt8)} (others : ∀ other ∈ lines, PassedOver other) :
      ∀ other ∈ received :: lines, PassedOver other :=
    List.forall_mem_cons.mpr ⟨passed, others⟩
  cases answered with
  | accepted front answer _ equal others ack =>
    rw [split]
    exact .accepted (received :: front) answer left (by rw [equal]; rfl) (all others) ack
  | rejected front answer _ text equal others error =>
    rw [split]
    exact .rejected (received :: front) answer left text (by rw [equal]; rfl) (all others) error
  | garbled front bad _ fault equal others illegible =>
    rw [split]
    exact .garbled (received :: front) bad left fault (by rw [equal]; rfl) (all others) illegible
  | cutOff closed others =>
    rw [← List.append_assoc, split]
    exact .cutOff closed (all others)
  | waits opened others =>
    rw [split]
    exact .waits opened (all others)

/-- A line that is awaited takes the lines of the inbox up to its reply. -/
theorem answered_replyIn (line : String) (inbox : Inbox) :
    Answered inbox.closed line inbox.lines (replyIn line inbox).2.1 (replyIn line inbox).2.2
      (replyIn line inbox).1.lines := by
  fun_induction replyIn line inbox with
  | case1 inbox empty closed =>
    rw [Inbox.next?_eq_none.mp empty]
    exact .cutOff closed (by simp)
  | case2 inbox empty opened =>
    rw [Inbox.next?_eq_none.mp empty]
    exact .waits (Bool.eq_false_iff.mpr opened) (by simp)
  | case3 inbox received rest next fault illegible =>
    rw [(Inbox.lines_of_next? next).1]
    exact .garbled [] received rest.lines fault rfl (by simp) illegible
  | case4 inbox received rest next silent ih =>
    obtain ⟨lines, closed⟩ := Inbox.lines_of_next? next
    have nothing : reports [received] = [] := by simp [reports, report?, silent]
    have passed := ih.pass ⟨none, silent, by simp⟩
    rwa [nothing, closed, ← lines] at passed
  | case5 inbox received rest next ack =>
    have told : reports [received] = [.response .ack] := by simp [reports, report?, ack]
    rw [(Inbox.lines_of_next? next).1, ← told]
    exact .accepted [] received rest.lines rfl (by simp) ack
  | case6 inbox received rest next text error =>
    have told : reports [received] = [.response (.error text)] := by simp [reports, report?, error]
    rw [(Inbox.lines_of_next? next).1, ← told]
    exact .rejected [] received rest.lines text rfl (by simp) error
  | case7 inbox received rest next r noAck noError said left heard reply equal ih =>
    obtain ⟨lines, closed⟩ := Inbox.lines_of_next? next
    have told : reports [received] = [.response r] := by simp [reports, report?, said]
    have other : r.isReply = false := by
      cases r with
      | ack => exact absurd rfl noAck
      | error text => exact absurd rfl (noError text)
      | _ => rfl
    have passed := ih.pass ⟨some r, said, by simpa using other⟩
    rwa [told, closed, ← lines, equal] at passed

theorem closed_replyIn (line : String) (inbox : Inbox) :
    (replyIn line inbox).1.closed = inbox.closed := by
  fun_induction replyIn line inbox with
  | case1 | case2 => rfl
  | case3 _ _ _ next | case5 _ _ _ next | case6 _ _ _ next => exact (Inbox.lines_of_next? next).2
  | case4 _ _ _ next _ ih => exact ih.trans (Inbox.lines_of_next? next).2
  | case7 _ _ _ next _ _ _ _ _ _ _ equal ih =>
    rw [equal] at ih
    exact ih.trans (Inbox.lines_of_next? next).2

theorem replyIn_of_next? {inbox rest : Inbox} (next : inbox.next? = some (received, rest)) :
    replyIn line inbox =
      match responseOf? received with
      | .error fault => (rest, [], .failed (.wire fault))
      | .ok none => replyIn line rest
      | .ok (some .ack) => (rest, [.response .ack], .accepted)
      | .ok (some (.error text)) =>
        (rest, [.response (.error text)], .failed (.rejected line text))
      | .ok (some r) =>
        let (left, heard, reply) := replyIn line rest
        (left, .response r :: heard, reply) := by
  rw [replyIn]
  split
  · rename_i empty
    rw [empty] at next
    contradiction
  · rename_i other equal
    rw [equal] at next
    cases next
    rfl

/-- More that arrives makes a difference to a line only if it still waits. -/
theorem replyIn_later (line : String) (inbox : Inbox) (arrivals : List Happening) :
    replyIn line (inbox.later arrivals) =
      match replyIn line inbox with
      | (left, heard, .awaited) =>
        let (left, more, reply) := replyIn line (left.later arrivals)
        (left, heard ++ more, reply)
      | (left, heard, reply) => (left.later arrivals, heard, reply) := by
  fun_induction replyIn line inbox with
  | case1 inbox empty closed =>
    rw [Inbox.later_closed closed, replyIn]
    split
    · simp only [if_pos closed, Inbox.later_closed closed]
    · rename_i equal
      rw [equal] at empty
      contradiction
  | case2 inbox empty opened => rfl
  | case3 inbox received rest next fault illegible =>
    rw [replyIn_of_next? (Inbox.next?_later next arrivals), illegible]
  | case4 inbox received rest next silent ih =>
    rw [replyIn_of_next? (Inbox.next?_later next arrivals), silent]
    exact ih
  | case5 inbox received rest next ack =>
    rw [replyIn_of_next? (Inbox.next?_later next arrivals), ack]
  | case6 inbox received rest next text error =>
    rw [replyIn_of_next? (Inbox.next?_later next arrivals), error]
  | case7 inbox received rest next r noAck noError said left heard reply equal ih =>
    rw [equal] at ih
    rw [replyIn_of_next? (Inbox.next?_later next arrivals), said]
    cases r with
    | ack => exact absurd rfl noAck
    | error text => exact absurd rfl (noError text)
    | _ =>
      simp only [ih]
      cases reply <;> rfl

end Reply

namespace Channel

variable {c : Channel} {line : String}

/-- The channel after what arrives. -/
def later (c : Channel) (arrivals : List Happening) : Channel :=
  { c with inbox := c.inbox.later arrivals }

/-- Awaits the reply to a line that is written, and takes the next arrival off the wire as long as it
has not come; gives the arrivals that are still on the wire. -/
def awaitThrough (c : Channel) (line : String) :
    List Happening → Channel × List Happening × Activity × Reply
  | [] =>
    let (c, activity, reply) := c.await line
    (c, [], activity, reply)
  | happening :: rest =>
    match c.await line with
    | (c, activity, .awaited) =>
      let (c, rest, more, reply) := (c.later [happening]).awaitThrough line rest
      (c, rest, activity ++ more, reply)
    | (c, activity, reply) => (c, happening :: rest, activity, reply)

/-- Writes a line and awaits its reply. -/
def exchangeThrough (c : Channel) (line : String) (arrivals : List Happening) :
    Channel × List Happening × Activity × Reply :=
  match c.put [.line line] with
  | (sent, some c) =>
    let (c, rest, activity, reply) := c.awaitThrough line arrivals
    (c, rest, sent ++ activity, reply)
  | (sent, none) => ({ c with room := 0 }, arrivals, sent, .failed (.wire .cut))

/-- What each call does and the reply to it, when one line after the other is exchanged up to the
first that is not accepted. -/
def calls (c : Channel) (arrivals : List Happening) :
    List String → Channel × List Happening × List (Activity × Reply)
  | [] => (c, arrivals, [])
  | line :: lines =>
    match c.exchangeThrough line arrivals with
    | (c, rest, activity, .accepted) =>
      let (c, rest, more) := c.calls rest lines
      (c, rest, (activity, .accepted) :: more)
    | (c, rest, activity, reply) => (c, rest, [(activity, reply)])

theorem await_later (c : Channel) (line : String) (arrivals : List Happening) :
    (c.later arrivals).await line =
      match c.await line with
      | (c, activity, .awaited) =>
        let (c, more, reply) := (c.later arrivals).await line
        (c, activity ++ more, reply)
      | (c, activity, reply) => (c.later arrivals, activity, reply) := by
  unfold await later
  dsimp only
  rw [replyIn_later]
  rcases replyIn line c.inbox with ⟨left, heard, _ | _ | _⟩ <;> rfl

/-- A call that takes arrivals off the wire goes as if all of them had been there. -/
theorem await_through (c : Channel) (line : String) (arrivals : List Happening) :
    (c.later arrivals).await line =
      let (c, rest, activity, reply) := c.awaitThrough line arrivals
      (c.later rest, activity, reply) := by
  induction arrivals generalizing c with
  | nil => rfl
  | cons happening arrivals ih =>
    rw [await_later, awaitThrough]
    rcases c.await line with ⟨next, activity, _ | _ | _⟩
    · rfl
    · have more := ih (next.later [happening])
      change (next.later (happening :: arrivals)).await line = _ at more
      simp only [more]
    · rfl

theorem put_later (c : Channel) (arrivals : List Happening) (units : List WireUnit) :
    (c.later arrivals).put units =
      ((c.put units).1, (c.put units).2.map (later · arrivals)) := by
  obtain ⟨inbox, cut, room⟩ := c
  cases cut with
  | false => rfl
  | true =>
    by_cases fits : (units.flatMap WireUnit.bytes).length ≤ room <;>
      simp only [put, later, fits, ↓reduceIte, Option.map_some, Option.map_none]

theorem exchange_through (c : Channel) (line : String) (arrivals : List Happening) :
    (c.later arrivals).exchange line =
      let (c, rest, activity, reply) := c.exchangeThrough line arrivals
      (c.later rest, activity, reply) := by
  unfold exchange exchangeThrough
  rw [put_later]
  rcases c.put [.line line] with ⟨sent, _ | next⟩
  · rfl
  · simp only [Option.map_some, await_through]

/-- What is done in several calls. -/
def doings (calls : List (Activity × Reply)) : Activity :=
  (calls.map Prod.fst).foldr (· ++ ·) .none

/-- The reply to the last call. -/
def verdict (calls : List (Activity × Reply)) : Reply :=
  calls.foldl (fun _ call => call.2) .accepted

/-- Calls that take chunks off the wire one by one go as if the whole stream had been there. -/
theorem exchangeAll_through (c : Channel) (lines : List String) (arrivals : List Happening) :
    (c.later arrivals).exchangeAll lines =
      let (c, rest, calls) := c.calls arrivals lines
      (c.later rest, doings calls, verdict calls) := by
  induction lines generalizing c arrivals with
  | nil => rfl
  | cons line lines ih =>
    rw [exchangeAll, calls, exchange_through]
    rcases c.exchangeThrough line arrivals with ⟨next, rest, activity, _ | _ | _⟩
    · simp only [ih]
      rfl
    · simp [doings, verdict]
    · simp [doings, verdict]

theorem put_uncut (uncut : c.cut = false) (units : List WireUnit) :
    c.put units = (.sent units, some c) := by simp [put, uncut]

/-- While writes succeed, a call writes its line and takes the lines up to its reply. -/
theorem exchange_answered (uncut : c.cut = false) (line : String) :
    ∃ heard, (c.exchange line).2.1 = called line heard ∧
      Answered c.inbox.closed line c.inbox.lines heard (c.exchange line).2.2
        (c.exchange line).1.inbox.lines ∧
      (c.exchange line).1.inbox.closed = c.inbox.closed ∧ (c.exchange line).1.cut = false := by
  rw [exchange, put_uncut uncut]
  exact ⟨(replyIn line c.inbox).2.1, rfl, answered_replyIn line c.inbox,
    closed_replyIn line c.inbox, uncut⟩

theorem conversation_calls (uncut : c.cut = false) (lines : List String)
    (arrivals : List Happening) :
    let (next, rest, calls) := c.calls arrivals lines
    Conversation (c.later arrivals).inbox.closed lines (c.later arrivals).inbox.lines calls
      (next.later rest).inbox.lines := by
  induction lines generalizing c arrivals with
  | nil => exact .done _
  | cons line lines ih =>
    obtain ⟨heard, activity, answered, closed, still⟩ :=
      exchange_answered (c := c.later arrivals) uncut line
    rw [exchange_through] at activity answered closed still
    rw [calls]
    rcases exchanged : c.exchangeThrough line arrivals with ⟨next, rest, does, _ | _ | _⟩
    all_goals simp only [exchanged] at activity answered closed still ⊢
    all_goals subst activity
    · have more := ih (c := next) still rest
      rw [closed] at more
      exact .goesOn answered more
    · exact .stops answered nofun
    · exact .stops answered nofun

end Channel

theorem responseOf?_isOk {received : List UInt8} (text : Text.Encoded received) :
    (responseOf? received).isOk := by
  have decoded := (Text.decodeUtf8_isOk_iff received).mpr text
  unfold responseOf?
  cases said : Text.decodeUtf8 received with
  | error fault =>
    rw [said] at decoded
    contradiction
  | ok said => rfl

theorem encoded_withoutReturn {received : List UInt8} (text : Text.Encoded received) :
    Text.Encoded (withoutReturn received) := by
  unfold withoutReturn
  split
  · rename_i last
    obtain ⟨front, rfl⟩ := List.getLast?_eq_some_iff.mp last
    rw [List.dropLast_concat]
    exact (text.cut (by decide)).1
  · exact text

/-- Text has lines of text. -/
theorem legible_receivedLines {bytes : List UInt8} (text : (Text.decodeUtf8 bytes).isOk)
    (ended : Bool) : Legible (receivedLines ended bytes) := by
  have pieces := Text.Encoded.splitOn ((Text.decodeUtf8_isOk_iff bytes).mp text)
    (b := Inbox.lineFeed) (by decide)
  intro received member
  refine responseOf?_isOk ?_
  rcases List.mem_append.mp member with whole | last
  · obtain ⟨piece, inside, rfl⟩ := List.mem_map.mp whole
    exact encoded_withoutReturn (pieces piece (List.dropLast_subset _ inside))
  · cases ended with
    | false => contradiction
    | true =>
      have inside := (List.mem_filter.mp last).1
      exact pieces received (List.mem_of_getLast? (Option.mem_toList.mp inside))

namespace Conversation

variable {ended : Bool} {rest : List String} {lines left : List (List UInt8)}
  {calls : List (Activity × Reply)}

theorem legible (conversation : Conversation ended rest lines calls left) (text : Legible lines) :
    ∀ call ∈ calls, ∀ fault, call.2 ≠ .failed (.wire fault) := by
  induction conversation with
  | done => nofun
  | goesOn answered more ih =>
    rw [List.forall_mem_cons]
    refine ⟨nofun, ih ?_⟩
    cases answered with
    | accepted front answer _ split =>
      rw [split] at text
      exact fun other behind => text other (by simp [behind])
  | stops answered failed =>
    rw [List.forall_mem_singleton]
    rintro fault rfl
    cases answered with
    | garbled front bad _ _ split passed illegible =>
      have read := text bad (by rw [split]; simp)
      rw [illegible] at read
      contradiction

/-- The lines that were called go out whole. -/
theorem wrote_doings (conversation : Conversation ended rest lines calls left) :
    (Channel.doings calls).wrote = (rest.take calls.length).map .line ∧
      (Channel.doings calls).torn = none := by
  induction conversation with
  | done => exact ⟨rfl, rfl⟩
  | goesOn answered more ih =>
    obtain ⟨wrote, torn⟩ := ih
    exact ⟨congrArg (_ :: ·) wrote, torn⟩
  | stops answered failed => exact ⟨rfl, rfl⟩

end Conversation

/-- Control lines are matched with their own replies, however the stream that comes in is cut into
chunks. Each call writes its line, hears what the lines of the stream say from where the call before
it stopped up to and including its own reply, and leaves the lines behind that reply; it fails with
the reply if that is an error, and with the end of the channel if that comes first. No line is
written behind one that is not accepted. Text is never taken for garbled. -/
theorem Channel.exchangeAll_matches_replies (lines : List String) (ended : Bool)
    (chunks : List (List UInt8)) :
    let (after, rest, calls) := fresh.calls (arrivals ended chunks) lines
    Conversation ended lines (receivedLines ended chunks.flatten) calls
      (after.later rest).inbox.lines ∧
    (fresh.later (arrivals ended chunks)).exchangeAll lines =
      (after.later rest, doings calls, verdict calls) ∧
    (doings calls).bytes =
      (lines.take calls.length).flatMap (fun line => line.toUTF8.data.toList ++ [10]) ∧
    ((Text.decodeUtf8 chunks.flatten).isOk →
      ∀ call ∈ calls, ∀ fault, call.2 ≠ .failed (.wire fault)) := by
  have whole : (fresh.later (arrivals ended chunks)).inbox =
      { Inbox.empty.receive chunks.flatten with closed := ended } :=
    Inbox.later_arrivals ended chunks
  have conversation := conversation_calls (c := fresh) rfl lines (arrivals ended chunks)
  have through := exchangeAll_through fresh lines (arrivals ended chunks)
  rw [whole, Inbox.lines_receive] at conversation
  generalize fresh.calls (arrivals ended chunks) lines = outcome at conversation through ⊢
  obtain ⟨after, rest, calls⟩ := outcome
  obtain ⟨wrote, torn⟩ := conversation.wrote_doings
  refine ⟨conversation, through, ?_,
    fun text => conversation.legible (legible_receivedLines text ended)⟩
  rw [Activity.bytes, wrote, torn, List.flatMap_map]
  exact List.append_nil _

/-- A greeting, a reply that arrives in two pieces, an error, and a reply that nobody awaits. -/
theorem Channel.exchangeAll_matches_replies_rejected :
    let chunks : List (List UInt8) :=
      [[0x68, 0x69, 0x0D, 0x0A, 0x6F], [0x6B, 0x0A],
        [0x65, 0x72, 0x72, 0x6F, 0x72, 0x3A, 0x39, 0x0A, 0x6F, 0x6B]]
    let (after, rest, calls) := fresh.calls (arrivals true chunks) ["A", "B", "C"]
    (Text.decodeUtf8 chunks.flatten).isOk ∧
      doings calls = ⟨[.line "A", .line "B"],
        [.response (.status "hi"), .response .ack, .response (.error "error:9")], none⟩ ∧
      verdict calls = .failed (.rejected "B" "error:9") ∧
      (after.later rest).inbox.lines = [[0x6F, 0x6B]] ∧
      ∀ call ∈ calls, ∀ fault, call.2 ≠ .failed (.wire fault) := by
  intro chunks
  have text : (Text.decodeUtf8 chunks.flatten).isOk := by decide
  have arrived : fresh.later (arrivals true chunks) =
      ⟨⟨[[0x68, 0x69], [0x6F, 0x6B], [0x65, 0x72, 0x72, 0x6F, 0x72, 0x3A, 0x39]], [0x6B, 0x6F],
        true⟩, false, 0⟩ := by decide
  have hi : responseOf? [0x68, 0x69] = .ok (some (.status "hi")) := by rfl
  have ok : responseOf? [0x6F, 0x6B] = .ok (some .ack) := by rfl
  have error : responseOf? [0x65, 0x72, 0x72, 0x6F, 0x72, 0x3A, 0x39] =
      .ok (some (.error "error:9")) := by rfl
  have a : replyIn "A" (fresh.later (arrivals true chunks)).inbox =
      (⟨[[0x65, 0x72, 0x72, 0x6F, 0x72, 0x3A, 0x39]], [0x6B, 0x6F], true⟩,
        [.response (.status "hi"), .response .ack], .accepted) := by
    rw [arrived, replyIn_of_next? rfl, hi]
    simp only
    rw [replyIn_of_next? rfl, ok]
  have b : replyIn "B" ⟨[[0x65, 0x72, 0x72, 0x6F, 0x72, 0x3A, 0x39]], [0x6B, 0x6F], true⟩ =
      (⟨[], [0x6B, 0x6F], true⟩, [.response (.error "error:9")],
        .failed (.rejected "B" "error:9")) := by
    rw [replyIn_of_next? rfl, error]
  have ran : (fresh.later (arrivals true chunks)).exchangeAll ["A", "B", "C"] =
      (⟨⟨[], [0x6B, 0x6F], true⟩, false, 0⟩,
        ⟨[.line "A", .line "B"],
          [.response (.status "hi"), .response .ack, .response (.error "error:9")], none⟩,
        .failed (.rejected "B" "error:9")) := by
    rw [exchangeAll, exchange, put_uncut rfl]
    simp only [await, a]
    rw [exchangeAll, exchange, put_uncut rfl]
    simp only [await, b]
    rfl
  have matched := exchangeAll_matches_replies ["A", "B", "C"] true chunks
  rw [ran] at matched
  generalize fresh.calls (arrivals true chunks) ["A", "B", "C"] = outcome at matched ⊢
  obtain ⟨after, rest, calls⟩ := outcome
  obtain ⟨_, through, _, legible⟩ := matched
  injection through with left told
  injection told with does reply
  exact ⟨text, does.symm, reply.symm, by rw [← left]; rfl, legible text⟩

end LaserCutter
