import HashMapStorage.Framing

/-!
# Framing is lossless

At any moment the bytes under way and those still to be written are what the
receiver still has to read: the messages it has not received, framed. The two
sides move along the same list of messages at their own pace; every step that
is not an EINTR brings one of them forward.
-/

namespace HashMapStorage

open Machine

-- ---------------------------------------------------------------------------
-- Where the two sides are
-- ---------------------------------------------------------------------------

def frames (messages : List (List UInt8)) : List UInt8 :=
  messages.flatMap fun message => Part.length.bytes message ++ message

def Part.before : Part → List (Int × Int)
  | .length => []
  | .body => [(4, 4)]

def calls (message : List UInt8) : List (Int × Int) := [(4, 4), (message.length, message.length)]

def Sender.remaining (s : Sender) : List UInt8 :=
  match s.stage with
  | .idle => frames s.messages
  | .writing part message loop => loop.buf ++ part.rest message ++ frames s.messages
  | .failed => []

inductive Sends (messages : List (List UInt8)) : Sender → Prop
  | idle (sent todo : List (List UInt8)) (h : messages = sent ++ todo) :
    Sends messages ⟨todo, .idle, sent.flatMap calls⟩
  | writing (h : messages = sent ++ message :: todo) (part : Part) (buf : List UInt8) :
    Sends messages ⟨todo, .writing part message ⟨(part.bytes message).length, buf, buf.length⟩,
      sent.flatMap calls ++ part.before⟩

inductive Receives (messages : List (List UInt8)) : Receiver → (unread : List UInt8) → Prop
  | idle (received ahead : List (List UInt8)) (h : messages = received ++ ahead) :
    Receives messages ⟨ahead.length, .idle, received, received.flatMap calls⟩ (frames ahead)
  | reading (h : messages = received ++ message :: ahead) (part : Part) (stored : List UInt8)
    (null : Bool)
    (hu : stored ++ unread = part.bytes message ++ (part.rest message ++ frames ahead))
    (hl : stored.length ≤ (part.bytes message).length) :
    Receives messages ⟨ahead.length, .reading part ⟨(part.bytes message).length, stored, null,
      (part.bytes message).length - stored.length⟩, received,
      received.flatMap calls ++ part.before⟩ unread

structure Connection.Aligned (messages : List (List UInt8)) (c : Connection) : Prop where
  sends : Sends messages c.sender
  receives : Receives messages c.receiver (c.stream ++ c.sender.remaining)

@[simp] theorem frames_nil : frames [] = [] := rfl

@[simp] theorem frames_cons (message : List UInt8) (messages : List (List UInt8)) :
    frames (message :: messages) =
      Part.length.bytes message ++ (Part.length.rest message ++ frames messages) := by
  simp [frames, Part.rest]

@[simp] theorem length_bytes_length (message : List UInt8) :
    (Part.length.bytes message).length = 4 := intBytes_length _

theorem start_aligned (messages : List (List UInt8)) :
    (Connection.start messages).Aligned messages :=
  ⟨.idle [] messages rfl, .idle [] messages rfl⟩

-- ---------------------------------------------------------------------------
-- What a step does
-- ---------------------------------------------------------------------------

def Part.work : Part → Nat
  | .length => 2
  | .body => 1

def SendStage.work : SendStage → Nat
  | .writing part _ _ => part.work
  | _ => 0

def ReceiveStage.work : ReceiveStage → Nat
  | .reading part _ => part.work
  | _ => 0

/-- A bound on the steps to come: each byte is written and read, and each side
makes three other steps for a message. -/
def Connection.work (c : Connection) : Nat :=
  2 * c.sender.remaining.length + c.stream.length + 3 * c.sender.messages.length +
    c.sender.stage.work + 3 * c.receiver.left + c.receiver.stage.work

def Action.healthy : Action → Bool
  | .write .error => false
  | .read .error => false
  | _ => true

def Action.advances : Action → Bool
  | .write .interrupted => false
  | .read .interrupted => false
  | _ => true

theorem Sends.send (h : Sends messages s) (hs : s.send = some s') :
    Sends messages s' ∧ s'.remaining = s.remaining ∧
      3 * s'.messages.length + s'.stage.work + 1 = 3 * s.messages.length + s.stage.work := by
  cases h with
  | idle sent todo h =>
    cases todo with
    | nil => nomatch hs
    | cons message todo =>
      cases hs
      refine ⟨?_, ?_, ?_⟩
      · have hw := Sends.writing h .length (Part.length.bytes message)
        simpa [Part.before, writeAll] using hw
      · simp [Sender.remaining, writeAll]
      · simp [SendStage.work, Part.work]
        omega
  | @writing sent message todo h part buf =>
    simp only [Sender.send] at hs
    split at hs
    · cases hs
    · rename_i hlen
      have hbuf : buf = [] := by
        rw [← List.length_eq_zero_iff]
        omega
      subst hbuf
      cases hs
      cases part with
      | length =>
        refine ⟨?_, ?_, ?_⟩
        · have hw := Sends.writing h .body message
          simpa [Sender.wrote, Part.before, Part.bytes, writeAll] using hw
        · simp [Sender.remaining, Sender.wrote, writeAll, Part.rest]
        · simp [Sender.wrote, SendStage.work, Part.work]
      | body =>
        refine ⟨?_, ?_, ?_⟩
        · have hi : Sends messages ⟨todo, .idle, (sent ++ [message]).flatMap calls⟩ :=
            .idle _ _ (by simpa using h)
          simpa [Sender.wrote, Part.before, calls, Part.bytes] using hi
        · simp [Sender.remaining, Sender.wrote, Part.rest]
        · simp [Sender.wrote, SendStage.work, Part.work]

theorem Receives.receive (h : Receives messages r unread) (hm : ∀ m ∈ messages, IsInt m.length)
    (hr : r.receive = some r') :
    Receives messages r' unread ∧
      3 * r'.left + r'.stage.work + 1 = 3 * r.left + r.stage.work := by
  cases h with
  | idle received ahead h =>
    cases ahead with
    | nil => nomatch hr
    | cons message ahead =>
      cases hr
      refine ⟨?_, ?_⟩
      · have hu : [] ++ frames (message :: ahead) = Part.length.bytes message ++
            (Part.length.rest message ++ frames ahead) := frames_cons ..
        have hw := Receives.reading h .length [] false hu (Nat.zero_le _)
        simpa [Part.before, readAll] using hw
      · simp [ReceiveStage.work, Part.work]
        omega
  | reading h part stored null hu hl =>
    rename_i received message ahead
    simp only [Receiver.receive] at hr
    split at hr
    · cases hr
    · rename_i hlen
      obtain ⟨hstored, hunread⟩ := List.append_inj hu (by omega)
      subst hstored hunread
      cases hr
      cases part with
      | length =>
        have hint := hm message (by simp [h])
        refine ⟨?_, ?_⟩
        · have hw := Receives.reading h .body [] false rfl (Nat.zero_le _)
          simpa [Receiver.read, Part.before, Part.bytes, Part.rest, readAll,
            bytesInt_intBytes hint] using hw
        · simp [Receiver.read, ReceiveStage.work, Part.work]
      | body =>
        have hnat : ¬ (message.length : Int) < 0 := by omega
        refine ⟨?_, ?_⟩
        · have hi : Receives messages ⟨ahead.length, .idle, received ++ [message],
              (received ++ [message]).flatMap calls⟩ (frames ahead) := .idle _ _ (by simpa using h)
          simpa [Receiver.read, Part.before, Part.bytes, Part.rest, calls, hnat] using hi
        · simp [Receiver.read, ReceiveStage.work, Part.work, Part.bytes, hnat]

theorem aligned_write {c c' : Connection} (h : c.Aligned messages)
    (ha : (Action.write res).healthy = true) (hs : c.step (.write res) = some c') :
    c'.Aligned messages ∧ c'.work + (if (Action.write res).advances then 1 else 0) ≤ c.work := by
  obtain ⟨s, stream, r⟩ := c
  obtain ⟨hsend, hreceive⟩ := h
  dsimp only at hsend hreceive
  cases hsend with
  | idle => nomatch hs
  | writing h part buf =>
    simp only [Connection.step] at hs
    split at hs
    · rename_i hallow
      cases res with
      | error => nomatch ha
      | interrupted =>
        cases hs
        exact ⟨⟨.writing h part buf, by simpa [IoResult.transferred] using hreceive⟩,
          by simp [Connection.work, Action.advances, IoResult.transferred]⟩
      | count n =>
        obtain ⟨-, hallow⟩ := hallow
        simp only [WriteAll.allows, Bool.and_eq_true, decide_eq_true_eq] at hallow
        cases hs
        have hn : n ≤ buf.length := by omega
        have hlen : ((buf.drop n).length : Int) = buf.length - n := by
          rw [List.length_drop]
          omega
        have hsplit : ∀ rest, buf.take n ++ (buf.drop n ++ rest) = buf ++ rest := fun rest => by
          rw [← List.append_assoc, List.take_append_drop]
        refine ⟨⟨?_, ?_⟩, ?_⟩
        · have hw := Sends.writing h part (buf.drop n)
          rw [hlen] at hw
          exact hw
        · simpa [Sender.remaining, IoResult.transferred, hsplit] using hreceive
        · simp only [Connection.work, Sender.remaining, IoResult.transferred, Action.advances,
            SendStage.work, List.length_append, List.length_take, List.length_drop, ↓reduceIte]
          omega
    · cases hs

theorem aligned_read {c c' : Connection} (h : c.Aligned messages)
    (ha : (Action.read res).healthy = true) (hs : c.step (.read res) = some c') :
    c'.Aligned messages ∧ c'.work + (if (Action.read res).advances then 1 else 0) ≤ c.work := by
  obtain ⟨s, stream, r⟩ := c
  obtain ⟨hsend, hreceive⟩ := h
  dsimp only at hsend hreceive
  generalize hunread : stream ++ s.remaining = unread at hreceive
  cases hreceive with
  | idle => nomatch hs
  | reading h part stored null hu hl =>
    rename_i received message ahead
    simp only [Connection.step] at hs
    split at hs
    · rename_i hallow
      obtain ⟨-, hallow⟩ := hallow
      cases res with
      | error => nomatch ha
      | interrupted =>
        cases hs
        refine ⟨⟨hsend, ?_⟩, by simp [Connection.work, Action.advances, IoResult.transferred]⟩
        simpa only [IoResult.transferred, List.drop_zero, hunread] using
          Receives.reading h part stored null hu hl
      | count n =>
        cases n with
        | zero =>
          -- only a sender that has failed has closed the connection
          cases hsend <;> simp [ReadAll.allows] at hallow
        | succ n =>
          simp only [ReadAll.allows, Bool.and_eq_true, decide_eq_true_eq] at hallow
          cases hs
          have hn : n + 1 ≤ stream.length := hallow.2
          have hlen : (((stored ++ stream.take (n + 1)).length : Nat) : Int) =
              stored.length + (n + 1 : Nat) := by
            rw [List.length_append, List.length_take]
            omega
          have hsplit : stored ++ stream.take (n + 1) ++ (stream.drop (n + 1) ++ s.remaining) =
              stored ++ unread := by
            rw [List.append_assoc, ← List.append_assoc (stream.take _), List.take_append_drop,
              hunread]
          refine ⟨⟨hsend, ?_⟩, ?_⟩
          · have hw := Receives.reading h part _ (null || n + 1 == 0) (hsplit.trans hu) (by omega)
            rw [hlen, ← Int.sub_sub] at hw
            exact hw
          · simp only [Connection.work, IoResult.transferred, Action.advances, List.length_drop,
              ReceiveStage.work, ↓reduceIte]
            omega
    · cases hs

theorem aligned_step {c c' : Connection} (h : c.Aligned messages)
    (hm : ∀ m ∈ messages, IsInt m.length) (ha : a.healthy = true) (hs : c.step a = some c') :
    c'.Aligned messages ∧ c'.work + (if a.advances then 1 else 0) ≤ c.work := by
  cases a with
  | send =>
    simp only [Connection.step, Option.map_eq_some_iff] at hs
    obtain ⟨s', hs, rfl⟩ := hs
    obtain ⟨hsend, hrem, hwork⟩ := h.sends.send hs
    refine ⟨⟨hsend, hrem ▸ h.receives⟩, ?_⟩
    simp only [Connection.work, hrem, Action.advances, ↓reduceIte]
    omega
  | receive =>
    simp only [Connection.step, Option.map_eq_some_iff] at hs
    obtain ⟨r', hr, rfl⟩ := hs
    obtain ⟨hreceive, hwork⟩ := h.receives.receive hm hr
    refine ⟨⟨h.sends, hreceive⟩, ?_⟩
    simp only [Connection.work, Action.advances, ↓reduceIte]
    omega
  | write res => exact aligned_write h ha hs
  | read res => exact aligned_read h ha hs

-- ---------------------------------------------------------------------------
-- Whole schedules
-- ---------------------------------------------------------------------------

/-- Nothing but an EINTR or a failure can happen any more. -/
def Connection.Quiet (c : Connection) : Prop :=
  ∀ a : Action, a.healthy = true → a.advances = true → c.step a = none

/-- All messages are sent and received, each by two calls that returned what
they were asked for, and no byte is left. -/
structure Connection.Complete (messages : List (List UInt8)) (c : Connection) : Prop where
  received : c.receiver.received = messages
  stream : c.stream = []
  remaining : c.sender.remaining = []
  wrote : c.sender.returned = messages.flatMap calls
  read : c.receiver.returned = messages.flatMap calls

theorem write_enabled {c : Connection} (hc : c.sender.stage = .writing part message loop)
    (hl : loop.len > 0) : c.step (.write (.count 1)) ≠ none := by
  have hallow : loop.allows (.count 1) = true := by
    simp only [WriteAll.allows, Bool.and_eq_true, decide_eq_true_eq]
    omega
  simp [Connection.step, hc, hl, hallow, WriteAll.body]

theorem read_enabled {c : Connection} (hc : c.receiver.stage = .reading part loop)
    (hl : loop.len > 0) (hs : c.stream ≠ []) : c.step (.read (.count 1)) ≠ none := by
  have hallow : loop.allows c (.count 1) = true := by
    have := List.length_pos_iff.mpr hs
    simp only [ReadAll.allows, Bool.and_eq_true, decide_eq_true_eq]
    omega
  simp [Connection.step, hc, hl, hallow, ReadAll.body]

theorem Sends.quiet {c : Connection} (h : Sends messages c.sender) (hq : c.Quiet) :
    c.sender.remaining = [] ∧ c.sender.returned = messages.flatMap calls := by
  obtain ⟨s, stream, r⟩ := c
  have hsend := hq .send rfl rfl
  have hwrite := hq (.write (.count 1)) rfl rfl
  cases h with
  | idle sent todo h =>
    cases todo with
    | nil => simp [Sender.remaining, h]
    | cons message todo => nomatch hsend
  | writing h part buf =>
    by_cases hlen : (buf.length : Int) > 0
    · exact absurd hwrite (write_enabled rfl hlen)
    · simp only [Connection.step, Sender.send, if_neg hlen] at hsend
      nomatch hsend

theorem quiet_complete {c : Connection} (hc : c.Aligned messages) (hq : c.Quiet) :
    c.Complete messages := by
  obtain ⟨hrem, hwrote⟩ := hc.sends.quiet hq
  have hreceives := hc.receives
  clear hc
  rw [hrem, List.append_nil] at hreceives
  obtain ⟨s, stream, r⟩ := c
  have hreceive := hq .receive rfl rfl
  have hread := hq (.read (.count 1)) rfl rfl
  dsimp only at hreceives
  cases hreceives with
  | idle received ahead h =>
    cases ahead with
    | nil =>
      rw [List.append_nil] at h
      exact ⟨h.symm, rfl, hrem, hwrote, by rw [h]⟩
    | cons message ahead => nomatch hreceive
  | reading h part stored null hu hl =>
    rename_i received message ahead
    by_cases hlen : ((part.bytes message).length : Int) - stored.length > 0
    · -- a call that waits for bytes cannot have been left with none
      have hs : stream ≠ [] := by
        rintro rfl
        have hcount := congrArg List.length hu
        simp only [List.append_nil, List.length_append] at hcount
        omega
      exact absurd hread (read_enabled rfl hlen hs)
    · simp only [Connection.step, Receiver.receive, if_neg hlen] at hreceive
      nomatch hreceive

theorem mem_calls {sent : List (List UInt8)} {part : Part}
    (hr : r ∈ sent.flatMap calls ++ part.before) : r.2 = r.1 := by
  rcases List.mem_append.mp hr with hr | hr
  · obtain ⟨message, -, hr⟩ := List.mem_flatMap.mp hr
    simp only [calls, List.mem_cons, List.not_mem_nil, or_false] at hr
    rcases hr with rfl | rfl <;> rfl
  · cases part with
    | length => nomatch hr
    | body =>
      rw [Part.before, List.mem_singleton] at hr
      rw [hr]

theorem Sends.returned (h : Sends messages s) : ∀ r ∈ s.returned, r.2 = r.1 := by
  intro r hr
  cases h with
  | idle => exact mem_calls (List.mem_append_left Part.length.before hr)
  | writing => exact mem_calls hr

theorem Receives.returned (h : Receives messages s unread) : ∀ r ∈ s.returned, r.2 = r.1 := by
  intro r hr
  cases h with
  | idle => exact mem_calls (List.mem_append_left Part.length.before hr)
  | reading => exact mem_calls hr

theorem Receives.received (h : Receives messages s unread) :
    ∃ ahead, messages = s.received ++ ahead := by
  cases h with
  | idle received ahead h => exact ⟨ahead, h⟩
  | reading h => exact ⟨_, h⟩

theorem run_aligned {c : Connection} (hm : ∀ m ∈ messages, IsInt m.length)
    (ha : ∀ a ∈ as, Action.healthy a = true)
    (hr : run Connection.step (.start messages) as = some c) :
    c.Aligned messages ∧ as.countP Action.advances ≤ (Connection.start messages).work := by
  have halong : Along Connection.step (fun _ a => a.healthy = true) (.start messages) as :=
    along_of_forall fun _ => ha
  have haligned : c.Aligned messages :=
    run_keeps (fun _ _ _ h ha hs => (aligned_step h hm ha hs).1) (start_aligned messages) halong hr
  have hwork : c.work + as.countP Action.advances ≤ (Connection.start messages).work :=
    run_measure (fun _ _ _ h ha hs => aligned_step h hm ha hs) (start_aligned messages) halong hr
  exact ⟨haligned, by omega⟩

/-- Whatever the schedule, what has been received is how the list of messages
starts, and every call that ended returned the full length. A schedule has a
bounded number of steps that are not an EINTR; when no such step is left,
everything has arrived. -/
theorem framing_lossless {c : Connection}
    (hm : ∀ m ∈ messages, 1 ≤ m.length ∧ m.length ≤ 2 ^ 31 - 1)
    (ha : ∀ a ∈ as, Action.healthy a = true)
    (hr : run Connection.step (.start messages) as = some c) :
    (∃ ahead, messages = c.receiver.received ++ ahead) ∧
      (∀ r ∈ c.sender.returned ++ c.receiver.returned, r.2 = r.1) ∧
      as.countP Action.advances ≤ (Connection.start messages).work ∧
      (c.Quiet → c.Complete messages) := by
  have hm : ∀ m ∈ messages, IsInt m.length := fun m hmem => by
    have := hm m hmem
    simp only [IsInt, intMin, intMax]
    omega
  obtain ⟨haligned, hsteps⟩ := run_aligned hm ha hr
  refine ⟨haligned.receives.received, fun r hr => ?_, hsteps, quiet_complete haligned⟩
  rcases List.mem_append.mp hr with hr | hr
  · exact haligned.sends.returned r hr
  · exact haligned.receives.returned r hr

def choppy : List Action :=
  [.send, .write (.count 3), .receive, .read .interrupted, .read (.count 2), .write .interrupted,
    .write (.count 1), .send, .read (.count 2), .write (.count 1), .receive, .read (.count 1),
    .write (.count 1), .send, .read (.count 1), .receive]

theorem framing_lossless_choppy :
    ∃ c, run Connection.step (.start [[7, 8]]) choppy = some c ∧
      (∃ ahead, [[7, 8]] = c.receiver.received ++ ahead) ∧
      (∀ r ∈ c.sender.returned ++ c.receiver.returned, r.2 = r.1) ∧
      choppy.countP Action.advances ≤ (Connection.start [[7, 8]]).work ∧
      (c.Quiet → c.Complete [[7, 8]]) :=
  ⟨_, rfl, framing_lossless (by decide) (by decide) rfl⟩

end HashMapStorage
