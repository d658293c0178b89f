import HashMapStorage.Requests

/-!
# The client's exchange (`network_send_receive`)

The request and two buffers are held while a message is sent and another one
received. Every access to one of them, every release and every step that can
fail is recorded. Where a read fails everything is released, as on the other
failure paths, but the function goes on.
-/

namespace HashMapStorage

open Machine

inductive Held
  | msg
  | buf
  | buffer
  deriving DecidableEq

inductive ExchangeCall
  | mallocBuf
  | writeLength
  | writeBody
  | readLength
  | mallocBuffer
  | readBody
  | unpack
  | toMessage
  deriving DecidableEq

/-- Whether each step succeeds: `malloc`, `message_t__unpack` and `to_message` do
not return NULL, `write_all` and `read_all` return the length they are given. -/
structure ExchangeOutcomes where
  mallocBuf : Bool
  writeLength : Bool
  writeBody : Bool
  readLength : Bool
  mallocBuffer : Bool
  readBody : Bool
  unpack : Bool
  toMessage : Bool

inductive ExchangeEvent
  | use (block : Held) (u : Use)
  | step (call : ExchangeCall) (ok : Bool)
  | close
  deriving DecidableEq

abbrev Recorded := StateM (List ExchangeEvent)

@[simp] def record (e : ExchangeEvent) : Recorded Unit := modify (· ++ [e])

@[simp] def attempt (call : ExchangeCall) (ok : Bool) : Recorded Bool := do
  record (.step call ok)
  pure ok

@[simp] def access (block : Held) : Recorded Unit := record (.use block .read)

@[simp] def freeHeld (block : Held) : Recorded Unit := record (.use block .free)

@[simp] def freeMsg : Recorded Unit := do
  access .msg
  freeHeld .msg

@[simp] def freeBuffer (o : ExchangeOutcomes) : Recorded Unit := do
  if o.mallocBuffer then freeHeld .buffer

def unpackAnswer (o : ExchangeOutcomes) : Recorded Bool := do
  if o.mallocBuffer then access .buffer
  if !(← attempt .unpack o.unpack) then
    freeMsg
    freeHeld .buf
    freeBuffer o
    return false
  if !(← attempt .toMessage o.toMessage) then
    freeMsg
    freeHeld .buf
    freeBuffer o
    return false
  freeMsg
  freeHeld .buf
  freeBuffer o
  return true

def receiveAnswer (o : ExchangeOutcomes) : Recorded Bool := do
  if !(← attempt .readLength o.readLength) then
    freeMsg
    freeHeld .buf
    record .close
  let _ ← attempt .mallocBuffer o.mallocBuffer
  if o.mallocBuffer then access .buffer
  if !(← attempt .readBody o.readBody) then
    freeMsg
    freeHeld .buf
    freeBuffer o
    record .close
  unpackAnswer o

/-- Whether the arguments are not NULL, and whether the result is not. -/
def networkSendReceive (rtable msg : Bool) (o : ExchangeOutcomes) : Recorded Bool := do
  if !msg || !rtable then
    if msg then freeMsg
    return false
  -- `to_messageT` and `message_t__get_packed_size`
  access .msg
  if !(← attempt .mallocBuf o.mallocBuf) then
    freeMsg
    return false
  -- `message_t__pack`
  access .msg
  access .buf
  if !(← attempt .writeLength o.writeLength) then
    freeMsg
    freeHeld .buf
    record .close
    return false
  access .buf
  if !(← attempt .writeBody o.writeBody) then
    freeMsg
    freeHeld .buf
    record .close
    return false
  receiveAnswer o

-- ---------------------------------------------------------------------------
-- Failing cleanly
-- ---------------------------------------------------------------------------

def usesOfHeld (block : Held) (events : List ExchangeEvent) : List Use :=
  events.filterMap fun
    | .use b u => if b = block then some u else none
    | _ => none

def stepsTaken (events : List ExchangeEvent) : List Bool :=
  events.filterMap fun
    | .step _ ok => some ok
    | _ => none

/-- Nothing is used once it is released, or released again, and the first step
that fails is the last one, with NULL as the result. -/
structure FailsCleanly (result : Bool) (events : List ExchangeEvent) : Prop where
  released : ∀ block, .free ∉ (usesOfHeld block events).dropLast
  stops : false ∉ (stepsTaken events).dropLast
  null : false ∈ stepsTaken events → result = false

theorem failsCleanly_iff : FailsCleanly result events ↔
    (.free ∉ (usesOfHeld .msg events).dropLast ∧ .free ∉ (usesOfHeld .buf events).dropLast ∧
      .free ∉ (usesOfHeld .buffer events).dropLast) ∧
    false ∉ (stepsTaken events).dropLast ∧ (false ∈ stepsTaken events → result = false) := by
  constructor
  · rintro ⟨hreleased, hstops, hnull⟩
    exact ⟨⟨hreleased _, hreleased _, hreleased _⟩, hstops, hnull⟩
  · rintro ⟨⟨hmsg, hbuf, hbuffer⟩, hstops, hnull⟩
    refine ⟨fun block => ?_, hstops, hnull⟩
    cases block with
    | msg => exact hmsg
    | buf => exact hbuf
    | buffer => exact hbuffer

instance (result : Bool) (events : List ExchangeEvent) : Decidable (FailsCleanly result events) :=
  decidable_of_iff _ failsCleanly_iff.symm

/-- Nothing is received: an argument is NULL, or a step of sending fails. -/
def refused (rtable msg : Bool) (o : ExchangeOutcomes) : Bool :=
  !rtable || !msg || !o.mallocBuf || !o.writeLength || !o.writeBody

def ExchangeOutcomes.received (o : ExchangeOutcomes) : Bool :=
  o.readLength && o.mallocBuffer && o.readBody

def exchange (rtable msg : Bool) (o : ExchangeOutcomes) : Bool × List ExchangeEvent :=
  (networkSendReceive rtable msg o).run []

-- ---------------------------------------------------------------------------
-- The stages of the exchange
-- ---------------------------------------------------------------------------

def msgFreed : List ExchangeEvent := [.use .msg .read, .use .msg .free]

def packedEvents : List ExchangeEvent :=
  [.use .msg .read, .step .mallocBuf true, .use .msg .read, .use .buf .read]

def writtenEvents (ok : Bool) : List ExchangeEvent :=
  [.step .writeLength true, .use .buf .read, .step .writeBody ok]

def unsentEvents : List ExchangeEvent := msgFreed ++ [.use .buf .free, .close]

theorem exchange_null (o : ExchangeOutcomes) (h : (rtable && msg) = false) :
    exchange rtable msg o = (false, if msg then msgFreed else []) := by
  cases rtable <;> cases msg <;> first | rfl | cases h

theorem exchange_noBuffer (hb : o.mallocBuf = false) :
    exchange true true o = (false, [.use .msg .read, .step .mallocBuf false] ++ msgFreed) := by
  obtain ⟨⟩ := o
  cases hb
  rfl

theorem exchange_noLength (hb : o.mallocBuf = true) (hl : o.writeLength = false) :
    exchange true true o = (false, packedEvents ++ .step .writeLength false :: unsentEvents) := by
  obtain ⟨⟩ := o
  cases hb
  cases hl
  rfl

theorem exchange_noBody (hb : o.mallocBuf = true) (hl : o.writeLength = true)
    (hw : o.writeBody = false) :
    exchange true true o = (false, packedEvents ++ (writtenEvents false ++ unsentEvents)) := by
  obtain ⟨⟩ := o
  cases hb
  cases hl
  cases hw
  rfl

theorem exchange_sent (hr : refused rtable msg o = false) :
    exchange rtable msg o = (receiveAnswer o).run (packedEvents ++ writtenEvents true) := by
  obtain ⟨⟩ := o
  simp only [refused, Bool.or_eq_false_iff, Bool.not_eq_false'] at hr
  obtain ⟨⟨⟨⟨rfl, rfl⟩, rfl⟩, rfl⟩, rfl⟩ := hr
  rfl

def lengthEvents (o : ExchangeOutcomes) : List ExchangeEvent :=
  .step .readLength o.readLength :: if o.readLength then [] else unsentEvents

def bufferEvents (o : ExchangeOutcomes) : List ExchangeEvent :=
  .step .mallocBuffer o.mallocBuffer :: if o.mallocBuffer then [.use .buffer .read] else []

def bufferFreed (o : ExchangeOutcomes) : List ExchangeEvent :=
  if o.mallocBuffer then [.use .buffer .free] else []

def bodyEvents (o : ExchangeOutcomes) : List ExchangeEvent :=
  .step .readBody o.readBody ::
    if o.readBody then [] else msgFreed ++ .use .buf .free :: (bufferFreed o ++ [.close])

def unpackEvents (o : ExchangeOutcomes) : List ExchangeEvent :=
  (if o.mallocBuffer then [.use .buffer .read] else []) ++
    .step .unpack o.unpack :: if o.unpack then [.step .toMessage o.toMessage] else []

theorem receiveAnswer_run (o : ExchangeOutcomes) (es : List ExchangeEvent) :
    (receiveAnswer o).run es =
      (unpackAnswer o).run (es ++ (lengthEvents o ++ (bufferEvents o ++ bodyEvents o))) := by
  cases hl : o.readLength <;> cases hb : o.mallocBuffer <;> cases hr : o.readBody
  all_goals
    simp [receiveAnswer, hl, hb, hr, lengthEvents, bufferEvents, bodyEvents, bufferFreed, msgFreed,
      unsentEvents]

theorem unpackAnswer_run (o : ExchangeOutcomes) (es : List ExchangeEvent) :
    (unpackAnswer o).run es = (o.unpack && o.toMessage,
      es ++ (unpackEvents o ++ (msgFreed ++ .use .buf .free :: bufferFreed o))) := by
  cases hb : o.mallocBuffer <;> cases hu : o.unpack <;> cases ht : o.toMessage
  all_goals
    simp [unpackAnswer, hb, hu, ht, unpackEvents, bufferFreed, msgFreed]
    rfl

theorem exchange_received_run (hr : refused rtable msg o = false) (ho : o.received = true) :
    exchange rtable msg o = (o.unpack && o.toMessage,
      packedEvents ++ writtenEvents true ++
        ([.step .readLength true, .step .mallocBuffer true, .use .buffer .read,
            .step .readBody true, .use .buffer .read, .step .unpack o.unpack] ++
          ((if o.unpack then [.step .toMessage o.toMessage] else []) ++
            (msgFreed ++ [.use .buf .free, .use .buffer .free])))) := by
  simp only [ExchangeOutcomes.received, Bool.and_eq_true] at ho
  obtain ⟨⟨hl, hb⟩, hbody⟩ := ho
  rw [exchange_sent hr, receiveAnswer_run, unpackAnswer_run]
  simp [lengthEvents, bufferEvents, bodyEvents, unpackEvents, bufferFreed, hl, hb, hbody]

-- ---------------------------------------------------------------------------
-- How it fails
-- ---------------------------------------------------------------------------

theorem stepsTaken_append (es es' : List ExchangeEvent) :
    stepsTaken (es ++ es') = stepsTaken es ++ stepsTaken es' := List.filterMap_append ..

theorem exchange_refused (hr : refused rtable msg o = true) :
    FailsCleanly (exchange rtable msg o).1 (exchange rtable msg o).2 := by
  by_cases hargs : (rtable && msg) = true
  swap
  · rw [exchange_null o (Bool.eq_false_iff.mpr hargs)]
    cases msg <;> decide
  rw [Bool.and_eq_true] at hargs
  obtain ⟨rfl, rfl⟩ := hargs
  cases hb : o.mallocBuf with
  | false =>
    rw [exchange_noBuffer hb]
    decide
  | true =>
    cases hl : o.writeLength with
    | false =>
      rw [exchange_noLength hb hl]
      decide
    | true =>
      have hw : o.writeBody = false := by simpa [refused, hb, hl] using hr
      rw [exchange_noBody hb hl hw]
      decide

theorem exchange_received (hr : refused rtable msg o = false) (ho : o.received = true) :
    FailsCleanly (exchange rtable msg o).1 (exchange rtable msg o).2 := by
  rw [exchange_received_run hr ho]
  cases o.unpack with
  | false =>
    simp only [Bool.false_and, Bool.false_eq_true, ↓reduceIte]
    decide
  | true => cases o.toMessage <;> decide

theorem stepsTaken_sent (hr : refused rtable msg o = false) :
    stepsTaken (exchange rtable msg o).2 =
      [true, true, true, o.readLength, o.mallocBuffer, o.readBody] ++
        o.unpack :: if o.unpack then [o.toMessage] else [] := by
  have hsent : stepsTaken (packedEvents ++ writtenEvents true) = [true, true, true] := rfl
  have hlength : stepsTaken (lengthEvents o) = [o.readLength] := by
    cases h : o.readLength <;> simp only [lengthEvents, h] <;> rfl
  have hbuffer : stepsTaken (bufferEvents o) = [o.mallocBuffer] := by
    cases h : o.mallocBuffer <;> simp only [bufferEvents, h] <;> rfl
  have hfreed : stepsTaken (bufferFreed o) = [] := by
    cases h : o.mallocBuffer <;> simp only [bufferFreed, h] <;> rfl
  have hbody : stepsTaken (bodyEvents o) = [o.readBody] := by
    cases h : o.readBody with
    | true =>
      simp only [bodyEvents, h]
      rfl
    | false =>
      have hrest : stepsTaken (bodyEvents o) =
          o.readBody :: stepsTaken (bufferFreed o ++ [.close]) := by
        simp only [bodyEvents, h]
        rfl
      rw [hrest, stepsTaken_append, hfreed, h]
      rfl
  have hunpack : stepsTaken (unpackEvents o) =
      o.unpack :: if o.unpack then [o.toMessage] else [] := by
    rw [unpackEvents, stepsTaken_append]
    cases o.mallocBuffer <;> cases o.unpack <;> rfl
  have hlast : stepsTaken (msgFreed ++ .use .buf .free :: bufferFreed o) = [] := by
    rw [stepsTaken_append]
    exact hfreed
  rw [exchange_sent hr, receiveAnswer_run, unpackAnswer_run]
  simp only [stepsTaken_append, hsent, hlength, hbuffer, hbody, hunpack, hlast]
  simp

theorem exchange_unread (hr : refused rtable msg o = false) (ho : o.received = false) :
    ¬ FailsCleanly (exchange rtable msg o).1 (exchange rtable msg o).2 := by
  intro h
  have hstops := h.stops
  rw [stepsTaken_sent hr, List.dropLast_append_of_ne_nil (List.cons_ne_nil _ _)] at hstops
  refine hstops (List.mem_append_left _ ?_)
  simp only [ExchangeOutcomes.received, Bool.and_eq_false_iff, or_assoc] at ho
  simpa [eq_comm (a := false)] using ho

/-- The exchange fails cleanly exactly if it fails before anything is received, or
the length, the buffer and the message are there to be unpacked. -/
theorem exchange_clean_iff (rtable msg : Bool) (o : ExchangeOutcomes) :
    FailsCleanly (exchange rtable msg o).1 (exchange rtable msg o).2 ↔
      refused rtable msg o = true ∨ o.received = true := by
  cases hr : refused rtable msg o with
  | true => exact iff_of_true (exchange_refused hr) (.inl rfl)
  | false =>
    cases ho : o.received with
    | true => exact iff_of_true (exchange_received hr ho) (.inr rfl)
    | false => exact iff_of_false (exchange_unread hr ho) (by simp)

/-- The read of the answer's length fails (`ECONNRESET`, say). -/
def noAnswer : ExchangeOutcomes := ⟨true, true, true, false, true, false, false, false⟩

/-- The request and the buffer sent are released three times, the buffer to receive
into twice; with garbage for a length the function still reads and unpacks. -/
theorem noAnswer_released_again :
    ¬ FailsCleanly (exchange true true noAnswer).1 (exchange true true noAnswer).2 ∧
      (usesOfHeld .msg (exchange true true noAnswer).2).count .free = 3 ∧
      (usesOfHeld .buf (exchange true true noAnswer).2).count .free = 3 ∧
      (usesOfHeld .buffer (exchange true true noAnswer).2).count .free = 2 := by
  decide

end HashMapStorage
