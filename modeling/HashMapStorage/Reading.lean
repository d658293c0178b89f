import HashMapStorage.Framing

/-!
# One call of `read_all`

The call against a peer that sends so many bytes and then closes its end, or
whose socket fails then. The results of the system call come from an endless
schedule. At the end of the stream `read_all` only sets its pointer to 0: it
goes on calling `read`, which goes on returning 0.
-/

namespace HashMapStorage

open Machine

/-- `stream` is what can still be read; `fails` tells what is found behind it. -/
structure ReadCall where
  loop : ReadAll
  stream : List UInt8
  fails : Bool
  returned : Option Int
  deriving DecidableEq

def readCall (len : Int) (stream : List UInt8) (fails : Bool) : ReadCall :=
  ⟨readAll len, stream, fails, none⟩

namespace ReadCall

/-- What `read` can report; it can be interrupted at any time. -/
def allows (c : ReadCall) : IoResult → Bool
  | .interrupted => true
  | .error => c.fails && c.stream.isEmpty
  | .count 0 => !c.fails && c.stream.isEmpty
  | .count n => n ≤ c.loop.len && n ≤ c.stream.length

def step (c : ReadCall) (res : IoResult) : Option ReadCall :=
  if c.returned = none ∧ c.loop.len > 0 ∧ c.allows res = true then
    match c.loop.body c.stream res with
    | .continues loop => some { c with loop, stream := c.stream.drop res.transferred }
    | .returns value => some { c with returned := some value }
  else none

def result (c : ReadCall) : Option Int :=
  match c.returned with
  | some value => some value
  | none => if c.loop.len > 0 then none else some c.loop.bufsize

def inside (c : ReadCall) (res : IoResult) : Bool :=
  res.transferred = 0 ||
    (!c.loop.null && c.loop.stored.length + res.transferred ≤ c.loop.bufsize)

/-- `read_all` returns, and it returns the length asked for exactly if so many
bytes can be read. -/
def Returns (c : ReadCall) (results : Nat → IoResult) : Prop :=
  ∃ n c' value, run step c (firstSteps results n) = some c' ∧ c'.result = some value ∧
    (value = c.loop.bufsize ↔ c.loop.bufsize ≤ c.stream.length)

/-- A schedule that the peer allows, with finitely many interrupted calls. -/
structure Plays (c : ReadCall) (results : Nat → IoResult) : Prop where
  allowed : ∀ n c', run step c (firstSteps results n) = some c' → c'.result = none →
    c'.allows (results n) = true
  fair : ∃ n, ∀ k, n ≤ k → results k ≠ .interrupted

-- ---------------------------------------------------------------------------
-- What a call of `read` does
-- ---------------------------------------------------------------------------

variable {c c' : ReadCall} {len : Int} {stream : List UInt8} {fails : Bool}

structure Reads (len : Int) (stream : List UInt8) (fails : Bool) (c : ReadCall) : Prop where
  fails_eq : c.fails = fails
  bytes : c.loop.stored ++ c.stream = stream
  bufsize : c.loop.bufsize = len
  len_eq : c.loop.len + c.loop.stored.length = len
  null : c.loop.null = true → c.stream = []
  returned : ∀ value, c.returned = some value →
    value = -1 ∧ fails = true ∧ c.stream = [] ∧ c.loop.len > 0

theorem readCall_reads : Reads len stream fails (readCall len stream fails) :=
  ⟨rfl, rfl, rfl, by simp [readCall, readAll], nofun, nofun⟩

inductive Reading (c : ReadCall) : IoResult → ReadCall → Prop
  | interrupted : Reading c .interrupted c
  | error (hf : c.fails = true) (he : c.stream = []) :
      Reading c .error { c with returned := some (-1) }
  | ended (hf : c.fails = false) (he : c.stream = []) :
      Reading c (.count 0) { c with loop := { c.loop with null := true } }
  | bytes (n : Nat) (hlen : (n : Int) + 1 ≤ c.loop.len) (hn : n + 1 ≤ c.stream.length) :
      Reading c (.count (n + 1)) { c with
        loop := { c.loop with
          stored := c.loop.stored ++ c.stream.take (n + 1)
          len := c.loop.len - (n + 1 : Nat) }
        stream := c.stream.drop (n + 1) }

theorem step_reading (hs : c.step res = some c') :
    c.returned = none ∧ c.loop.len > 0 ∧ Reading c res c' := by
  unfold step at hs
  split at hs
  · rename_i hcall
    obtain ⟨hreturned, hlen, hallow⟩ := hcall
    refine ⟨hreturned, hlen, ?_⟩
    cases res with
    | interrupted =>
      cases hs
      exact .interrupted
    | error =>
      simp only [allows, Bool.and_eq_true, List.isEmpty_iff] at hallow
      cases hs
      exact .error hallow.1 hallow.2
    | count n =>
      cases n with
      | zero =>
        simp only [allows, Bool.and_eq_true, Bool.not_eq_true', List.isEmpty_iff] at hallow
        have hsame : c' = { c with loop := { c.loop with null := true } } := by
          cases hs
          simp [IoResult.transferred]
        rw [hsame]
        exact .ended hallow.1 hallow.2
      | succ n =>
        simp only [allows, Bool.and_eq_true, decide_eq_true_eq] at hallow
        have hnull : (c.loop.null || n + 1 == 0) = c.loop.null := by simp
        simp only [ReadAll.body, hnull, IoResult.transferred] at hs
        cases hs
        exact .bytes n (by omega) hallow.2
  · cases hs

theorem Reads.step (h : Reads len stream fails c) (hs : c.step res = some c') :
    Reads len stream fails c' := by
  obtain ⟨hreturned, hpos, hr⟩ := step_reading hs
  obtain ⟨hfails, hbytes, hsize, hlen, hnull, -⟩ := h
  cases hr with
  | interrupted => exact ⟨hfails, hbytes, hsize, hlen, hnull, by simp [hreturned]⟩
  | error hf he =>
    refine ⟨hfails, hbytes, hsize, hlen, hnull, fun value hv => ?_⟩
    cases hv
    exact ⟨rfl, hfails ▸ hf, he, hpos⟩
  | ended hf he => exact ⟨hfails, hbytes, hsize, hlen, fun _ => he, by simp [hreturned]⟩
  | bytes n hle hn =>
    refine ⟨hfails, ?_, hsize, ?_, fun hz => ?_, by simp [hreturned]⟩
    · rw [List.append_assoc, List.take_append_drop, hbytes]
    · rw [List.length_append, List.length_take, Nat.min_eq_left hn]
      push_cast
      omega
    · rw [hnull hz] at hn
      nomatch hn

theorem Reads.inside (h : Reads len stream fails c) (hs : c.step res = some c') :
    c.inside res = true := by
  obtain ⟨-, -, hr⟩ := step_reading hs
  cases hr with
  | interrupted | error | ended => rfl
  | bytes n hle hn =>
    have hnull : c.loop.null = false := by
      by_contra hz
      rw [h.null (by simpa using hz)] at hn
      nomatch hn
    have hsize := h.bufsize
    have hlen := h.len_eq
    simp only [ReadCall.inside, IoResult.transferred, hnull, Bool.not_false, Bool.true_and,
      Nat.cast_add, Nat.cast_one, Bool.or_eq_true, decide_eq_true_eq]
    exact .inr (by omega)

theorem Reads.result (h : Reads len stream fails c) (hr : c.result = some value) :
    (value = len ↔ len ≤ stream.length) ∧ (len ≤ stream.length ∨ fails = true) := by
  have htotal := congrArg List.length h.bytes
  have hlen := h.len_eq
  rw [List.length_append] at htotal
  unfold ReadCall.result at hr
  split at hr
  · rename_i v hv
    cases hr
    obtain ⟨rfl, hf, he, hpos⟩ := h.returned value hv
    rw [he, List.length_nil] at htotal
    exact ⟨by omega, .inr hf⟩
  · split at hr
    · cases hr
    · cases hr
      have hsize := h.bufsize
      exact ⟨by omega, .inl (by omega)⟩

/-- How many calls of `read` can still bring bytes or fail. -/
def ahead (c : ReadCall) : Nat :=
  match c.returned with
  | some _ => 0
  | none => c.loop.len.toNat + 1

/-- Interrupted calls apart, every call of `read` brings the end nearer if there
is enough to read or a failure behind it. -/
theorem Reads.progress (h : Reads len stream fails c) (henough : len ≤ stream.length ∨ fails = true)
    (hs : c.step res = some c') (hres : res ≠ .interrupted) : c'.ahead < c.ahead := by
  obtain ⟨hreturned, hpos, hr⟩ := step_reading hs
  have hahead : c.ahead = c.loop.len.toNat + 1 := by rw [ahead, hreturned]
  rw [hahead]
  cases hr with
  | interrupted => exact absurd rfl hres
  | error => exact Nat.succ_pos _
  | ended hf he =>
    have htotal := congrArg List.length h.bytes
    have hlen := h.len_eq
    rw [he, List.append_nil] at htotal
    rcases henough with henough | henough
    · omega
    · rw [← h.fails_eq, hf] at henough
      nomatch henough
  | bytes n hle hn =>
    simp only [ahead, hreturned]
    push_cast
    omega

theorem step_allows (hr : c.result = none) (ha : c.allows res = true) :
    ∃ c', c.step res = some c' := by
  have hcall : c.returned = none ∧ c.loop.len > 0 := by
    unfold result at hr
    split at hr
    · cases hr
    · rename_i hnone
      split at hr
      · rename_i hlen
        exact ⟨hnone, hlen⟩
      · cases hr
  rw [step, if_pos ⟨hcall.1, hcall.2, ha⟩]
  cases c.loop.body c.stream res with
  | continues loop => exact ⟨_, rfl⟩
  | returns value => exact ⟨_, rfl⟩

theorem step_ended (res : IoResult) (hr : c.result ≠ none) : c.step res = none := by
  refine if_neg fun hcall => hr ?_
  rw [result, hcall.1]
  exact if_pos hcall.2.1

end ReadCall

-- ---------------------------------------------------------------------------
-- The whole call
-- ---------------------------------------------------------------------------

variable {len : Int} {stream : List UInt8} {fails : Bool} {results : Nat → IoResult}

theorem run_reads (hr : run ReadCall.step (readCall len stream fails) ress = some c) :
    c.Reads len stream fails := by
  have ha : Along ReadCall.step (fun _ _ => True) (readCall len stream fails) ress :=
    along_of_forall fun _ _ _ => trivial
  exact run_keeps (fun _ _ _ h _ hs => h.step hs) ReadCall.readCall_reads ha hr

theorem readAll_result (hplays : (readCall len stream fails).Plays results)
    (henough : len ≤ stream.length ∨ fails = true) :
    ∃ n c, run ReadCall.step (readCall len stream fails) (firstSteps results n) = some c ∧
      c.result ≠ none := by
  obtain ⟨m, hfair⟩ := hplays.fair
  refine schedule_ends (μ := ReadCall.ahead) (fun c res c' h hs =>
    ⟨h.step hs, fun hidle => h.progress henough hs (of_decide_eq_false hidle)⟩)
    ReadCall.readCall_reads (fun n c hr he => ?_) ⟨m, fun k hk => decide_eq_false (hfair k hk)⟩
  have hnone := Classical.not_not.mp he
  exact ReadCall.step_allows hnone (hplays.allowed n c hr hnone)

/-- In every schedule `read_all` stores inside the buffer only; it returns, and
with the length asked for exactly if so many bytes can be read, if and only if
they can be or the socket fails. -/
theorem readAll_ends (hplays : (readCall len stream fails).Plays results) :
    (readCall len stream fails).Returns results ∧
        (∀ n c c', run ReadCall.step (readCall len stream fails) (firstSteps results n) = some c →
          c.step (results n) = some c' → c.inside (results n) = true) ↔
      len ≤ stream.length ∨ fails = true := by
  constructor
  · rintro ⟨⟨n, c, value, hr, hvalue, -⟩, -⟩
    exact ((run_reads hr).result hvalue).2
  · intro henough
    refine ⟨?_, fun n c c' hr hs => (run_reads hr).inside hs⟩
    obtain ⟨n, c, hr, hresult⟩ := readAll_result hplays henough
    obtain ⟨value, hvalue⟩ := Option.ne_none_iff_exists'.mp hresult
    exact ⟨n, c, value, hr, hvalue, ((run_reads hr).result hvalue).1⟩

def choppyResults : Nat → IoResult
  | 0 => .count 2
  | 1 => .interrupted
  | _ => .count 1

theorem readAll_ends_choppy : (readCall 3 [1, 2, 3] false).Returns choppyResults := by
  have hended : ∃ c, run ReadCall.step (readCall 3 [1, 2, 3] false) (firstSteps choppyResults 3) =
      some c ∧ c.result ≠ none := ⟨_, rfl, by decide⟩
  obtain ⟨c₃, hr₃, hc₃⟩ := hended
  have hplays : (readCall 3 [1, 2, 3] false).Plays choppyResults := by
    refine ⟨fun n c hr hc => ?_, 2, fun k hk => ?_⟩
    · match n with
      | 0 | 1 | 2 =>
        cases hr
        rfl
      | 3 =>
        rw [hr₃] at hr
        cases hr
        exact absurd hc hc₃
      | n + 4 =>
        rw [run_firstSteps_ended (fun _ res => ReadCall.step_ended res) hr₃ hc₃ (by omega)] at hr
        cases hr
    · match k with
      | 0 | 1 => omega
      | k + 2 => nofun
  exact ((readAll_ends hplays).mpr (.inl (by decide))).1

/-- The peer closes its end without a byte: `read` returns 0 for ever, and
`read_all` does not return. -/
theorem readAll_endless : (readCall 4 [] false).Plays (fun _ => .count 0) ∧
    ¬ (readCall 4 [] false).Returns (fun _ => .count 0) := by
  refine ⟨⟨fun n c hr _ => ?_, 0, fun _ _ => nofun⟩, ?_⟩
  · have hreads := run_reads hr
    obtain ⟨-, hstream⟩ := List.append_eq_nil_iff.mp hreads.bytes
    simp [ReadCall.allows, hreads.fails_eq, hstream]
  · rintro ⟨n, c, value, hr, hvalue, -⟩
    rcases ((run_reads hr).result hvalue).2 with hlen | hfails
    · nomatch hlen
    · nomatch hfails

end HashMapStorage
