import HashMapStorage.ServerLoopLaws

/-!
# When the server heeds a signal

`INTHandler` clears `interrupt`, which only the outer loop of
`network_main_loop` tests; the inner one goes on until `poll` fails. A handler
that runs while the process is blocked in `poll` makes it fail. `accept`, `read`
and `write` are restarted, so elsewhere a signal leaves the steps as they are.
-/

namespace HashMapStorage

open Machine

/-- The server loop with the call of `poll` in two halves. -/
structure PolledLoop where
  loop : ServerLoop
  blocked : Bool
  caught : Bool

def PolledLoop.start (listening_socket : Int) : PolledLoop :=
  ⟨.start listening_socket, false, false⟩

inductive PolledStep
  | enter
  | step (a : LoopStep)

def PolledStep.isSignal : PolledStep → Bool
  | .step .signal => true
  | _ => false

namespace PolledLoop

variable {s s' : PolledLoop}

/-- A signal that comes when `poll` has its result counts as one behind the call. -/
def step (s : PolledLoop) : PolledStep → Option PolledLoop
  | .enter =>
    if s.loop.pc = .poll ∧ s.blocked = false then some { s with blocked := true } else none
  | .step .signal =>
    some ⟨{ s.loop with interrupt := 0 }, s.blocked, s.caught || s.blocked⟩
  | .step (.poll result) =>
    -- EINTR
    if s.blocked = true ∧ (s.caught = true → result.isNone = true) then
      (s.loop.step (.poll result)).map fun loop => ⟨loop, false, false⟩
    else none
  | .step a => (s.loop.step a).map fun loop => { s with loop }

def loopStep : PolledStep → Option LoopStep
  | .enter => none
  | .step a => some a

theorem step_loop (hs : s.step (.step a) = some s') : s.loop.step a = some s'.loop := by
  cases a with
  | signal =>
    cases hs
    rfl
  | poll result =>
    simp only [step] at hs
    split at hs
    · obtain ⟨loop, hloop, rfl⟩ := Option.map_eq_some_iff.mp hs
      exact hloop
    · cases hs
  | test | accept | serve | hup =>
    obtain ⟨loop, hloop, rfl⟩ := Option.map_eq_some_iff.mp hs
    exact hloop

theorem run_loop {s s' : PolledLoop} (hr : run step s as = some s') :
    run ServerLoop.step s.loop (as.filterMap loopStep) = some s'.loop := by
  induction as generalizing s with
  | nil =>
    cases hr
    rfl
  | cons a as ih =>
    obtain ⟨s₁, hs₁, hr⟩ := run_cons hr
    have hrest := ih hr
    cases a with
    | enter =>
      simp only [step] at hs₁
      split at hs₁
      · cases hs₁
        exact hrest
      · cases hs₁
    | step a =>
      have hcons : (PolledStep.step a :: as).filterMap loopStep = a :: as.filterMap loopStep := rfl
      rw [hcons, run, step_loop hs₁, Option.bind_some, hrest]

def polledSteps : LoopStep → List PolledStep
  | .poll result => [.enter, .step (.poll result)]
  | a => [.step a]

theorem loop_run {loop loop' : ServerLoop} (hr : run ServerLoop.step loop as = some loop') :
    run step ⟨loop, false, false⟩ (as.flatMap polledSteps) = some ⟨loop', false, false⟩ := by
  induction as generalizing loop with
  | nil =>
    cases hr
    rfl
  | cons a as ih =>
    obtain ⟨loop₁, hs₁, hr⟩ := run_cons hr
    have hs : run step ⟨loop, false, false⟩ (polledSteps a) = some ⟨loop₁, false, false⟩ := by
      cases a with
      | poll result =>
        have hpc : loop.pc = .poll := by cases ServerLoop.step_cases hs₁ <;> assumption
        simp [polledSteps, run, step, hpc, hs₁]
      | signal =>
        cases hs₁
        rfl
      | test | accept | serve | hup => simp [polledSteps, run, step, hs₁]
    rw [List.flatMap_cons, run_append, hs, Option.bind_some, ih hr]

/-- From here on no round is started, and after finitely many steps, of which
there is always one to take, the loop has been left. -/
structure Honoured (s : PolledLoop) : Prop where
  no_round : ∀ bs s', run step s bs = some s' → ∀ revents, .step (.poll (some revents)) ∉ bs
  leaves : ∃ n, ∀ bs s', run step s bs = some s' →
    bs.countP (fun a => !a.isSignal) ≤ n ∧
      (s'.loop.pc = .done ∨ ∃ a s'', a.isSignal = false ∧ s'.step a = some s'')

def heeds (s : PolledLoop) : Bool := s.blocked || s.loop.pc = .test || s.loop.pc = .done

-- ---------------------------------------------------------------------------
-- Leaving
-- ---------------------------------------------------------------------------

structure Leaving (s : PolledLoop) : Prop where
  interrupt : s.loop.interrupt = 0
  at_pc : (s.loop.pc = .poll ∧ s.blocked = true ∧ s.caught = true) ∨
    ((s.loop.pc = .test ∨ s.loop.pc = .done) ∧ s.blocked = false)

def rank (s : PolledLoop) : Nat :=
  match s.loop.pc with
  | .poll => 2
  | .test => 1
  | _ => 0

def Blocks (s : PolledLoop) : Prop :=
  (s.blocked = true → s.loop.pc = .poll) ∧ (s.caught = true → s.blocked = true)

theorem blocks_step (h : s.Blocks) (hs : s.step a = some s') : s'.Blocks := by
  obtain ⟨hb, hc⟩ := h
  cases a with
  | enter =>
    simp only [step] at hs
    split at hs
    · rename_i hat
      cases hs
      exact ⟨fun _ => hat.1, fun _ => rfl⟩
    · cases hs
  | step a =>
    cases a with
    | signal =>
      cases hs
      refine ⟨hb, fun hcaught => ?_⟩
      obtain hcaught | hblocked := Bool.or_eq_true_iff.mp hcaught
      · exact hc hcaught
      · exact hblocked
    | poll result =>
      simp only [step] at hs
      split at hs
      · obtain ⟨loop, -, rfl⟩ := Option.map_eq_some_iff.mp hs
        exact ⟨by simp, by simp⟩
      · cases hs
    | test | accept | serve | hup =>
      obtain ⟨loop, hloop, rfl⟩ := Option.map_eq_some_iff.mp hs
      -- these are no steps of a process that is blocked
      have hfree : ¬ s.blocked = true := by
        intro hblocked
        simp [ServerLoop.step, hb hblocked] at hloop
      exact ⟨fun hblocked => absurd hblocked hfree, hc⟩

theorem leaving_step (h : s.Leaving) (hs : s.step a = some s') :
    s'.Leaving ∧ s'.rank + (if !a.isSignal then 1 else 0) ≤ s.rank ∧
      ∀ revents, a ≠ .step (.poll (some revents)) := by
  obtain ⟨hint, ⟨hpc, hblocked, hcaught⟩ | ⟨hpc, hblocked⟩⟩ := h
  · cases a with
    | enter => simp [step, hblocked] at hs
    | step a =>
      cases a with
      | signal =>
        cases hs
        refine ⟨⟨rfl, .inl ⟨hpc, hblocked, ?_⟩⟩, by simp [PolledStep.isSignal, rank], by simp⟩
        simp [hcaught]
      | poll result =>
        cases result with
        | none =>
          simp only [step, hblocked, hcaught, ServerLoop.step, hpc] at hs
          cases hs
          exact ⟨⟨hint, .inr ⟨.inl rfl, rfl⟩⟩, by simp [PolledStep.isSignal, rank, hpc], by simp⟩
        | some revents => simp [step, hcaught] at hs
      | test | accept | serve | hup => simp [step, ServerLoop.step, hpc] at hs
  · cases a with
    | enter =>
      obtain hpc | hpc := hpc <;> simp [step, hpc] at hs
    | step a =>
      cases a with
      | signal =>
        cases hs
        refine ⟨⟨rfl, .inr ⟨hpc, hblocked⟩⟩, by simp [PolledStep.isSignal, rank], by simp⟩
      | poll result => simp [step, hblocked] at hs
      | test =>
        obtain hpc | hpc := hpc
        · simp only [step, ServerLoop.step, hpc, hint] at hs
          cases hs
          exact ⟨⟨rfl, .inr ⟨.inr rfl, hblocked⟩⟩,
            by simp [PolledStep.isSignal, rank, hpc], by simp⟩
        · simp [step, ServerLoop.step, hpc] at hs
      | accept | serve | hup =>
        obtain hpc | hpc := hpc <;> simp [step, ServerLoop.step, hpc] at hs

theorem leaving_next (h : s.Leaving) :
    s.loop.pc = .done ∨ ∃ a s', a.isSignal = false ∧ s.step a = some s' := by
  obtain ⟨-, ⟨hpc, hblocked, -⟩ | ⟨hpc | hpc, -⟩⟩ := h
  · refine .inr ⟨.step (.poll none), ⟨{ s.loop with pc := .test }, false, false⟩, rfl, ?_⟩
    simp [step, ServerLoop.step, hpc, hblocked]
  · exact .inr ⟨.step .test, _, rfl, by simp only [step, ServerLoop.step, hpc]; rfl⟩
  · exact .inl hpc

theorem Leaving.honoured (h : s.Leaving) : s.Honoured := by
  constructor
  · intro bs s' hr revents hmem
    induction bs generalizing s with
    | nil => cases hmem
    | cons b bs ih =>
      obtain ⟨s₁, hs₁, hr⟩ := run_cons hr
      obtain ⟨h₁, -, hne⟩ := leaving_step h hs₁
      obtain rfl | hmem := List.mem_cons.mp hmem
      · exact hne revents rfl
      · exact ih h₁ hr hmem
  · refine ⟨s.rank, fun bs s' hr => ?_⟩
    have hall : Along step (fun _ _ => True) s bs := along_of_forall fun _ _ _ => trivial
    have hstep : ∀ (s : PolledLoop) (a : PolledStep) (s' : PolledLoop), s.Leaving → True →
        s.step a = some s' → s'.Leaving ∧ s'.rank + (if !a.isSignal then 1 else 0) ≤ s.rank :=
      fun s a s' h _ hs => (leaving_step h hs).imp_right And.left
    have hle := run_measure hstep h hall hr
    have hleaving := run_keeps (fun s a s' h ha hs => (hstep s a s' h ha hs).1) h hall hr
    exact ⟨by omega, leaving_next hleaving⟩

-- ---------------------------------------------------------------------------
-- Going on
-- ---------------------------------------------------------------------------

theorem hup_scans {loop : ServerLoop} (hpc : loop.pc = .hup) :
    ∃ loop', loop.step (.hup anyFd) = some loop' ∧ loop'.pc = .scan ∧ loop'.i = loop.i + 1 ∧
      loop'.nfds ≤ loop.nfds := by
  by_cases hset : (loop.slot loop.i).revents.pollhup = true
  · have hs : loop.step (.hup anyFd) =
        some { ((loop.close (loop.slot loop.i).fd).clearSlot).shift anyFd with
          i := loop.i + 1, pc := .scan } := by
      simp [ServerLoop.step, hpc, hset]
    exact ⟨_, hs, rfl, rfl, Nat.sub_le ..⟩
  · have hs : loop.step (.hup anyFd) = some { loop with i := loop.i + 1, pc := .scan } := by
      simp [ServerLoop.step, hpc, hset]
    exact ⟨_, hs, rfl, rfl, Nat.le_refl _⟩

theorem unreadable_scans {loop : ServerLoop} (hpc : loop.pc = .scan) (hn : loop.i < loop.nfds)
    (hset : (loop.slot loop.i).revents.pollin = true) :
    ∃ loop', loop.step (.serve (.unreadable false) anyFd) = some loop' ∧ loop'.pc = .scan ∧
      loop'.i = loop.i ∧ loop'.nfds = loop.nfds - 1 := by
  have hs : loop.step (.serve (.unreadable false) anyFd) =
      some { ((loop.close (loop.slot loop.i).fd).clearSlot).shift anyFd with pc := .scan } := by
    simp [ServerLoop.step, hpc, hn, hset, ServerLoop.serve]
  exact ⟨_, hs, rfl, rfl, rfl⟩

theorem scan_passes {loop : ServerLoop} (hpc : loop.pc = .scan) (hn : loop.i < loop.nfds)
    (hset : ¬ (loop.slot loop.i).revents.pollin = true) :
    loop.step (.serve (.unreadable false) anyFd) = some { loop with pc := .hup } := by
  simp [ServerLoop.step, hpc, hn, hset]

theorem scan_ends {loop : ServerLoop} (hpc : loop.pc = .scan) :
    ∃ as loop', run ServerLoop.step loop as = some loop' ∧ loop'.pc = .poll := by
  induction hleft : loop.nfds - loop.i using Nat.strongRecOn generalizing loop with
  | ind left ih =>
    by_cases hn : loop.i < loop.nfds
    · by_cases hset : (loop.slot loop.i).revents.pollin = true
      · obtain ⟨loop₁, hs₁, hpc₁, hi, hnfds⟩ := unreadable_scans hpc hn hset
        obtain ⟨as, loop', hr, hpoll⟩ := ih _ (by omega) hpc₁ rfl
        refine ⟨.serve (.unreadable false) anyFd :: as, loop', ?_, hpoll⟩
        rw [run, hs₁, Option.bind_some, hr]
      · have hs := scan_passes hpc hn hset
        have hhup : ({ loop with pc := .hup } : ServerLoop).pc = .hup := rfl
        obtain ⟨loop₁, hs₁, hpc₁, hi, hnfds⟩ := hup_scans hhup
        simp only at hi hnfds
        obtain ⟨as, loop', hr, hpoll⟩ := ih _ (by omega) hpc₁ rfl
        refine ⟨.serve (.unreadable false) anyFd :: .hup anyFd :: as, loop', ?_, hpoll⟩
        rw [run, hs, Option.bind_some, run, hs₁, Option.bind_some, hr]
    · refine ⟨[.serve (.unreadable false) anyFd], { loop with pc := .poll }, ?_, rfl⟩
      simp only [run, ServerLoop.step, hpc, hn, if_false, Option.bind_some]

theorem round_ends {loop : ServerLoop} (htest : loop.pc ≠ .test) (hdone : loop.pc ≠ .done) :
    ∃ as loop', run ServerLoop.step loop as = some loop' ∧ loop'.pc = .poll := by
  -- one step leads to the scan
  have hscan : ∀ {a loop₁}, loop.step a = some loop₁ → loop₁.pc = .scan →
      ∃ as loop', run ServerLoop.step loop as = some loop' ∧ loop'.pc = .poll := by
    intro a loop₁ hs hpc
    obtain ⟨as, loop', hr, hpoll⟩ := scan_ends hpc
    exact ⟨a :: as, loop', by rw [run, hs, Option.bind_some, hr], hpoll⟩
  cases hpc : loop.pc with
  | test => exact absurd hpc htest
  | done => exact absurd hpc hdone
  | poll => exact ⟨[], loop, rfl, hpc⟩
  | scan => exact scan_ends hpc
  | hup =>
    obtain ⟨loop₁, hs₁, hpc₁, -⟩ := hup_scans hpc
    exact hscan hs₁ hpc₁
  | accept =>
    by_cases hcalled : (loop.slot 0).revents.pollin = true ∧ loop.nfds < NFDESC
    · have hs : loop.step (.accept (-1)) =
          some { loop.accepted (-1) with i := 1, pc := .scan } := by
        simp only [ServerLoop.step, hpc, hcalled, and_self, if_true, ServerLoop.acceptable]
        rfl
      exact hscan hs rfl
    · have hs : loop.step (.accept (-1)) = some { loop with i := 1, pc := .scan } := by
        simp only [ServerLoop.step, hpc, hcalled, if_false]
      exact hscan hs rfl

theorem poll_returns {loop : ServerLoop} (hpc : loop.pc = .poll) (revents : Nat → Revents) :
    ∃ loop', loop.step (.poll (some revents)) = some loop' := by
  simp only [ServerLoop.step, hpc]
  split
  · exact ⟨_, rfl⟩
  · exact ⟨_, rfl⟩

theorem not_honoured (h : s.Blocks) (hs : s.step (.step .signal) = some s')
    (hdeaf : s.heeds = false) : ¬ s'.Honoured := by
  simp only [heeds, Bool.or_eq_false_iff, decide_eq_false_iff_not] at hdeaf
  obtain ⟨⟨hblocked, htest⟩, hdone⟩ := hdeaf
  have hcaught : s.caught = false := by
    rw [← Bool.not_eq_true]
    exact fun hcaught => by simp [h.2 hcaught] at hblocked
  have hs' : s' = ⟨{ s.loop with interrupt := 0 }, false, false⟩ := by
    cases hs
    simp [hblocked, hcaught]
  subst hs'
  have htest' : ({ s.loop with interrupt := 0 } : ServerLoop).pc ≠ .test := htest
  obtain ⟨as, loop', hr, hpoll⟩ := round_ends htest' hdone
  obtain ⟨loop'', hpolled⟩ := poll_returns hpoll (pollinAt 0)
  have hround : run ServerLoop.step { s.loop with interrupt := 0 }
      (as ++ [.poll (some (pollinAt 0))]) = some loop'' := by
    rw [run_append, hr, Option.bind_some, run, hpolled]
    rfl
  intro hh
  refine hh.no_round _ _ (loop_run hround) (pollinAt 0) ?_
  rw [List.flatMap_append]
  simp [polledSteps]

theorem signal_leaving (h : s.Blocks) (hs : s.step (.step .signal) = some s')
    (hheeds : s.heeds = true) : s'.Leaving := by
  simp only [heeds, Bool.or_eq_true, decide_eq_true_eq] at hheeds
  cases hs
  refine ⟨rfl, ?_⟩
  cases hblocked : s.blocked with
  | true => exact .inl ⟨h.1 hblocked, rfl, by simp⟩
  | false =>
    rw [hblocked] at hheeds
    exact .inr ⟨by simpa using hheeds, rfl⟩

theorem honoured_iff (h : s.Blocks) (hs : s.step (.step .signal) = some s') :
    s'.Honoured ↔ s.heeds = true := by
  constructor
  · intro hh
    by_contra hdeaf
    exact not_honoured h hs (Bool.not_eq_true _ ▸ hdeaf) hh
  · exact fun hheeds => (signal_leaving h hs hheeds).honoured

theorem step_interrupt {loop loop' : ServerLoop} (hs : loop.step a = some loop')
    (ha : a ≠ .signal) : loop'.interrupt = loop.interrupt := by
  cases ServerLoop.step_cases hs with
  | signal => exact absurd rfl ha
  | accept =>
    simp only [ServerLoop.accepted]
    split <;> rfl
  | @serve outcome beyond =>
    cases outcome with
    | unreadable closed => cases closed <;> rfl
    | bad | rejected | answered | unanswered => rfl
  | again | leave | failed | ready | quiet | noAccept | noServe | scanned | hup | noHup => rfl

/-- As long as no signal has been missed, a cleared flag means that the loop is
about to be left. -/
theorem heeded_step (h : s.Blocks ∧ (s.loop.interrupt = 0 → s.Leaving))
    (ha : a.isSignal = true → s.heeds = true) (hs : s.step a = some s') :
    s'.Blocks ∧ (s'.loop.interrupt = 0 → s'.Leaving) := by
  obtain ⟨hb, hleaving⟩ := h
  refine ⟨blocks_step hb hs, fun hint => ?_⟩
  by_cases hsignal : a = .step .signal
  · subst hsignal
    exact signal_leaving hb hs (ha rfl)
  · have hsame : s'.loop.interrupt = s.loop.interrupt := by
      cases a with
      | enter =>
        simp only [step] at hs
        split at hs
        · cases hs
          rfl
        · cases hs
      | step a => exact step_interrupt (step_loop hs) fun ha => hsignal (congrArg _ ha)
    exact (leaving_step (hleaving (hsame ▸ hint)) hs).1

theorem start_blocks (listening_socket : Int) : (start listening_socket).Blocks :=
  ⟨by simp [start], by simp [start]⟩

end PolledLoop

/-- In every run, a signal is honoured exactly if it comes while the process is
blocked in `poll`, at the test of the flag, or when the loop has been left; and
if all signals of a run do, the loop goes on in no state with a cleared flag. -/
theorem interrupt_honoured_iff {s : PolledLoop}
    (hr : run PolledLoop.step (.start listening_socket) as = some s) :
    (∀ s', s.step (.step .signal) = some s' → (s'.Honoured ↔ s.heeds = true)) ∧
      (Along PolledLoop.step (fun s a => a.isSignal = true → s.heeds = true)
          (.start listening_socket) as →
        Throughout PolledLoop.step (fun s => s.loop.interrupt = 0 → s.Honoured)
          (.start listening_socket) as) := by
  have hkeeps : ∀ (s : PolledLoop) (a : PolledStep) (s' : PolledLoop), s.Blocks → True →
      s.step a = some s' → s'.Blocks := fun s a s' h _ hs => PolledLoop.blocks_step h hs
  have hstart := PolledLoop.start_blocks listening_socket
  constructor
  · intro s' hs
    have hblocks := run_keeps hkeeps hstart (along_of_forall fun _ _ _ => trivial) hr
    exact PolledLoop.honoured_iff hblocks hs
  · intro ha
    refine throughout_of_keeps (fun s a s' h ha hs => PolledLoop.heeded_step h ha hs)
      (fun s h hint => (h.2 hint).honoured) ⟨hstart, ?_⟩ ha
    intro hint
    cases hint

theorem interrupt_honoured_iff_two :
    Throughout PolledLoop.step (fun s => s.loop.interrupt = 0 → s.Honoured) (.start 3)
      [.step .test, .enter, .step .signal, .step (.poll none), .step .signal, .step .test] :=
  (interrupt_honoured_iff rfl).2 (by decide)

/-- The flag is cleared while a new connection waits for `accept`; `poll` is
called and returns again. -/
theorem interrupt_missed :
    ∃ s, run PolledLoop.step (.start 3)
        [.step .test, .enter, .step (.poll (some (pollinAt 0))), .step .signal] = some s ∧
      s.loop.interrupt = 0 ∧ ¬ s.Honoured := by
  refine ⟨_, rfl, rfl, fun h => ?_⟩
  refine h.no_round [.step (.accept 5), .step (.serve .answered anyFd), .step (.hup anyFd),
    .step (.serve .answered anyFd), .enter, .step (.poll (some (pollinAt 1)))] _ rfl (pollinAt 1) ?_
  simp

end HashMapStorage
