import HashMapStorage.FifoRuns
import HashMapStorage.Verify
import HashMapStorage.Wakeup

/-!
# Every accepted write is executed

The worker empties the queue whatever the main thread does meanwhile, as long as
`fifo_add` links each task behind the last one: with a task in the queue each of
its steps is one further on the way to execute it.
-/

namespace HashMapStorage

open Machine

theorem Fifo.Leads.unique (hx : Fifo.Leads tasks fifo xs) (hy : fifo.Leads tasks ys) : xs = ys :=
  hx.chain.unique hy.chain

namespace Skel

variable {s s' : Skel}

/-- `fifo_add` gets a task that holds NULL in its link, and a queue whose tail
pointer is NULL or the last task. -/
def linksLast (s : Skel) : SkelStep → Bool
  | .enqueue m => s.freshNull (.enqueue m) &&
      !staleTail taskShape s.tasks s.queue.head s.queue.tail
  | _ => true

theorem linksLast_fresh (ha : s.linksLast a = true) : s.freshNull a = true := by
  cases a with
  | enqueue m =>
    simp only [linksLast, Bool.and_eq_true] at ha
    exact ha.1
  | _ => rfl

def Met (s : Skel) : Prop := ∀ xs, s.queue.Leads s.tasks xs → s.queue.size = xs.length

theorem Met.enqueue {m : Malloc TaskT} {tasks : Heap TaskT} {queue : Fifo} (h : s.Met)
    (hleads : s.queue.Leads s.tasks xs) (ha : s.linksLast (.enqueue m) = true)
    (hadd : fifoAdd (s.tasks.set (m.addr s.tasks)
        (some (newTask (m.junk s.tasks) s.lastAssigned put msg))) s.queue
        (some (m.addr s.tasks)) = .ok (tasks, queue)) (hleads' : queue.Leads tasks ys) :
    queue.size = ys.length := by
  have hsize := h xs hleads
  simp only [linksLast, freshNull, Bool.and_eq_true, decide_eq_true_eq, Bool.not_eq_true'] at ha
  obtain ⟨hnull, hstale⟩ := ha
  have hlink : (newTask (m.junk s.tasks) s.lastAssigned put msg).proximo = none := by
    rw [newTask_proximo, hnull]
  have hout := hleads.chain.not_mem_of_free (m.fresh s.tasks)
  rw [fifoAdd_size hadd, hsize]
  by_cases hempty : xs = []
  · -- the queue starts anew with this task
    subst hempty
    rw [fifoAdd_first hsize] at hadd
    cases hadd
    have hone : Linked taskShape (s.tasks.set (m.addr s.tasks)
          (some (newTask (m.junk s.tasks) s.lastAssigned put msg))) (some (m.addr s.tasks))
        [(m.addr s.tasks, s.lastAssigned)] none :=
      ⟨rfl, _, Heap.set_cell .., newTask_opN .., hlink⟩
    rw [hleads'.chain.unique hone]
    rfl
  · rcases fifoAdd_leads (hleads.set_frame hout _) (Heap.set_cell ..) hout hlink hadd with
      ⟨-, hbehind⟩ | ⟨-, b, htail, hlost⟩
    · rw [hleads'.unique hbehind, List.length_append, List.length_singleton]
      rfl
    · -- an old tail pointer
      rcases hleads.chain.staleTail_eq_false.mp hstale with hnil | hnone | hlast
      · exact absurd hnil hempty
      · rw [htail] at hnone
        cases hnone
      · rw [htail] at hlast
        exact absurd (List.mem_of_getLast? hlast.symm) hlost

theorem Met.step (h : s.Met) (ht : s.Tracked k xs) (ha : s.linksLast a = true)
    (hc : Change s a s') (hdone : s'.main ≠ .done) : s'.Met := by
  have hsize := h xs ht.leads
  cases hc with
  | deleteQueue => exact absurd rfl hdone
  | enqueue p put m msg tasks queue hpc hmsg hadd =>
    exact fun ys hy => h.enqueue ht.leads ha hadd hy
  | pop queue hpc hpos hpop =>
    intro ys hy
    obtain ⟨b, task, zs, rfl, -, -, -, hleads⟩ := pop_leads ht.leads hpos hpop
    obtain ⟨c, t, -, -, -, rfl⟩ := pop_ok hpos hpop
    rw [hy.unique hleads]
    simp only [List.length_cons] at hsize
    dsimp only
    omega
  | finish hpc hcell =>
    intro ys hy
    have hworker := ht.worker
    rw [hpc] at hworker
    rw [hy.unique (ht.leads.set_frame hworker.1 none)]
    exact hsize
  | _ => exact h

/-- Before `table_skel_destroy` clears the flag; the queue links what it counts. -/
structure Draining (s : Skel) : Prop where
  sound : s.Sound
  tracked : ∃ k xs, s.Tracked k xs
  met : s.Met
  running : s.main.stopping = false
  numbers : IsInt s.lastAssigned
  popped : s.worker = .finish a → (s.tasks.cell a).isSome

def remaining (s : Skel) : Nat := s.accepted.length - s.executed.length

def held : WorkerPc → Nat
  | .execute _ => 1
  | _ => 0

def distance : WorkerPc → Nat
  | .execute _ => 0
  | .pop => 1
  | .woken | .look => 2
  | .waiting | .acquire => 3
  | .test => 4
  | .leave => 5
  | .finish _ => 6
  | .send | .done => 0

/-- Steps of the worker until nothing remains. -/
def toGo (s : Skel) : Nat := 7 * s.remaining + distance s.worker

theorem distance_signalled (pc : WorkerPc) : distance (signalled pc) ≤ distance pc := by
  cases pc <;> simp [distance, signalled]

theorem Tracked.remaining (h : s.Tracked k xs) (hcount : s.Counted) :
    s.remaining = s.queue.size.toNat + held s.worker := by
  obtain ⟨hlast, -, hqueued, hsize⟩ := hcount
  have hpopped := h.popped
  have hworker := h.worker
  rw [Skel.remaining]
  cases hpc : s.worker <;> rw [hpc] at hworker hpopped hqueued
  all_goals simp only [WorkerPc.pending, held] at hworker hpopped hqueued ⊢
  case execute a =>
    obtain ⟨-, task, -, hexecuted⟩ := hworker
    have hlen := (concat_numbersBelow hexecuted).2.2
    omega
  case finish a =>
    rw [hworker.2, numbersBelow_length]
    omega
  all_goals
    rw [hworker, numbersBelow_length]
    omega

end Skel

def SkelStep.ofWorker : SkelStep → Bool
  | .test | .acquire | .look | .wake | .reacquire | .pop | .execute _ _ | .finish | .leave
  | .send _ _ => true
  | _ => false

def SkelStep.clears : SkelStep → Bool
  | .clearFlag => true
  | _ => false

/-- Nothing is accepted and the flag is not cleared. -/
def SkelStep.quiet : SkelStep → Bool
  | .enqueue _ | .clearFlag => false
  | _ => true

namespace Skel

variable {s s' : Skel}

theorem signalled_finish (h : signalled pc = .finish a) : pc = .finish a := by
  cases pc <;> first | exact h | cases h

theorem enqueue_isInt {m : Malloc TaskT} (hs : s.step (.enqueue m) = some s') :
    IsInt s'.lastAssigned := by
  simp only [step, mainStep, workerStep, Option.or_none] at hs
  split at hs
  · obtain ⟨msg, -, hs⟩ := seq_ok (toOption_some.mp hs)
    obtain ⟨⟨tasks, queue⟩, -, hs⟩ := seq_ok hs
    obtain ⟨lastAssigned, hlast, hs⟩ := seq_ok hs
    cases hs
    obtain ⟨hint, rfl⟩ := checkInt_ok hlast
    exact hint
  · cases hs

theorem Draining.step (h : s.Draining) (ha : s.linksLast a = true) (hc : a.clears = false)
    (hs : s.step a = some s') : s'.Draining := by
  have hchange := step_change hs
  obtain ⟨hsound, ⟨k, xs, htracked⟩, hmet, hrunning, hnumbers, hpopped⟩ := h
  have hnumbers' : IsInt s'.lastAssigned := by
    cases hchange with
    | enqueue => exact enqueue_isInt hs
    | _ => exact hnumbers
  have hpopped' : ∀ {b}, s'.worker = .finish b → (s'.tasks.cell b).isSome := by
    intro b hb
    cases hchange with
    | enqueue p put m msg tasks queue hpc =>
      have hidle := hsound.locked.mainBusy (by rw [hpc]; rfl)
      rw [show s.worker = .finish b from hb] at hidle
      cases hidle
    | deleteQueue _ _ hpc =>
      rw [hpc] at hrunning
      cases hrunning
    | execute hpc hcell =>
      cases hb
      rw [hcell]
      rfl
    | signal | stopSignal => exact hpopped (signalled_finish hb)
    | enter | exit | acquire | wait | look | wake | reacquire | pop | skip | finish | leave
    | send => cases hb
    | _ => exact hpopped hb
  have hrunning' : s'.main.stopping = false := by
    cases hchange with
    | clearFlag => cases hc
    | stopSignal hpc | join hpc | deleteQueue _ _ hpc =>
      rw [hpc] at hrunning
      cases hrunning
    | invoke _ _ _ _ pc _ hd => cases pc <;> first | rfl | exact hd.elim
    | outside | lock | enqueue | signal | unlock | getKeys | copyKeys | destroy => rfl
    | _ => exact hrunning
  have hdone : s'.main ≠ .done := by
    intro he
    rw [he] at hrunning'
    cases hrunning'
  have htracked' := (htracked.step hsound.locked hsound.counted (linksLast_fresh ha)
    hchange).resolve_left hdone
  exact ⟨hsound.step hs, htracked', hmet.step htracked ha hchange hdone, hrunning',
    hnumbers', hpopped'⟩

theorem Draining.remaining_zero (h : s.Draining) (hsize : s.queue.size = 0)
    (hheld : held s.worker = 0) : s.remaining = 0 := by
  obtain ⟨k, xs, htracked⟩ := h.tracked
  rw [htracked.remaining h.sound.counted, hsize, hheld]
  rfl

theorem Draining.executed_all (h : s.Draining) (hzero : s.remaining = 0) :
    s.executed = s.accepted := by
  obtain ⟨k, xs, htracked⟩ := h.tracked
  obtain ⟨hlast, hnumbers, hqueued, hsize⟩ := h.sound.counted
  have hheld := htracked.remaining h.sound.counted
  have hidle : held s.worker = 0 := by omega
  have hpopped := htracked.popped
  have hexecuted : s.executed = numbersBelow k := by
    have hworker := htracked.worker
    cases hpc : s.worker <;> rw [hpc] at hworker hidle
    case execute => cases hidle
    case finish => exact hworker.2
    all_goals exact hworker
  rw [hnumbers, hexecuted]
  congr 1
  omega

/-- Each step of the worker is one further on the way to the next write. -/
theorem Draining.lowers (h : s.Draining) (ha : a.quiet = true) (hc : Change s a s') :
    (s.remaining = 0 → s'.remaining = 0) ∧ (s'.remaining = 0 ∨
      s'.toGo + (if a.ofWorker then 1 else 0) ≤ s.toGo) := by
  unfold toGo
  cases hc with
  | enqueue => cases ha
  | clearFlag => cases ha
  | outside | invoke | lock | unlock | getKeys | copyKeys | destroy | join | deleteQueue =>
    exact ⟨id, .inr (Nat.le_refl _)⟩
  | signal | stopSignal =>
    have hle := distance_signalled s.worker
    exact ⟨id, .inr (Nat.add_le_add_left hle _)⟩
  | exit hpc hflag => exact absurd hflag (h.sound.stoppable h.running).1
  | send _ _ hpc =>
    have hworker := (h.sound.stoppable h.running).2
    rw [hpc] at hworker
    cases hworker
  | wait hpc hzero =>
    have hnone : s.remaining = 0 := h.remaining_zero hzero (by rw [hpc]; rfl)
    exact ⟨id, .inl hnone⟩
  | skip hpc hskip =>
    have hzero : s.queue.size = 0 := by
      obtain ⟨k, xs, htracked⟩ := h.tracked
      have hsize := h.met xs htracked.leads
      by_contra hne
      refine hskip ⟨by omega, fun hhead => ?_⟩
      have hchain := htracked.leads.chain
      rw [hhead] at hchain
      rw [hchain.unique (show Linked taskShape s.tasks none [] none from rfl)] at hsize
      exact hne hsize
    have hnone : s.remaining = 0 := h.remaining_zero hzero (by rw [hpc]; rfl)
    exact ⟨id, .inl hnone⟩
  | execute hpc hcell =>
    obtain ⟨k, xs, htracked⟩ := h.tracked
    have hremaining := htracked.remaining h.sound.counted
    rw [hpc] at hremaining ⊢
    simp only [Skel.remaining, List.length_append, List.length_singleton, held, distance,
      SkelStep.ofWorker, if_true] at hremaining ⊢
    omega
  | enter hpc | acquire hpc | look hpc | wake hpc | reacquire hpc | pop _ hpc | finish hpc
  | leave hpc =>
    refine ⟨id, .inr ?_⟩
    rw [hpc]
    exact Nat.le_refl _

theorem Draining.progress (h : s.Draining) (hlock : s.queueLock ≠ some .main)
    (hwait : s.worker ≠ .waiting) :
    ∃ a, a.ofWorker = true ∧ (s.step a).isSome := by
  obtain ⟨k, xs, htracked⟩ := h.tracked
  obtain ⟨hflag, hstopped⟩ := h.sound.stoppable h.running
  obtain ⟨hlast, -, hqueued, hsize⟩ := h.sound.counted
  have hnumbers := h.numbers
  have hfree : s.worker.critical = false → s.queueLock = none := by
    intro hidle
    cases hthread : s.queueLock with
    | none => rfl
    | some thread =>
      cases thread with
      | main => exact absurd hthread hlock
      | worker =>
        rw [h.sound.locked.worker.mpr hthread] at hidle
        cases hidle
  cases hpc : s.worker with
  | test => exact ⟨.test, rfl, by simp [Skel.step, mainStep, workerStep, hpc]⟩
  | acquire =>
    exact ⟨.acquire, rfl, by simp [Skel.step, mainStep, workerStep, hpc, hfree (by rw [hpc]; rfl)]⟩
  | look =>
    refine ⟨.look, rfl, ?_⟩
    by_cases hzero : s.queue.size = 0 <;> simp [Skel.step, mainStep, workerStep, hpc, hzero]
  | waiting => exact absurd hpc hwait
  | woken =>
    refine ⟨.reacquire, rfl, ?_⟩
    simp [Skel.step, mainStep, workerStep, hpc, hfree (by rw [hpc]; rfl)]
  | pop =>
    refine ⟨.pop, rfl, ?_⟩
    by_cases hsome : s.queue.size > 0 ∧ s.queue.head ≠ none
    · obtain ⟨a, hhead⟩ := Option.ne_none_iff_exists'.mp hsome.2
      have hchain := htracked.leads.chain
      obtain ⟨t, hcell⟩ : ∃ t, s.tasks.cell a = some t := by
        cases xs with
        | nil =>
          rw [hhead] at hchain
          cases hchain
        | cons x xs =>
          obtain ⟨hx, t, hcell, -⟩ := hchain
          rw [hhead] at hx
          cases hx
          exact ⟨t, hcell⟩
      have hint : IsInt s.queue.size := by
        simp only [IsInt, intMin, intMax, hpc, WorkerPc.pending] at hnumbers hqueued ⊢
        have hpopped := htracked.popped
        rw [hpc] at hpopped
        simp only [WorkerPc.pending] at hpopped
        omega
      have hpop := pop_some hsome.1 hint hhead hcell
      simp [Skel.step, mainStep, workerStep, hpc, hsome, hpop, Except.toOption]
    · simp [Skel.step, mainStep, workerStep, hpc, hsome]
  | execute a =>
    have hworker := htracked.worker
    rw [hpc] at hworker
    obtain ⟨-, task, hcell, -⟩ := hworker
    exact ⟨.execute nextMem noTable, rfl, by simp [Skel.step, mainStep, workerStep, hpc, hcell]⟩
  | finish a =>
    obtain ⟨task, hcell⟩ := Option.isSome_iff_exists.mp (h.popped hpc)
    have hint : IsInt (s.opCount + 1) := by
      have hpopped := htracked.popped
      rw [hpc] at hpopped hqueued
      simp only [IsInt, intMin, intMax, WorkerPc.pending] at hnumbers hqueued hpopped ⊢
      omega
    refine ⟨.finish, rfl, ?_⟩
    simp [Skel.step, mainStep, workerStep, hpc, checkInt_of_isInt hint, Heap.free_some hcell,
      Except.toOption]
  | leave => exact ⟨.leave, rfl, by simp [Skel.step, mainStep, workerStep, hpc]⟩
  | send | done =>
    rw [hpc] at hstopped
    cases hstopped

end Skel

theorem init_draining (hi : tableSkelInit n_lists messages mem = some s) : s.Draining := by
  have hsound := init_sound hi
  have htracked := init_tracked hi
  unfold tableSkelInit at hi
  split at hi
  · cases hi
  · cases hi
    refine ⟨hsound, ⟨0, [], htracked⟩, fun xs hx => ?_, rfl, (by decide : IsInt 0), nofun⟩
    rw [hx.unique htracked.leads]
    rfl

theorem run_draining {s : Skel} (hi : tableSkelInit n_lists messages mem = some s₀)
    (ha : Along Skel.step (fun s a => s.linksLast a = true ∧ a.clears = false) s₀ as)
    (hr : run Skel.step s₀ as = some s) : s.Draining :=
  run_keeps (fun _ _ _ h ha hs => h.step ha.1 ha.2 hs) (init_draining hi) ha hr

/-- In every run in which each task is linked behind the last one, and however
it goes on without further writes: by the time the worker has taken enough steps
it has executed every write accepted. -/
theorem worker_drains {s s' : Skel} (hi : tableSkelInit n_lists messages mem = some s₀)
    (ha : Along Skel.step (fun s a => s.linksLast a = true ∧ a.clears = false) s₀ as)
    (hr : run Skel.step s₀ as = some s) (hq : ∀ a ∈ bs, a.quiet = true)
    (hr' : run Skel.step s bs = some s') (hn : s.toGo < bs.countP SkelStep.ofWorker) :
    s'.executed = s'.accepted ∧ s'.accepted = s.accepted := by
  have hquiet : Along Skel.step (fun _ a => a.quiet = true) s bs :=
    along_of_forall fun _ a hb => hq a hb
  have hdraining := run_draining hi ha hr
  have hstep : ∀ (t : Skel) (a : SkelStep) (t' : Skel),
      t.Draining ∧ t.accepted = s.accepted → a.quiet = true → t.step a = some t' →
        t'.Draining ∧ t'.accepted = s.accepted := by
    rintro t a t' ⟨ht, haccepted⟩ hqa hs
    refine ⟨ht.step ?_ ?_ hs, ?_⟩
    · cases a <;> first | rfl | cases hqa
    · cases a <;> first | rfl | cases hqa
    · rw [← haccepted]
      cases Skel.step_change hs <;> first | rfl | cases hqa
  obtain ⟨hdraining', haccepted⟩ := run_keeps hstep ⟨hdraining, rfl⟩ hquiet hr'
  have hlower : ∀ (t : Skel) (a : SkelStep) (t' : Skel), t.Draining ∧ t.accepted = s.accepted →
      a.quiet = true → t.step a = some t' → (t'.Draining ∧ t'.accepted = s.accepted) ∧
        (t.remaining = 0 → t'.remaining = 0) ∧
          (t'.remaining = 0 ∨ t'.toGo + (if a.ofWorker then 1 else 0) ≤ t.toGo) :=
    fun t a t' h hqa hs => ⟨hstep t a t' h hqa hs, h.1.lowers hqa (Skel.step_change hs)⟩
  have hzero := run_reaches hlower ⟨hdraining, rfl⟩ hquiet hr' hn
  exact ⟨hdraining'.executed_all hzero, haccepted⟩

def twoQueued : List SkelStep :=
  [.test] ++ putCall nullTask ++ [.acquire, .look] ++ [.pop, .execute nextMem noTable] ++
    [.finish, .leave, .test] ++ putCall nullTask

theorem twoQueued_links :
    Along Skel.step (fun s a => s.linksLast a = true ∧ a.clears = false) oneList twoQueued := by
  decide +kernel

def drainRound : List SkelStep :=
  workerRound.drop 1 ++ [.test, .acquire, .look, .wake, .reacquire]

theorem worker_drains_two : ∃ s s', run Skel.step oneList twoQueued = some s ∧ s.toGo = 10 ∧
    run Skel.step s drainRound = some s' ∧ s'.executed = s'.accepted ∧
      s'.accepted = s.accepted := by
  have hr : run Skel.step oneList twoQueued = some _ := rfl
  have hq : ∀ a ∈ drainRound, a.quiet = true := List.all_eq_true.mp rfl
  exact ⟨_, _, hr, rfl, rfl, worker_drains init_oneList twoQueued_links hr hq rfl (by decide)⟩

/-- While the main thread is outside its critical section, the worker can take a
step, or it waits to be signalled and has executed every write accepted. A return
of `pthread_cond_wait` without a signal is not counted on. -/
theorem worker_progresses {s : Skel} (hi : tableSkelInit n_lists messages mem = some s₀)
    (ha : Along Skel.step (fun s a => s.linksLast a = true ∧ a.clears = false) s₀ as)
    (hr : run Skel.step s₀ as = some s) (hlock : s.queueLock ≠ some .main) :
    (s.worker ≠ .waiting ∧ ∃ a, a.ofWorker = true ∧ (s.step a).isSome) ∨
      (s.worker = .waiting ∧ s.executed = s.accepted) := by
  have hdraining := run_draining hi ha hr
  by_cases hw : s.worker = .waiting
  · have hzero := hdraining.remaining_zero (waiting_empty hi hr hlock hw) (by rw [hw]; rfl)
    exact .inr ⟨hw, hdraining.executed_all hzero⟩
  · exact .inl ⟨hw, hdraining.progress hlock hw⟩

theorem worker_progresses_two : ∃ s, run Skel.step oneList twoQueued = some s ∧
    s.queue.size = 1 ∧ ∃ a, a.ofWorker = true ∧ (s.step a).isSome := by
  have hr : run Skel.step oneList twoQueued = some _ := rfl
  obtain ⟨-, hstep⟩ | ⟨hw, -⟩ := worker_progresses init_oneList twoQueued_links hr (by decide)
  · exact ⟨_, hr, rfl, hstep⟩
  · nomatch hw

end HashMapStorage
