import HashMapStorage.SkelLaws

/-!
# What `verify` answers

`verify` walks the queue up to a NULL link and then asks `op_count`. The walk
is right as long as the last task holds NULL in its link, which nobody writes:
it holds what `malloc` left there.
-/

namespace HashMapStorage

open Machine

theorem verifyLoop_of {tasks : Heap TaskT} (hl : Linked taskShape tasks p xs none)
    (hf : xs.length < fuel) :
    verifyLoop tasks op_n fuel p = .ok (decide (op_n ∈ xs.map Prod.snd)) := by
  induction xs generalizing p fuel with
  | nil =>
    cases hl
    cases fuel with
    | zero => nomatch hf
    | succ fuel => rfl
  | cons x xs ih =>
    obtain ⟨rfl, task, hc, hi, hl⟩ := hl
    cases fuel with
    | zero => nomatch hf
    | succ fuel =>
      have hrest : verifyLoop tasks op_n fuel task.proximo = _ :=
        ih hl (Nat.lt_of_succ_lt_succ hf)
      replace hi : task.opN = x.2 := hi
      rw [verifyLoop, Heap.load_some hc, ok_bind, hi]
      by_cases heq : x.2 = op_n
      · simp [heq]
      · have hne : ¬ op_n = x.2 := fun e => heq e.symm
        rw [if_neg heq, hrest]
        simp [hne]

namespace Skel

variable {s s' : Skel}

/-- `k` tasks have been popped, the first ones, and executed in order, the last
one perhaps not yet; the tasks met in the queue are the next ones. -/
structure Tracked (s : Skel) (k : Nat) (xs : List (Nat × Int)) : Prop where
  leads : s.queue.Leads s.tasks xs
  numbers : xs.map Prod.snd = (List.range' k xs.length).map Int.ofNat
  popped : s.opCount + s.worker.pending = k
  worker :
    match s.worker with
    | .execute a => a ∉ addrs xs ∧
        ∃ task, s.tasks.cell a = some task ∧ s.executed ++ [task.opN] = numbersBelow k
    | .finish a => a ∉ addrs xs ∧ s.executed = numbersBelow k
    | _ => s.executed = numbersBelow k

def freshNull (s : Skel) : SkelStep → Bool
  | .enqueue m => (m.junk s.tasks).proximo = none
  | _ => true

theorem Tracked.frame (h : s.Tracked k xs) (hq : s'.queue = s.queue) (ht : s'.tasks = s.tasks)
    (ho : s'.opCount = s.opCount) (he : s'.executed = s.executed) (hw : s'.worker = s.worker) :
    s'.Tracked k xs := by
  obtain ⟨hleads, hnumbers, hpopped, hworker⟩ := h
  refine ⟨?_, hnumbers, ?_, ?_⟩
  · rw [hq, ht]
    exact hleads
  · rw [ho, hw]
    exact hpopped
  · rw [hw, he, ht]
    exact hworker

theorem Tracked.of_free (hleads : s.queue.Leads s.tasks xs)
    (hnumbers : xs.map Prod.snd = (List.range' k xs.length).map Int.ofNat)
    (hpopped : s.opCount = k) (hexecuted : s.executed = numbersBelow k)
    (hw : s.worker.critical = false) : s.Tracked k xs := by
  refine ⟨hleads, hnumbers, ?_, ?_⟩
  all_goals cases hpc : s.worker <;> rw [hpc] at hw
  all_goals first
    | exact hexecuted
    | exact (Int.add_zero _).trans hpopped
    | nomatch hw

theorem idle_pending {pc : WorkerPc} (h : pc.critical = false) : pc.pending = 0 := by
  cases pc <;> first | rfl | nomatch h

theorem Tracked.free (h : s.Tracked k xs) (hc : s.worker.pending = 0) :
    s.executed = numbersBelow k := by
  have hworker := h.worker
  cases hpc : s.worker <;> rw [hpc] at hc hworker <;> first | exact hworker | nomatch hc

theorem Tracked.enqueue {m : Malloc TaskT} {tasks : Heap TaskT} {queue : Fifo}
    (h : s.Tracked k xs) (hcount : s.Counted) (hpending : s.worker.pending = 0)
    (ha : s.freshNull (.enqueue m) = true)
    (hadd : fifoAdd (s.tasks.set (m.addr s.tasks)
        (some (newTask (m.junk s.tasks) s.lastAssigned put msg))) s.queue
        (some (m.addr s.tasks)) = .ok (tasks, queue)) :
    ∃ ys, queue.Leads tasks ys ∧ ys.map Prod.snd = (List.range' k ys.length).map Int.ofNat := by
  obtain ⟨hleads, hnumbers, hpopped, -⟩ := h
  have hqueued := hcount.queued
  rw [hpending, Int.add_zero] at hpopped hqueued
  have hout := hleads.chain.not_mem_of_free (m.fresh s.tasks)
  have hnull : (newTask (m.junk s.tasks) s.lastAssigned put msg).proximo = none := by
    simpa [freshNull] using ha
  have hadded := fifoAdd_leads (hleads.set_frame hout _) (Heap.set_cell ..) hout hnull hadd
  rcases hadded with ⟨hsize, hleads'⟩ | ⟨hleads', -⟩
  · refine ⟨_, hleads', ?_⟩
    have hnext : s.lastAssigned = ((k + xs.length : Nat) : Int) := by
      push_cast
      omega
    rw [List.map_append, hnumbers, List.length_append, List.length_singleton, List.range'_concat,
      List.map_append, newTask_opN, hnext]
    simp
  · exact ⟨xs, hleads', hnumbers⟩

theorem Tracked.pop {queue : Fifo} (h : s.Tracked k xs) (hpc : s.worker = .pop)
    (hpos : 0 < s.queue.size)
    (hpop : HashMapStorage.pop s.tasks s.queue = .ok (some a, queue)) :
    ∃ ys, Tracked { s with queue, worker := .execute a } (k + 1) ys := by
  obtain ⟨hleads, hnumbers, hpopped, hworker⟩ := h
  rw [hpc] at hpopped hworker
  obtain ⟨a, task, ys, rfl, ha, hcell, hout, hleads'⟩ := pop_leads hleads hpos hpop
  cases ha
  simp only [List.map_cons, List.length_cons, List.range'_succ, List.cons.injEq] at hnumbers
  refine ⟨ys, hleads', hnumbers.2, ?_, hout, task, hcell, ?_⟩
  · simp only [WorkerPc.pending] at hpopped ⊢
    push_cast
    omega
  · rw [numbersBelow_succ, ← show s.executed = numbersBelow k from hworker, hnumbers.1]
    rfl

theorem Tracked.step (h : s.Tracked k xs) (hlocked : s.Locked) (hcount : s.Counted)
    (ha : s.freshNull a = true) (hc : Change s a s') :
    s'.main = .done ∨ ∃ k xs, s'.Tracked k xs := by
  cases hc with
  | deleteQueue => exact .inl rfl
  | outside | invoke | lock | unlock | getKeys | copyKeys | destroy | clearFlag | join =>
    exact .inr ⟨k, xs, h.frame rfl rfl rfl rfl rfl⟩
  | signal | stopSignal =>
    obtain ⟨hleads, hnumbers, hpopped, hworker⟩ := h
    refine .inr ⟨k, xs, hleads, hnumbers, ?_, ?_⟩
    · rw [signalled_pending]
      exact hpopped
    · cases hw : s.worker <;> rw [hw] at hworker <;> exact hworker
  | enqueue p put m msg tasks queue hpc hmsg hadd =>
    have hidle := hlocked.mainBusy (by rw [hpc]; rfl)
    have hpending := idle_pending hidle
    obtain ⟨ys, hleads, hnumbers⟩ := h.enqueue hcount hpending ha hadd
    have hpopped := h.popped
    rw [hpending, Int.add_zero] at hpopped
    exact .inr ⟨k, ys, .of_free hleads hnumbers hpopped (h.free hpending) hidle⟩
  | pop queue hpc hpos hpop =>
    obtain ⟨ys, h'⟩ := h.pop hpc hpos hpop
    exact .inr ⟨k + 1, ys, h'⟩
  | execute hpc hcell =>
    obtain ⟨hleads, hnumbers, hpopped, hworker⟩ := h
    rw [hpc] at hpopped hworker
    obtain ⟨hout, task, hcell', hexecuted⟩ := hworker
    rw [hcell] at hcell'
    cases hcell'
    exact .inr ⟨k, xs, hleads, hnumbers, hpopped, hout, hexecuted⟩
  | finish hpc hcell =>
    obtain ⟨hleads, hnumbers, hpopped, hworker⟩ := h
    rw [hpc] at hpopped hworker
    refine .inr ⟨k, xs, hleads.set_frame hworker.1 none, hnumbers, ?_, hworker.2⟩
    simp only [WorkerPc.pending] at hpopped ⊢
    omega
  | enter hpc | exit hpc | acquire hpc | wait hpc | look hpc | wake hpc | reacquire hpc | skip hpc
  | leave hpc | send _ _ hpc =>
    obtain ⟨hleads, hnumbers, hpopped, hworker⟩ := h
    rw [hpc] at hpopped hworker
    exact .inr ⟨k, xs, hleads, hnumbers, hpopped, hworker⟩

theorem done_step (hc : Change s a s') (hm : s.main = .done) : s'.main = .done := by
  cases hc <;> first | exact hm | simp_all

theorem tracks_step (s : Skel) (a : SkelStep) (s' : Skel)
    (h : s.Sound ∧ (s.main = .done ∨ ∃ k xs, s.Tracked k xs)) (ha : s.freshNull a = true)
    (hs : s.step a = some s') : s'.Sound ∧ (s'.main = .done ∨ ∃ k xs, s'.Tracked k xs) := by
  have hc := step_change hs
  obtain ⟨hsound, hdone | ⟨k, xs, htracked⟩⟩ := h
  · exact ⟨hsound.step hs, .inl (done_step hc hdone)⟩
  · exact ⟨hsound.step hs, htracked.step hsound.locked hsound.counted ha hc⟩

theorem Tracked.verify (h : s.Tracked k xs) (hw : s.worker.pending = 0) (op_n : Int) :
    s.verify op_n = .ok (if op_n ∈ s.executed then 0 else -1) := by
  have hfuel : xs.length < s.tasks.top + 1 := Nat.lt_succ_of_le h.leads.chain.length_le_top
  have hmem : op_n ∈ s.executed ↔ 0 ≤ op_n ∧ op_n < k := by
    rw [h.free hw, mem_numbersBelow]
  have hcount : s.opCount = k := by simpa [hw] using h.popped
  rw [Skel.verify, verifyLoop_of h.leads.chain hfuel, ok_bind]
  by_cases hfound : op_n ∈ xs.map Prod.snd
  · have hnext : (k : Int) ≤ op_n := by
      rw [h.numbers] at hfound
      obtain ⟨i, hi, rfl⟩ := List.mem_map.mp hfound
      exact Int.ofNat_le.mpr (List.mem_range'_1.mp hi).1
    have hnot : op_n ∉ s.executed := fun hin => by
      have := (hmem.mp hin).2
      omega
    simp only [hfound, decide_true, ↓reduceIte, pure_eq_ok, hnot]
  · simp only [hfound, decide_false, Bool.false_eq_true, ↓reduceIte, hcount]
    by_cases hrange : 0 ≤ op_n ∧ op_n < k
    · rw [if_neg (by omega), if_pos (hmem.mpr hrange)]
      rfl
    · rw [if_pos (by omega), if_neg (fun hin => hrange (hmem.mp hin))]
      rfl

end Skel

theorem init_tracked (hi : tableSkelInit n_lists messages mem = some s) : s.Tracked 0 [] := by
  unfold tableSkelInit at hi
  split at hi
  · cases hi
  · cases hi
    exact ⟨fifoCreate_leads, rfl, rfl, rfl⟩

/-- In every run in which each fresh task holds NULL in its link, `verify`
answers 0 exactly for the numbers of the executed writes, and -1 otherwise. -/
theorem verify_exact {s : Skel} (hi : tableSkelInit n_lists messages mem = some s₀)
    (ha : Along Skel.step (fun s a => s.freshNull a = true) s₀ as)
    (hr : run Skel.step s₀ as = some s) (hlock : s.queueLock = none) (hmain : s.main ≠ .done)
    (op_n : Int) : s.verify op_n = .ok (if op_n ∈ s.executed then 0 else -1) := by
  obtain ⟨hsound, hdone | ⟨k, xs, htracked⟩⟩ := run_keeps Skel.tracks_step
    ⟨init_sound hi, Or.inr ⟨0, [], init_tracked hi⟩⟩ ha hr
  · exact absurd hdone hmain
  · exact htracked.verify (hsound.locked.idle hlock) op_n

def workerRound : List SkelStep :=
  [.test, .acquire, .look, .pop, .execute nextMem noTable, .finish, .leave]

def nullTask : TaskT := ⟨0, 0, none, none, none, 0⟩

theorem verify_exact_two : ∃ s,
    run Skel.step oneList (putCall nullTask ++ workerRound ++ putCall nullTask) = some s ∧
      s.executed = [0] ∧ s.verify 0 = .ok 0 ∧ s.verify 1 = .ok (-1) := by
  have ha : Along Skel.step (fun s a => s.freshNull a = true) oneList
      (putCall nullTask ++ workerRound ++ putCall nullTask) := by decide
  have hr : run Skel.step oneList (putCall nullTask ++ workerRound ++ putCall nullTask) = some _ :=
    rfl
  exact ⟨_, hr, rfl, verify_exact init_oneList ha hr rfl (by decide) 0,
    verify_exact init_oneList ha hr rfl (by decide) 1⟩

/-- The one task queued links to a block that is not there, or to itself. -/
theorem verify_not_exact :
    (∃ s, run Skel.step oneList (putCall { nullTask with proximo := some 9 }) = some s ∧
      s.queueLock = none ∧ s.verify 1 = .error .dangling) ∧
    ∃ s, run Skel.step oneList (putCall { nullTask with proximo := some 0 }) = some s ∧
      s.queueLock = none ∧ s.verify 1 = .error .diverges :=
  ⟨⟨_, rfl, rfl, rfl⟩, _, rfl, rfl, rfl⟩

end HashMapStorage
