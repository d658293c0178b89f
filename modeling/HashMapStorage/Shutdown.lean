import HashMapStorage.SkelLaws

/-!
# Shutting the server down (`table_skel_destroy`)

The signal is sent without `queue_lock`. It is lost on a worker that has
already tested the flag and has not got to the wait yet; with an empty queue
that worker waits for ever, and the main thread for the worker.
-/

namespace HashMapStorage

open Machine

namespace Skel

variable {s s' : Skel}

/-- `pthread_join` waits for a worker in `pthread_cond_wait`, and nobody is
left to signal. -/
structure Deadlocked (s : Skel) : Prop where
  main : s.main = .join
  worker : s.worker = .waiting

instance (s : Skel) : Decidable s.Deadlocked :=
  decidable_of_iff (s.main = .join ∧ s.worker = .waiting)
    ⟨fun ⟨hm, hw⟩ => ⟨hm, hw⟩, fun ⟨hm, hw⟩ => ⟨hm, hw⟩⟩

/-- The worker is between its test of the flag and the wait, and will wait. -/
def bound (s : Skel) : Bool := (s.worker = .acquire || s.worker = .look) && s.queue.size = 0

/-- `table_skel_destroy` does not signal while the worker is on its way to the
wait. -/
def heard (s : Skel) : SkelStep → Bool
  | .stopSignal => !s.bound
  | _ => true

structure Stopping (s : Skel) : Prop where
  flag : s.main.stopping = true → s.flag = 0
  awake : s.main = .join → s.worker ≠ .waiting ∧ s.bound = false

theorem dispatched_stopping (h : dispatched put pc) : pc.stopping = false := by
  cases pc <;> first | rfl | exact h.elim

theorem Stopping.worker (h : s.Stopping) (hmain : s'.main = s.main) (hflag : s'.flag = s.flag)
    (hworker : s.main = .join → s'.worker ≠ .waiting ∧ s'.bound = false) : s'.Stopping := by
  refine ⟨fun hs => ?_, fun hj => ?_⟩
  · rw [hmain] at hs
    rw [hflag]
    exact h.flag hs
  · rw [hmain] at hj
    exact hworker hj

theorem Stopping.step (h : s.Stopping) (ha : s.heard a = true) (hc : Change s a s') :
    s'.Stopping := by
  cases hc with
  | outside | lock | enqueue | signal | unlock | getKeys | copyKeys | destroy =>
    exact ⟨nofun, nofun⟩
  | invoke messages messageServer mem request pc hpc hd =>
    have hnot := dispatched_stopping hd
    refine ⟨fun hs => ?_, ?_⟩
    · rw [show pc.stopping = true from hs] at hnot
      nomatch hnot
    · rintro rfl
      nomatch hnot
  | clearFlag hpc => exact ⟨fun _ => rfl, nofun⟩
  | stopSignal hpc =>
    refine ⟨fun _ => h.flag (by rw [hpc]; rfl), fun _ => ?_⟩
    have hbound : s.bound = false := by simpa [heard] using ha
    cases hw : s.worker <;> simp [bound, signalled, hw] at hbound ⊢
    all_goals exact hbound
  | join hpc hdone | deleteQueue _ _ hpc =>
    exact ⟨fun _ => h.flag (by rw [hpc]; rfl), nofun⟩
  | enter hpc hflag =>
    refine h.worker rfl rfl fun hj => ?_
    exact absurd (h.flag (by rw [hj]; rfl)) hflag
  | wait hpc hzero =>
    refine h.worker rfl rfl fun hj => ?_
    have hbound := (h.awake hj).2
    simp [bound, hpc, hzero] at hbound
  | acquire hpc hlock =>
    refine h.worker rfl rfl fun hj => ⟨nofun, ?_⟩
    have hbound := (h.awake hj).2
    simpa [bound, hpc] using hbound
  | exit | look | wake | reacquire | pop | skip | execute | finish | leave | send =>
    exact h.worker rfl rfl fun _ => ⟨nofun, rfl⟩

end Skel

theorem init_stopping (hi : tableSkelInit n_lists messages mem = some s) : s.Stopping := by
  unfold tableSkelInit at hi
  split at hi
  · cases hi
  · cases hi
    exact ⟨nofun, nofun⟩

/-- In every run in which `table_skel_destroy` does not signal while the worker
is on its way to the wait, the two threads do not wait for each other. -/
theorem destroy_joins {s : Skel} (hi : tableSkelInit n_lists messages mem = some s₀)
    (ha : Along Skel.step (fun s a => s.heard a = true) s₀ as)
    (hr : run Skel.step s₀ as = some s) : ¬ s.Deadlocked := by
  have h : s.Stopping :=
    run_keeps (fun _ _ _ h ha hs => h.step ha (Skel.step_change hs)) (init_stopping hi) ha hr
  rintro ⟨hmain, hworker⟩
  exact (h.awake hmain).1 hworker

theorem destroy_joins_waiting :
    ∃ s, run Skel.step oneList [.test, .acquire, .look, .destroy, .clearFlag, .stopSignal] =
        some s ∧
      s.main = .join ∧ ¬ s.Deadlocked := by
  have ha : Along Skel.step (fun s a => s.heard a = true) oneList
      [.test, .acquire, .look, .destroy, .clearFlag, .stopSignal] := by decide
  exact ⟨_, rfl, rfl, destroy_joins init_oneList ha rfl⟩

/-- The worker tests the flag before it is cleared, and gets to the wait when
the signal is gone. -/
theorem destroy_deadlocks : ∃ s, run Skel.step oneList
    [.test, .destroy, .clearFlag, .stopSignal, .acquire, .look] = some s ∧ s.Deadlocked :=
  ⟨_, rfl, rfl, rfl⟩

/-- Wherever the signal is lost on the worker, the two threads can come to wait
for each other. -/
theorem unheard_deadlocks {s : Skel} (hi : tableSkelInit n_lists messages mem = some s₀)
    (hr : run Skel.step s₀ as = some s) (hpc : s.main = .stopSignal) (hb : s.bound = true) :
    ∃ bs s', run Skel.step s₀ (as ++ bs) = some s' ∧ s'.Deadlocked := by
  have hlocked := (run_sound hi hr).locked
  simp only [Skel.bound, Bool.and_eq_true, Bool.or_eq_true, decide_eq_true_eq] at hb
  obtain ⟨hworker | hworker, hzero⟩ := hb
  · have hfree : s.queueLock = none := by
      obtain ⟨hmain, hwork⟩ := hlocked
      rw [hpc] at hmain
      rw [hworker] at hwork
      cases hlock : s.queueLock with
      | none => rfl
      | some thread =>
        cases thread with
        | main => nomatch hmain.mpr hlock
        | worker => nomatch hwork.mpr hlock
    refine ⟨[.stopSignal, .acquire, .look],
      { s with queueLock := none, worker := .waiting, main := .join }, ?_, rfl, rfl⟩
    rw [run_append, hr]
    simp [run, Skel.step, Skel.mainStep, Skel.workerStep, Skel.signalled, hpc, hworker, hfree,
      hzero]
  · refine ⟨[.stopSignal, .look], { s with queueLock := none, worker := .waiting, main := .join },
      ?_, rfl, rfl⟩
    rw [run_append, hr]
    simp [run, Skel.step, Skel.mainStep, Skel.workerStep, Skel.signalled, hpc, hworker, hzero]

end HashMapStorage
