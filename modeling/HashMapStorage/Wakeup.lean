import HashMapStorage.SkelLaws

/-!
# No write sleeps in the queue

The worker starts to wait in the critical section in which it has seen the
queue empty, and `invoke` signals in the critical section in which it fills it.
Between the two only a task of which `invoke` has not signalled yet can be in
the queue of a worker that waits. That the wait is not in a loop, and that it
may end without a signal, does no harm: a wake-up is never missed.
-/

namespace HashMapStorage

open Machine

namespace Skel

variable {s s' : Skel}

def Roused (s : Skel) : Prop :=
  s.worker = .waiting → s.queue.size = 0 ∨ ∃ p, s.main = .signal p

theorem signalled_ne_waiting (pc : WorkerPc) : signalled pc ≠ .waiting := by
  cases pc <;> nofun

theorem Roused.empty (h : s.Roused) (hw : s.worker = .waiting) (hm : ∀ p, s.main ≠ .signal p) :
    s.queue.size = 0 := by
  rcases h hw with hzero | ⟨p, hpc⟩
  · exact hzero
  · exact absurd hpc (hm p)

theorem Roused.step (h : s.Roused) (hc : Change s a s') : s'.Roused := by
  intro hw
  cases hc with
  | enqueue p => exact .inr ⟨p, rfl⟩
  | signal | stopSignal => exact absurd hw (signalled_ne_waiting _)
  | wait hpc hzero => exact .inl hzero
  | outside messages mem hpc | destroy hpc =>
    refine .inl (h.empty hw fun p hp => ?_)
    rcases hpc with hpc | ⟨msg, result, hpc⟩ <;> rw [hp] at hpc <;> nomatch hpc
  | invoke _ _ _ _ _ hpc | lock hpc | unlock hpc | getKeys _ hpc | copyKeys _ _ hpc
  | clearFlag hpc | join hpc | deleteQueue _ _ hpc =>
    refine .inl (h.empty hw fun p hp => ?_)
    rw [hp] at hpc
    nomatch hpc
  | enter | exit | acquire | look | wake | reacquire | pop | skip | execute | finish | leave
  | send => nomatch hw

end Skel

theorem init_roused (hi : tableSkelInit n_lists messages mem = some s) : s.Roused := by
  unfold tableSkelInit at hi
  split at hi
  · cases hi
  · cases hi
    nofun

theorem run_roused {s : Skel} (hi : tableSkelInit n_lists messages mem = some s₀)
    (hr : run Skel.step s₀ as = some s) : s.Roused := by
  have ha : Along Skel.step (fun _ _ => True) s₀ as := along_of_forall fun _ _ _ => trivial
  exact run_keeps (fun _ _ _ h _ hs => h.step (Skel.step_change hs)) (init_roused hi) ha hr

/-- While the main thread does not hold the lock, only an empty queue is waited on. -/
theorem waiting_empty {s : Skel} (hi : tableSkelInit n_lists messages mem = some s₀)
    (hr : run Skel.step s₀ as = some s) (hlock : s.queueLock ≠ some .main)
    (hw : s.worker = .waiting) : s.queue.size = 0 := by
  refine (run_roused hi hr).empty hw fun p hp => ?_
  exact hlock ((run_sound hi hr).locked.main.mp (by rw [hp]; rfl))

/-- In every run: while nobody holds `queue_lock` and a task is in the queue,
the worker is not left waiting. -/
theorem no_write_sleeps {s : Skel} (hi : tableSkelInit n_lists messages mem = some s₀)
    (hr : run Skel.step s₀ as = some s) (hlock : s.queueLock = none) (hqueued : s.queue.size > 0) :
    s.worker ≠ .waiting := by
  intro hw
  have hzero := waiting_empty hi hr (by rw [hlock]; nofun) hw
  omega

theorem no_write_sleeps_put :
    ∃ s, run Skel.step oneList
        ([.test, .acquire, .look] ++ putCall ⟨7, 7, none, none, none, 7⟩) = some s ∧
      s.queueLock = none ∧ s.queue.size = 1 ∧ s.worker ≠ .waiting := by
  have hr : run Skel.step oneList
      ([.test, .acquire, .look] ++ putCall ⟨7, 7, none, none, none, 7⟩) = some _ := rfl
  exact ⟨_, hr, rfl, rfl, no_write_sleeps init_oneList hr rfl (by decide)⟩

end HashMapStorage
