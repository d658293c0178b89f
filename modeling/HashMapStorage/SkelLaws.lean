import HashMapStorage.Skel

/-!
# Numbers of the writes

What a step can do (`Change`), and what holds in every state of a run: who has
the lock, how the numbers given out, the tasks queued and the tasks executed
count, and what a call of `invoke` answers.
-/

namespace HashMapStorage

open Machine

/-- A PUT (`true`) or a DEL that `invoke` does not reject. -/
def MessageT.write (msg : MessageT) : Option Bool :=
  if outOfRange msg.opcode msg.cType then none
  else if msg.opcode = opDel then some false
  else if msg.opcode = opPut then some true
  else none

def numbersBelow (n : Nat) : List Int := (List.range n).map Int.ofNat

theorem numbersBelow_succ (n : Nat) : numbersBelow (n + 1) = numbersBelow n ++ [(n : Int)] := by
  rw [numbersBelow, List.range_succ, List.map_append]
  rfl

theorem mem_numbersBelow : i ∈ numbersBelow n ↔ 0 ≤ i ∧ i < n := by
  simp only [numbersBelow, List.mem_map, List.mem_range, Int.ofNat_eq_natCast]
  constructor
  · rintro ⟨k, hk, rfl⟩
    omega
  · rintro ⟨hpos, hlt⟩
    exact ⟨i.toNat, by omega, by omega⟩

theorem numbersBelow_length (n : Nat) : (numbersBelow n).length = n := by simp [numbersBelow]

theorem concat_numbersBelow {x : Int} (h : l ++ [x] = numbersBelow k) :
    l = numbersBelow l.length ∧ x = l.length ∧ k = l.length + 1 := by
  have hlen := congrArg List.length h
  rw [List.length_append, List.length_singleton, numbersBelow_length] at hlen
  rw [← hlen, numbersBelow_succ] at h
  obtain ⟨hl, hx⟩ := List.append_inj h (numbersBelow_length _).symm
  exact ⟨hl, List.singleton_inj.mp hx, hlen.symm⟩

def MainPc.critical : MainPc → Bool
  | .enqueue _ _ | .signal _ | .unlock _ => true
  | _ => false

def MainPc.stopping : MainPc → Bool
  | .stopSignal | .join | .deleteQueue | .done => true
  | _ => false

def WorkerPc.critical : WorkerPc → Bool
  | .look | .pop | .execute _ | .finish _ | .leave => true
  | _ => false

def WorkerPc.pending : WorkerPc → Int
  | .execute _ | .finish _ => 1
  | _ => 0

def WorkerPc.stopped : WorkerPc → Bool
  | .send | .done => true
  | _ => false

namespace Skel

variable {s s' : Skel}

def write (s : Skel) : Option Bool := s.request.bind MessageT.write

def dispatched (write : Option Bool) : MainPc → Prop
  | .lock _ put => write = some put
  | .getKeys _ | .returned _ _ => write = none
  | _ => False

inductive Change (s : Skel) : SkelStep → Skel → Prop
  | outside (messages mem) : s.main = .idle ∨ (∃ msg result, s.main = .returned msg result) →
      Change s (.outside messages mem) { s with messages, mem, main := .idle }
  | invoke (messages messageServer mem request pc) : s.main = .idle →
      dispatched (request.bind MessageT.write) pc →
      Change s (.invoke msg data string)
        { s with messages, messageServer, mem, request, given := [], main := pc }
  | lock : s.main = .lock p put → s.queueLock = none →
      Change s .lock { s with queueLock := some .main, main := .enqueue p put }
  | enqueue (p put m msg tasks queue) : s.main = .enqueue p put → s.messages.cell p = some msg →
      fifoAdd (s.tasks.set (m.addr s.tasks)
        (some (newTask (m.junk s.tasks) s.lastAssigned put msg))) s.queue
        (some (m.addr s.tasks)) = .ok (tasks, queue) →
      Change s (.enqueue m)
        { s with
          tasks, queue
          lastAssigned := s.lastAssigned + 1
          messages := s.messages.set p (some
            { msg with
              cType := ctNone, opcode := if put then opPut + 1 else opDel + 1
              dataSize := s.lastAssigned })
          main := .signal p
          given := s.given ++ [s.lastAssigned]
          accepted := s.accepted ++ [s.lastAssigned] }
  | signal : s.main = .signal p →
      Change s .signal { s with worker := signalled s.worker, main := .unlock p }
  | unlock : s.main = .unlock p →
      Change s .unlock { s with queueLock := none, main := .returned (some p) 0 }
  | getKeys (chaves) : s.main = .getKeys p → Change s .getKeys { s with main := .copyKeys p chaves }
  | copyKeys (messages mem) : s.main = .copyKeys p chaves →
      Change s (.copyKeys m) { s with messages, mem, main := .returned (some p) 0 }
  | destroy : s.main = .idle ∨ (∃ msg result, s.main = .returned msg result) →
      Change s .destroy { s with destroyed := s.table.isSome, main := .clearFlag }
  | clearFlag : s.main = .clearFlag → Change s .clearFlag { s with flag := 0, main := .stopSignal }
  | stopSignal : s.main = .stopSignal →
      Change s .stopSignal { s with worker := signalled s.worker, main := .join }
  | join : s.main = .join → s.worker = .done → Change s .join { s with main := .deleteQueue }
  | deleteQueue (tasks mem) : s.main = .deleteQueue →
      Change s .deleteQueue { s with tasks, mem, main := .done }
  | enter : s.worker = .test → s.flag ≠ 0 → Change s .test { s with worker := .acquire }
  | exit : s.worker = .test → s.flag = 0 → Change s .test { s with worker := .send }
  | acquire : s.worker = .acquire → s.queueLock = none →
      Change s .acquire { s with queueLock := some .worker, worker := .look }
  | wait : s.worker = .look → s.queue.size = 0 →
      Change s .look { s with queueLock := none, worker := .waiting }
  | look : s.worker = .look → s.queue.size ≠ 0 → Change s .look { s with worker := .pop }
  | wake : s.worker = .waiting → Change s .wake { s with worker := .woken }
  | reacquire : s.worker = .woken → s.queueLock = none →
      Change s .reacquire { s with queueLock := some .worker, worker := .pop }
  | pop (queue) : s.worker = .pop → 0 < s.queue.size →
      HashMapStorage.pop s.tasks s.queue = .ok (some a, queue) →
      Change s .pop { s with queue, worker := .execute a }
  | skip : s.worker = .pop → ¬ (0 < s.queue.size ∧ s.queue.head ≠ none) →
      Change s .pop { s with worker := .leave }
  | execute : s.worker = .execute a → s.tasks.cell a = some task →
      Change s (.execute m undefined)
        { s with
          table := s.tableAfter task m undefined
          worker := .finish a
          executed := s.executed ++ [task.opN] }
  | finish : s.worker = .finish a → s.tasks.cell a = some task →
      Change s .finish
        { s with opCount := s.opCount + 1, tasks := s.tasks.set a none, worker := .leave }
  | leave : s.worker = .leave → Change s .leave { s with queueLock := none, worker := .test }
  | send (messages mem) : s.worker = .send →
      Change s (.send string sent) { s with messages, mem, worker := .done }

theorem invoke_ok {t t' : Skel} {table : TableT}
    (h : t.invoke table p msg data string = .ok t') :
    ∃ messages messageServer mem pc, dispatched msg.write pc ∧
      t' = { t with messages, messageServer, mem, main := pc } := by
  unfold invoke at h
  split at h
  · rename_i hreject
    cases h
    refine ⟨_, _, _, _, ?_, rfl⟩
    rw [dispatched, MessageT.write, if_pos hreject]
  · rename_i hreject
    have hwrite : msg.write =
        if msg.opcode = opDel then some false
        else if msg.opcode = opPut then some true
        else none := by
      rw [MessageT.write, if_neg hreject]
    rw [hwrite]
    dsimp only at h
    split at h
    · rename_i hop
      cases h
      exact ⟨_, _, _, _, by simp [dispatched, hop, opSize, opDel, opPut], rfl⟩
    split at h
    · rename_i hop
      cases h
      exact ⟨_, _, _, _, by simp [dispatched, hop], rfl⟩
    split at h
    · rename_i hop
      obtain ⟨⟨msg', mem⟩, -, h⟩ := seq_ok h
      cases h
      exact ⟨_, _, _, _, by simp [dispatched, hop, opGet, opDel, opPut], rfl⟩
    split at h
    · rename_i hdel hget hop
      cases h
      exact ⟨_, _, _, _, by simp [dispatched, hop, opPut, opDel], rfl⟩
    rename_i hdel hget hput
    rw [if_neg hdel, if_neg hput]
    split at h
    · split at h
      · cases h
        exact ⟨_, _, _, _, by simp [dispatched], rfl⟩
      · cases h
        exact ⟨_, _, _, _, by simp [dispatched], rfl⟩
    split at h
    · obtain ⟨verificado, -, h⟩ := seq_ok h
      cases h
      exact ⟨_, _, _, _, by simp [dispatched], rfl⟩
    · cases h
      exact ⟨_, _, _, _, by simp [dispatched], rfl⟩

theorem enqueue_ok {m : Malloc TaskT} (h : s.enqueue p put m = .ok s')
    (hpc : s.main = .enqueue p put) : Change s (.enqueue m) s' := by
  obtain ⟨msg, hl, h⟩ := seq_ok h
  obtain ⟨a, ha, hmsg⟩ := Heap.load_ok hl
  cases ha
  obtain ⟨⟨tasks, queue⟩, hadd, h⟩ := seq_ok h
  obtain ⟨lastAssigned, hlast, h⟩ := seq_ok h
  obtain ⟨-, rfl⟩ := checkInt_ok hlast
  simp only [newTask_opN] at h
  cases h
  simp only [Heap.set_set] at hadd
  exact .enqueue p put m msg tasks queue hpc hmsg hadd

theorem sendMessage_ok (h : s.sendMessage string sent = .ok s') :
    ∃ messages mem, s' = { s with messages, mem } := by
  obtain ⟨msg, -, h⟩ := seq_ok h
  obtain ⟨⟨messageT, mem⟩, -, h⟩ := seq_ok h
  obtain ⟨f, -, h⟩ := seq_ok h
  cases sent with
  | true =>
    cases h
    exact ⟨_, _, rfl⟩
  | false =>
    obtain ⟨⟨messages, mem⟩, -, h⟩ := seq_ok h
    cases h
    exact ⟨_, _, rfl⟩

theorem mainStep_change (hs : s.mainStep a = some s') : Change s a s' := by
  cases a <;> simp only [mainStep, reduceCtorEq] at hs
  case outside messages mem =>
    split at hs
    · rename_i hpc
      cases hs
      exact .outside messages mem (.inl hpc)
    · rename_i hpc
      cases hs
      exact .outside messages mem (.inr ⟨_, _, hpc⟩)
    · cases hs
  case invoke msg data string =>
    split at hs
    · rename_i table p hpc htable
      obtain ⟨message, hmsg, hs⟩ := Option.bind_eq_some_iff.mp hs
      obtain ⟨messages, messageServer, mem, pc, hd, rfl⟩ := invoke_ok (toOption_some.mp hs)
      exact .invoke messages messageServer mem (some message) pc hpc hd
    · rename_i hpc _
      cases hs
      exact .invoke _ _ _ none _ hpc rfl
    · cases hs
  case lock =>
    split at hs
    · rename_i hpc hlock
      cases hs
      exact .lock hpc hlock
    · cases hs
  case enqueue m =>
    split at hs
    · rename_i hpc
      exact enqueue_ok (toOption_some.mp hs) hpc
    · cases hs
  case signal =>
    split at hs
    · rename_i hpc
      cases hs
      exact .signal hpc
    · cases hs
  case unlock =>
    split at hs
    · rename_i hpc
      cases hs
      exact .unlock hpc
    · cases hs
  case getKeys =>
    split at hs
    · rename_i hpc htable
      obtain ⟨chaves, -, hs⟩ := Option.bind_eq_some_iff.mp hs
      cases hs
      exact .getKeys chaves hpc
    · cases hs
  case copyKeys m =>
    split at hs
    · rename_i hpc htable
      obtain ⟨msg, -, hs⟩ := Option.bind_eq_some_iff.mp hs
      obtain ⟨⟨msg', mem⟩, -, hs⟩ := Option.bind_eq_some_iff.mp hs
      cases hs
      exact .copyKeys _ mem hpc
    · cases hs
  case destroy =>
    split at hs
    · rename_i hpc
      cases hs
      exact .destroy (.inl hpc)
    · rename_i hpc
      cases hs
      exact .destroy (.inr ⟨_, _, hpc⟩)
    · cases hs
  case clearFlag =>
    split at hs
    · rename_i hpc
      cases hs
      exact .clearFlag hpc
    · cases hs
  case stopSignal =>
    split at hs
    · rename_i hpc
      cases hs
      exact .stopSignal hpc
    · cases hs
  case join =>
    split at hs
    · rename_i hpc hdone
      cases hs
      exact .join hpc hdone
    · cases hs
  case deleteQueue =>
    split at hs
    · rename_i hpc
      obtain ⟨⟨tasks, strings⟩, -, hs⟩ := Option.bind_eq_some_iff.mp hs
      cases hs
      exact .deleteQueue tasks _ hpc
    · cases hs

theorem workerStep_change (hs : s.workerStep a = some s') : Change s a s' := by
  cases a <;> simp only [workerStep, reduceCtorEq] at hs
  case test =>
    split at hs
    · rename_i hpc
      cases hs
      by_cases hflag : s.flag ≠ 0
      · rw [if_pos hflag]
        exact .enter hpc hflag
      · rw [if_neg hflag]
        exact .exit hpc (not_not.mp hflag)
    · cases hs
  case acquire =>
    split at hs
    · rename_i hpc hlock
      cases hs
      exact .acquire hpc hlock
    · cases hs
  case look =>
    split at hs
    · rename_i hpc
      split at hs
      · rename_i hzero
        cases hs
        exact .wait hpc hzero
      · rename_i hzero
        cases hs
        exact .look hpc hzero
    · cases hs
  case wake =>
    split at hs
    · rename_i hpc
      cases hs
      exact .wake hpc
    · cases hs
  case reacquire =>
    split at hs
    · rename_i hpc hlock
      cases hs
      exact .reacquire hpc hlock
    · cases hs
  case pop =>
    split at hs
    · rename_i hpc
      split at hs
      · rename_i hsome
        obtain ⟨⟨ret, queue⟩, hpop, hs⟩ := Option.bind_eq_some_iff.mp hs
        obtain ⟨a, rfl, hs⟩ := Option.bind_eq_some_iff.mp hs
        cases hs
        exact .pop queue hpc hsome.1 (toOption_some.mp hpop)
      · rename_i hnone
        cases hs
        exact .skip hpc hnone
    · cases hs
  case execute m undefined =>
    split at hs
    · rename_i hpc
      obtain ⟨task, htask, hs⟩ := Option.bind_eq_some_iff.mp hs
      cases hs
      exact .execute hpc htask
    · cases hs
  case finish =>
    split at hs
    · rename_i hpc
      obtain ⟨opCount, hcount, hs⟩ := Option.bind_eq_some_iff.mp hs
      obtain ⟨tasks, hfree, hs⟩ := Option.bind_eq_some_iff.mp hs
      obtain ⟨-, rfl⟩ := checkInt_ok (toOption_some.mp hcount)
      obtain ⟨⟨task, htask⟩, rfl⟩ := Heap.free_ok (toOption_some.mp hfree)
      cases hs
      exact .finish hpc htask
    · cases hs
  case leave =>
    split at hs
    · rename_i hpc
      cases hs
      exact .leave hpc
    · cases hs
  case send string sent =>
    split at hs
    · rename_i hpc
      obtain ⟨t, hsend, hs⟩ := Option.bind_eq_some_iff.mp hs
      cases hs
      obtain ⟨messages, mem, rfl⟩ := sendMessage_ok (toOption_some.mp hsend)
      exact .send messages mem hpc
    · cases hs

theorem step_change (hs : s.step a = some s') : Change s a s' := by
  rcases Option.or_eq_some_iff.mp hs with hs | ⟨-, hs⟩
  · exact mainStep_change hs
  · exact workerStep_change hs

-- ---------------------------------------------------------------------------
-- What every step keeps
-- ---------------------------------------------------------------------------

@[simp] theorem signalled_critical (pc : WorkerPc) : (signalled pc).critical = pc.critical := by
  cases pc <;> rfl

@[simp] theorem signalled_pending (pc : WorkerPc) : (signalled pc).pending = pc.pending := by
  cases pc <;> rfl

@[simp] theorem signalled_stopped (pc : WorkerPc) : (signalled pc).stopped = pc.stopped := by
  cases pc <;> rfl

theorem dispatched_critical (h : dispatched put pc) : pc.critical = false := by
  cases pc <;> first | rfl | exact h.elim

structure Locked (s : Skel) : Prop where
  main : s.main.critical = true ↔ s.queueLock = some .main
  worker : s.worker.critical = true ↔ s.queueLock = some .worker

theorem Locked.step (h : s.Locked) (hc : Change s a s') : s'.Locked := by
  obtain ⟨hmain, hworker⟩ := h
  cases hc with
  | invoke messages messageServer mem request pc hpc hd =>
    rw [hpc] at hmain
    refine ⟨?_, hworker⟩
    rw [dispatched_critical hd]
    exact hmain
  | outside messages mem hpc | destroy hpc =>
    refine ⟨?_, hworker⟩
    rcases hpc with hpc | ⟨msg, result, hpc⟩ <;> rw [hpc] at hmain <;> exact hmain
  | signal hpc | stopSignal hpc =>
    rw [hpc] at hmain
    refine ⟨hmain, ?_⟩
    rw [signalled_critical]
    exact hworker
  | _ => constructor <;> simp_all [MainPc.critical, WorkerPc.critical]

def Stoppable (s : Skel) : Prop :=
  s.main.stopping = false → s.flag ≠ 0 ∧ s.worker.stopped = false

theorem Stoppable.step (h : s.Stoppable) (hc : Change s a s') : s'.Stoppable := by
  unfold Stoppable at *
  cases hc with
  | outside messages mem hpc | destroy hpc =>
    rcases hpc with hpc | ⟨msg, result, hpc⟩ <;> rw [hpc] at h <;> exact h
  | signal hpc =>
    rw [hpc] at h
    rw [signalled_stopped]
    exact h
  | invoke messages messageServer mem request pc hpc hd =>
    rw [hpc] at h
    exact fun _ => h rfl
  | _ => simp_all [MainPc.stopping, WorkerPc.stopped]

structure Counted (s : Skel) : Prop where
  last : s.lastAssigned = s.accepted.length
  numbers : s.accepted = numbersBelow s.accepted.length
  queued : s.lastAssigned = s.opCount + s.queue.size + s.worker.pending
  size : 0 ≤ s.queue.size

theorem Counted.step (h : s.Counted) (hc : Change s a s') : s'.Counted := by
  obtain ⟨hlast, hnumbers, hqueued, hsize⟩ := h
  cases hc with
  | enqueue p put m msg tasks queue hpc hmsg hadd =>
    have hgrown := fifoAdd_size hadd
    refine ⟨?_, ?_, ?_, ?_⟩
    · simp [hlast]
    · rw [List.length_append, List.length_singleton, numbersBelow_succ, ← hnumbers, hlast]
    · dsimp only
      omega
    · dsimp only
      omega
  | signal hpc | stopSignal hpc =>
    refine ⟨hlast, hnumbers, ?_, hsize⟩
    rw [signalled_pending]
    exact hqueued
  | pop queue hpc hpos hpop =>
    obtain ⟨-, task, -, -, -, rfl⟩ := pop_ok hpos hpop
    rw [hpc] at hqueued
    refine ⟨hlast, hnumbers, ?_, ?_⟩
    · simp only [WorkerPc.pending] at hqueued ⊢
      omega
    · dsimp only
      omega
  | finish hpc htask =>
    rw [hpc] at hqueued
    refine ⟨hlast, hnumbers, ?_, hsize⟩
    simp only [WorkerPc.pending] at hqueued ⊢
    omega
  | outside | invoke | lock | unlock | getKeys | copyKeys
  | destroy | clearFlag | join | deleteQueue =>
    exact ⟨hlast, hnumbers, hqueued, hsize⟩
  | enter hpc | exit hpc | acquire hpc | wait hpc | look hpc | wake hpc | reacquire hpc
  | skip hpc | execute hpc | leave hpc | send _ _ hpc =>
    rw [hpc] at hqueued
    exact ⟨hlast, hnumbers, hqueued, hsize⟩

/-- The message holds the number of the task that this call has queued: the
number of writes accepted before. -/
def Answered (s : Skel) (p : Nat) : Prop :=
  ∃ msg n, s.messages.cell p = some msg ∧ s.given = [(n : Int)] ∧ msg.dataSize = n ∧
    s.accepted.length = n + 1

def Served (s : Skel) : Prop :=
  match s.main with
  | .lock _ put | .enqueue _ put => s.write = some put ∧ s.given = []
  | .signal p | .unlock p => s.write.isSome ∧ s.Answered p
  | .getKeys _ | .copyKeys _ _ => s.write = none ∧ s.given = []
  | .returned msg result =>
    (s.write.isSome → result = 0 ∧ ∃ p, msg = some p ∧ s.Answered p) ∧
      (s.write = none → s.given = [])
  | _ => True

theorem Served.step (h : s.Served) (hcount : s.Counted) (hstop : s.Stoppable)
    (hc : Change s a s') : s'.Served := by
  unfold Served at *
  cases hc with
  | outside | destroy | clearFlag | stopSignal | join | deleteQueue => trivial
  | invoke messages messageServer mem request pc hpc hd =>
    cases pc with
    | lock | getKeys => exact ⟨hd, rfl⟩
    | returned msg result =>
      refine ⟨fun hsome => ?_, fun _ => rfl⟩
      have hnone : request.bind MessageT.write = none := hd
      simp [Skel.write, hnone] at hsome
    | _ => exact hd.elim
  | lock hpc hlock =>
    rw [hpc] at h
    exact h
  | enqueue p put m msg tasks queue hpc hmsg hadd =>
    rw [hpc] at h
    obtain ⟨hwrite, hgiven⟩ := h
    refine ⟨?_, _, s.accepted.length, Heap.set_cell .., ?_, hcount.last, ?_⟩
    · exact (congrArg Option.isSome hwrite).trans rfl
    · simp [hgiven, hcount.last]
    · simp
  | signal hpc =>
    rw [hpc] at h
    exact h
  | unlock hpc =>
    rw [hpc] at h
    obtain ⟨hwrite, hanswer⟩ := h
    refine ⟨fun _ => ⟨rfl, _, rfl, hanswer⟩, fun hnone => ?_⟩
    rw [show s.write = none from hnone] at hwrite
    nomatch hwrite
  | getKeys chaves hpc =>
    rw [hpc] at h
    exact h
  | copyKeys messages mem hpc =>
    rw [hpc] at h
    obtain ⟨hnone, hgiven⟩ := h
    refine ⟨fun hsome => ?_, fun _ => hgiven⟩
    replace hsome : s.write.isSome = true := hsome
    rw [hnone] at hsome
    nomatch hsome
  | send messages mem hpc =>
    -- by now the main thread is outside `invoke`
    cases hmain : s.main <;> simp_all [Stoppable, MainPc.stopping, WorkerPc.stopped]
  | _ => exact h

structure Sound (s : Skel) : Prop where
  locked : s.Locked
  stoppable : s.Stoppable
  counted : s.Counted
  served : s.Served

theorem Sound.step (h : s.Sound) (hs : s.step a = some s') : s'.Sound := by
  have hc := step_change hs
  obtain ⟨hlocked, hstop, hcount, hserved⟩ := h
  exact ⟨hlocked.step hc, hstop.step hc, hcount.step hc, hserved.step hcount hstop hc⟩

end Skel

theorem init_sound (hi : tableSkelInit n_lists messages mem = some s) : s.Sound := by
  unfold tableSkelInit at hi
  split at hi
  · cases hi
  · cases hi
    refine ⟨⟨?_, ?_⟩, fun _ => ⟨?_, rfl⟩, ⟨rfl, rfl, rfl, Int.le_refl 0⟩, trivial⟩
    · simp [MainPc.critical]
    · simp [WorkerPc.critical]
    · exact Int.one_ne_zero

theorem run_sound (hi : tableSkelInit n_lists messages mem = some s₀)
    (hr : run Skel.step s₀ as = some s) : s.Sound :=
  have ha : Along Skel.step (fun _ _ => True) s₀ as := along_of_forall fun _ _ _ => trivial
  run_keeps (fun _ _ _ h _ hs => h.step hs) (init_sound hi) ha hr

-- ---------------------------------------------------------------------------
-- What `invoke` does to the shared variables
-- ---------------------------------------------------------------------------

namespace Skel

variable {s s' : Skel}

/-- The numbers as a caller of `invoke` and a reader of the counters see them. -/
structure Numbered (s : Skel) : Prop where
  numbers : s.accepted = numbersBelow s.accepted.length
  accepted : s.main = .returned msg result → s.write ≠ none →
    result = 0 ∧ ∃ p, msg = some p ∧ s.Answered p
  other : s.main = .returned msg result → s.write = none → s.given = []
  balance : s.queueLock = none →
    s.lastAssigned = s.opCount + s.queue.size ∧ s.opCount ≤ s.lastAssigned

theorem Locked.idle (h : s.Locked) (hlock : s.queueLock = none) : s.worker.pending = 0 := by
  have hnot : s.worker.critical = false := by
    rw [← Bool.not_eq_true, h.worker, hlock]
    exact fun hsome => nomatch hsome
  cases hpc : s.worker <;> rw [hpc] at hnot <;> first | rfl | nomatch hnot

theorem Locked.mainBusy (h : s.Locked) (hm : s.main.critical = true) :
    s.worker.critical = false := by
  rw [← Bool.not_eq_true, h.worker, h.main.mp hm]
  nofun

theorem Sound.numbered (h : s.Sound) : s.Numbered := by
  obtain ⟨hlocked, hstop, ⟨hlast, hnumbers, hqueued, hsize⟩, hserved⟩ := h
  refine ⟨hnumbers, ?_, ?_, ?_⟩
  · intro msg result hpc hwrite
    unfold Served at hserved
    rw [hpc] at hserved
    exact hserved.1 (Option.isSome_iff_ne_none.mpr hwrite)
  · intro msg result hpc hwrite
    unfold Served at hserved
    rw [hpc] at hserved
    exact hserved.2 hwrite
  · intro hlock
    rw [hlocked.idle hlock] at hqueued
    constructor <;> omega

end Skel

def onePut : Heap MessageT × Mem :=
  (Heap.empty.set 0 (some ⟨⟨none⟩, opPut, ctEntry, 2, some 1, some 0, 0, none⟩),
    ⟨(Heap.empty.set 0 (some [97, 0])).set 1 (some [97, 0]), .empty⟩)

def putCall (junk : TaskT) : List SkelStep :=
  [.outside onePut.1 onePut.2, .invoke (some 0) .zero (.at 2 []), .lock, .enqueue (.at 0 junk),
    .signal, .unlock]

def nextMem : PutMem := ⟨.zero, mallocTop ⟨⟨.empty, ⟨0, none⟩⟩, none⟩⟩

def noTable : TableT := ⟨[], 0, 0, rfl, .empty⟩

def oneList : Skel where
  table := tableCreate 1
  destroyed := false
  queue := fifoCreate
  tasks := .empty
  lastAssigned := 0
  opCount := 0
  queueLock := none
  flag := 1
  messageServer := none
  messages := .empty
  mem := ⟨.empty, .empty⟩
  main := .idle
  worker := .test
  request := none
  given := []
  accepted := []
  executed := []

theorem init_oneList : tableSkelInit 1 .empty ⟨.empty, .empty⟩ = some oneList := rfl

end HashMapStorage
