import HashMapStorage.Fifo
import HashMapStorage.Machine.Queue
import HashMapStorage.Machine.System

/-!
# Whole runs of the task queue (`fifo_add`, `pop`)

A run is any sequence of `fifo_add`, each with a task from `malloc`, and `pop`,
where the task popped is released or not. `pop` leaves the tail pointer behind,
and `fifo_add` does not write it where it starts the queue anew.
-/

namespace HashMapStorage

open Machine

/-- A task is added with its link as memory was; one that is popped is released before
the next call, or stays. -/
inductive FifoOp
  | add (mem : Malloc TaskT)
  | pop (released : Bool)

structure TaskQueue where
  tasks : Heap TaskT
  fifo : Fifo
  history : List (QueueEvent (Nat × TaskT))

def TaskQueue.start (tasks : Heap TaskT) : TaskQueue := ⟨tasks, fifoCreate, []⟩

def TaskT.unlinked (t : TaskT) : TaskT := { t with proximo := none }

@[simps] def queueShape : NodeShape TaskT TaskT where
  item := TaskT.unlinked
  next := TaskT.proximo

def disposeTask (tasks : Heap TaskT) (task : Nat) (released : Bool) : Exec (Heap TaskT) :=
  if released then tasks.free (some task) else pure tasks

namespace TaskQueue

def perform (q : TaskQueue) : FifoOp → Exec TaskQueue
  | .add mem => do
    let (task, tasks) := q.tasks.alloc mem
    let (tasks, fifo) ← fifoAdd tasks q.fifo (some task)
    pure ⟨tasks, fifo, q.history ++ [.added (task, (mem.junk q.tasks).unlinked)]⟩
  | .pop released => do
    let (ret, fifo) ← pop q.tasks q.fifo
    match ret with
    | none => pure ⟨q.tasks, fifo, q.history ++ [.popped none]⟩
    | some task =>
      let t ← q.tasks.load (some task)
      let tasks ← disposeTask q.tasks task released
      pure ⟨tasks, fifo, q.history ++ [.popped (some (task, t.unlinked))]⟩

def step (q : TaskQueue) (op : FifoOp) : Option TaskQueue := (q.perform op).toOption

/-- The answers were those of a first-in first-out queue, and the tasks it is
left with are linked from `head`, as many as `size` says. -/
def Holds (q : TaskQueue) (xs : List (Nat × TaskT)) : Prop :=
  Queued q.history xs ∧ (∃ rest, Linked queueShape q.tasks q.fifo.head xs rest) ∧
    q.fifo.size = xs.length

def InOrder (q : TaskQueue) : Prop := ∃ xs, q.Holds xs

/-- A task passed to `fifo_add` meets a queue that does not count INT_MAX tasks,
and no queue of one task with a tail pointer to another one; that other one may
be allocated where the one task already links to the task passed. -/
def Appendable (q : TaskQueue) : FifoOp → Prop
  | .add mem =>
    q.fifo.size < intMax ∧ (q.fifo.size = 1 → q.fifo.tail = none ∨ q.fifo.tail = q.fifo.head ∨
      ∃ a b t u, q.fifo.head = some a ∧ q.tasks.cell a = some t ∧
        t.proximo = some (mem.addr q.tasks) ∧ q.fifo.tail = some b ∧
        (q.tasks.alloc mem).2.cell b = some u)
  | .pop _ => True

structure Tailed (q : TaskQueue) (xs : List (Nat × TaskT)) : Prop where
  nodup : (addrs xs).Nodup
  last : 2 ≤ xs.length → q.fifo.tail = (addrs xs).getLast?
  isInt : IsInt q.fifo.size

end TaskQueue

-- ---------------------------------------------------------------------------
-- When the calls are defined
-- ---------------------------------------------------------------------------

theorem fifoAdd_isInt {tasks : Heap TaskT} {fifo : Fifo}
    (h : fifoAdd tasks fifo task = .ok r) : IsInt (fifo.size + 1) := by
  unfold fifoAdd at h
  split at h
  · obtain ⟨size, hs, -⟩ := seq_ok h
    exact (checkInt_ok hs).1
  · split at h
    · obtain ⟨tasks₁, -, h⟩ := seq_ok h
      obtain ⟨size, hs, -⟩ := seq_ok h
      exact (checkInt_ok hs).1
    · obtain ⟨tasks₁, -, h⟩ := seq_ok h
      obtain ⟨size, hs, -⟩ := seq_ok h
      exact (checkInt_ok hs).1

theorem fifoAdd_first {tasks : Heap TaskT} {fifo : Fifo} (hzero : fifo.size = 0) :
    fifoAdd tasks fifo task =
      .ok (tasks, { fifo with head := task, size := fifo.size + 1 }) := by
  have hint : checkInt (fifo.size + 1) = .ok (fifo.size + 1) :=
    checkInt_of_isInt (by rw [hzero]; decide)
  simp [fifoAdd, hzero] at hint ⊢
  simp [hint]

theorem setTaskProximo_some {tasks : Heap TaskT} (hc : tasks.cell b = some t) :
    setTaskProximo tasks (some b) proximo = .ok (tasks.set b (some { t with proximo })) := by
  rw [setTaskProximo, Heap.load_some hc, ok_bind, Heap.store_some hc]

theorem fifoAdd_behind {tasks : Heap TaskT} {fifo : Fifo} (hzero : fifo.size ≠ 0)
    (hroom : IsInt (fifo.size + 1)) (hb : fifo.tail.or fifo.head = some b)
    (hc : tasks.cell b = some t) :
    fifoAdd tasks fifo task = .ok (tasks.set b (some { t with proximo := task }),
      { fifo with tail := task, size := fifo.size + 1 }) := by
  unfold fifoAdd
  rw [if_neg hzero]
  split
  · rename_i hnull
    rw [hnull, Option.none_or] at hb
    rw [hb, setTaskProximo_some hc, ok_bind, checkInt_of_isInt hroom, ok_bind]
    rfl
  · rename_i hsome
    obtain ⟨c, htail⟩ := Option.ne_none_iff_exists'.mp hsome
    rw [htail, Option.some_or] at hb
    cases hb
    rw [htail, setTaskProximo_some hc, ok_bind, checkInt_of_isInt hroom, ok_bind]
    rfl

theorem isInt_pred (hpos : 0 < n) (hint : IsInt n) : IsInt (n - 1) := by
  obtain ⟨-, hle⟩ := hint
  exact ⟨by simp only [intMin]; omega, by omega⟩

theorem pop_some {tasks : Heap TaskT} {fifo : Fifo} (hpos : 0 < fifo.size)
    (hint : IsInt fifo.size) (hhead : fifo.head = some a) (hc : tasks.cell a = some t) :
    pop tasks fifo = .ok (some a, { fifo with head := t.proximo, size := fifo.size - 1 }) := by
  rw [pop, if_neg (by omega), hhead, Heap.load_some hc, ok_bind,
    checkInt_of_isInt (isInt_pred hpos hint), ok_bind]
  rfl

-- ---------------------------------------------------------------------------
-- One call
-- ---------------------------------------------------------------------------

namespace TaskQueue

variable {q q' : TaskQueue} {xs : List (Nat × TaskT)} {mem : Malloc TaskT}

theorem Holds.size_pos (h : q.Holds xs) (hx : xs ≠ []) : q.fifo.size ≠ 0 := by
  rw [h.2.2]
  simpa using hx

/-- Which task `fifo_add` links to the new one: the last one, or the task that
an old tail pointer leads to behind a queue of one. -/
theorem linked_behind (ys : List (Nat × TaskT)) (h : q.Holds (ys ++ [(l, x)]))
    (ht : q.Tailed (ys ++ [(l, x)])) :
    q.fifo.tail.or q.fifo.head = some l ∨
      ∃ b, q.fifo.tail = some b ∧ b ≠ l ∧ ys = [] ∧ q.fifo.head = some l := by
  obtain ⟨-, ⟨rest, hchain⟩, -⟩ := h
  have hlast : (addrs (ys ++ [(l, x)])).getLast? = some l := by simp
  cases ys with
  | nil =>
    have hhead : q.fifo.head = some l := hchain.1
    cases htail : q.fifo.tail with
    | none => exact .inl (by simp [hhead])
    | some b =>
      by_cases hb : b = l
      · exact .inl (by simp [hb])
      · exact .inr ⟨b, rfl, hb, rfl, hhead⟩
  | cons y ys =>
    refine .inl ?_
    rw [ht.last (by simp), hlast]
    rfl

theorem nodup_concat (ht : q.Tailed xs) (ha : a ∉ addrs xs) : (addrs (xs ++ [(a, t)])).Nodup := by
  rw [addrs_append, List.nodup_append]
  refine ⟨ht.nodup, by simp, ?_⟩
  rintro b hb c hc rfl
  have hba : b = a := List.mem_singleton.mp hc
  exact ha (hba ▸ hb)

theorem link_task {tasks : Heap TaskT} (hl : Linked queueShape tasks p (ys ++ [(l, x)]) rest)
    (hnd : (addrs (ys ++ [(l, x)])).Nodup) (ha : a ∉ addrs (ys ++ [(l, x)]))
    (hv : tasks.cell l = some v) (hc : tasks.cell a = some t) :
    Linked queueShape (tasks.set l (some { v with proximo := some a })) p
      (ys ++ [(l, x)] ++ [(a, t.unlinked)]) t.proximo := by
  obtain ⟨w, hw, hitem⟩ := hl.cell_of_mem (List.mem_append_right _ (List.mem_singleton_self _))
  rw [hv] at hw
  cases hw
  have hne : l ≠ a := fun e => ha (by simp [e])
  rw [List.append_assoc]
  refine hl.extend (v := { v with proximo := some a }) hitem rfl ?_ rfl (Heap.set_cell ..) ?_
  · rw [Heap.set_cell_ne _ _ hne.symm, hc]
  · intro d hd
    refine Heap.set_cell_ne _ _ ?_
    rintro rfl
    rw [addrs_append, List.nodup_append] at hnd
    exact hnd.2.2 d hd d (List.mem_singleton_self d) rfl

theorem link_elsewhere {tasks : Heap TaskT} (hl : tasks.cell l = some v) (hx : v.unlinked = x)
    (hp : v.proximo = some a) (hb : tasks.cell b = some u) (hbl : b ≠ l)
    (hc : tasks.cell a = some t) :
    ∃ rest, Linked queueShape (tasks.set b (some { u with proximo := some a })) (some l)
      [(l, x), (a, t.unlinked)] rest := by
  have hlast : ∃ w, (tasks.set b (some { u with proximo := some a })).cell a = some w ∧
      w.unlinked = t.unlinked := by
    by_cases hab : a = b
    · subst hab
      rw [hb] at hc
      cases hc
      exact ⟨_, Heap.set_cell .., rfl⟩
    · exact ⟨t, by rw [Heap.set_cell_ne _ _ hab, hc], rfl⟩
  obtain ⟨w, hw, hitem⟩ := hlast
  refine ⟨w.proximo, rfl, v, ?_, hx, ?_, w, hw, hitem, rfl⟩
  · rw [Heap.set_cell_ne _ _ hbl.symm, hl]
  · exact hp

theorem fifoAdd_runs (h : q.Holds xs) (ht : q.Tailed xs) (ha : q.Appendable (.add mem)) :
    ∃ tasks fifo, fifoAdd (q.tasks.alloc mem).2 q.fifo (some (mem.addr q.tasks)) =
        .ok (tasks, fifo) ∧
      (∃ rest, Linked queueShape tasks fifo.head
        (xs ++ [(mem.addr q.tasks, (mem.junk q.tasks).unlinked)]) rest) ∧
      fifo.size = q.fifo.size + 1 ∧ (xs ≠ [] → fifo.tail = some (mem.addr q.tasks)) := by
  obtain ⟨hroom, hone⟩ := ha
  obtain ⟨-, ⟨rest, hchain⟩, hsize⟩ := id h
  have hnew : mem.addr q.tasks ∉ addrs xs := hchain.not_mem_of_free (mem.fresh q.tasks)
  have hchain' : Linked queueShape (q.tasks.alloc mem).2 q.fifo.head xs rest :=
    hchain.set_frame hnew _
  have hcell : (q.tasks.alloc mem).2.cell (mem.addr q.tasks) = some (mem.junk q.tasks) :=
    Heap.set_cell ..
  have hint : IsInt (q.fifo.size + 1) := by
    obtain ⟨hle, -⟩ := ht.isInt
    exact ⟨by omega, by omega⟩
  rcases List.eq_nil_or_concat xs with rfl | ⟨ys, ⟨l, x⟩, rfl⟩
  · exact ⟨_, _, fifoAdd_first hsize, ⟨_, rfl, _, hcell, rfl, rfl⟩, rfl, fun hx => absurd rfl hx⟩
  · rw [List.concat_eq_append] at *
    have hzero := h.size_pos (by simp)
    rcases linked_behind ys h ht with hb | ⟨b, htail, hbl, rfl, hhead⟩
    · obtain ⟨v, hv, -⟩ :=
        hchain'.cell_of_mem (List.mem_append_right _ (List.mem_singleton_self _))
      exact ⟨_, _, fifoAdd_behind hzero hint hb hv,
        ⟨_, link_task hchain' ht.nodup hnew hv hcell⟩, rfl, fun _ => rfl⟩
    · rcases hone hsize with hnone | hhd | ⟨c, d, v, u, hc, hv, hp, hd, hu⟩
      · rw [htail] at hnone
        nomatch hnone
      · rw [htail, hhead] at hhd
        exact absurd (Option.some.inj hhd) hbl
      · rw [hhead] at hc
        rw [htail] at hd
        cases hc
        cases hd
        obtain ⟨-, w, hw, hitem, -⟩ := hchain
        rw [hv] at hw
        cases hw
        have hne : l ≠ mem.addr q.tasks := Heap.ne_of_free hv (mem.fresh q.tasks)
        have hv' : (q.tasks.alloc mem).2.cell l = some v := by
          rw [Heap.alloc, Heap.set_cell_ne _ _ hne, hv]
        refine ⟨_, _, fifoAdd_behind hzero hint (by rw [htail]; rfl) hu, ?_, rfl, fun _ => rfl⟩
        rw [hhead]
        exact link_elsewhere hv' hitem hp hu hbl hcell

theorem add_step (h : q.Holds xs) (ht : q.Tailed xs) (ha : q.Appendable (.add mem)) :
    ∃ q' ys, q.step (.add mem) = some q' ∧ q'.Holds ys ∧ q'.Tailed ys := by
  obtain ⟨tasks, fifo, hadd, hchain, hsize, htail⟩ := fifoAdd_runs h ht ha
  obtain ⟨hqueued, ⟨rest, hold⟩, hcount⟩ := h
  have hnew : mem.addr q.tasks ∉ addrs xs := hold.not_mem_of_free (mem.fresh q.tasks)
  refine ⟨⟨tasks, fifo, _⟩, _, ?_, ⟨hqueued.added _, hchain, ?_⟩, nodup_concat ht hnew, ?_, ?_⟩
  · refine toOption_some.mpr ?_
    rw [perform]
    dsimp only
    rw [show (q.tasks.alloc mem).1 = mem.addr q.tasks from rfl, hadd]
    rfl
  · rw [hsize, hcount]
    simp
  · intro hlen
    have hx : xs ≠ [] := by
      rintro rfl
      simp at hlen
    rw [htail hx]
    simp
  · rw [hsize]
    exact fifoAdd_isInt hadd

theorem pop_step (h : q.Holds xs) (ht : q.Tailed xs) (released : Bool) :
    ∃ q' ys, q.step (.pop released) = some q' ∧ q'.Holds ys ∧ q'.Tailed ys := by
  obtain ⟨hqueued, ⟨rest, hchain⟩, hsize⟩ := h
  cases xs with
  | nil =>
    have hpop : pop q.tasks q.fifo = .ok (none, q.fifo) := if_pos (by simp [hsize])
    refine ⟨⟨q.tasks, q.fifo, _⟩, [], toOption_some.mpr ?_, ⟨hqueued.empty, ⟨rest, hchain⟩, hsize⟩,
      ht.nodup, ht.last, ht.isInt⟩
    rw [perform, hpop]
    rfl
  | cons y ys =>
    obtain ⟨hhead, t, hc, hitem, hnext⟩ := hchain
    obtain ⟨hnew, hnodup⟩ := List.nodup_cons.mp ht.nodup
    have hpos : 0 < q.fifo.size := by
      rw [hsize, List.length_cons]
      omega
    have hpop := pop_some hpos ht.isInt hhead hc
    have hpopped : Queued (q.history ++ [.popped (some (y.1, t.unlinked))]) ys := by
      refine .popped (x := (y.1, t.unlinked)) ?_
      rwa [show (y.1, t.unlinked) = y from Prod.ext rfl hitem]
    have hlast : 2 ≤ ys.length → q.fifo.tail = (addrs ys).getLast? := by
      intro hlen
      rw [ht.last (by simpa using Nat.le_succ_of_le hlen)]
      cases ys with
      | nil => nomatch hlen
      | cons z zs => simp [List.getLast?_cons]
    have hcount : q.fifo.size - 1 = ys.length := by
      rw [hsize, List.length_cons]
      omega
    obtain ⟨tasks, hfreed, hleft⟩ : ∃ tasks, disposeTask q.tasks y.1 released = .ok tasks ∧
        Linked queueShape tasks t.proximo ys rest := by
      cases released with
      | true => exact ⟨_, Heap.free_some hc, hnext.set_frame hnew none⟩
      | false => exact ⟨_, rfl, hnext⟩
    refine ⟨⟨tasks, { q.fifo with head := t.proximo, size := q.fifo.size - 1 }, _⟩, ys,
      toOption_some.mpr ?_, ⟨hpopped, ⟨rest, hleft⟩, hcount⟩, hnodup, hlast,
      isInt_pred hpos ht.isInt⟩
    rw [perform, hpop, ok_bind]
    dsimp only
    rw [Heap.load_some hc, ok_bind, hfreed]
    rfl

theorem appendable_of_inOrder (h : q.Holds xs) (ht : q.Tailed xs) (hs : q.step op = some q')
    (ho : q'.InOrder) : q.Appendable op := by
  cases op with
  | pop => trivial
  | add mem =>
    obtain ⟨⟨tasks, fifo⟩, hadd, hq⟩ := seq_ok (toOption_some.mp hs)
    cases hq
    obtain ⟨zs, hzs, ⟨rest, hlinked⟩, -⟩ := ho
    have hint := fifoAdd_isInt hadd
    refine ⟨by have := hint.2; omega, fun hone => ?_⟩
    obtain ⟨hqueued, ⟨rest', hchain⟩, hsize⟩ := id h
    rw [hzs.of_added hqueued] at hlinked
    obtain ⟨⟨l, x⟩, rfl⟩ : ∃ y, xs = [y] := List.length_eq_one_iff.mp (by omega)
    rcases linked_behind [] h ht with hb | ⟨b, htail, hbl, -, hhead⟩
    · cases htail : q.fifo.tail with
      | none => exact .inl rfl
      | some c =>
        rw [htail, Option.some_or] at hb
        exact .inr (.inl (by rw [hb, hchain.1]))
    · refine .inr (.inr ?_)
      obtain ⟨-, v, hv, -, -⟩ := hchain
      rcases fifoAdd_ok hadd with ⟨hzero, -, -⟩ | ⟨-, rfl, c, u, hc, hu, rfl⟩
      · omega
      · rw [htail, Option.some_or] at hc
        cases hc
        obtain ⟨hl, w, hw, -, hnext, -⟩ := hlinked
        have hne : l ≠ mem.addr q.tasks := Heap.ne_of_free hv (mem.fresh q.tasks)
        rw [Heap.set_cell_ne _ _ hbl.symm, Heap.set_cell_ne _ _ hne, hv] at hw
        cases hw
        exact ⟨l, b, v, u, hhead, hv, hnext, htail, hu⟩

end TaskQueue

/-- A run of the queue is defined and answers first in, first out exactly when
no task is passed to a queue of one task behind a tail pointer to another one
(but for the task that links to it by chance), nor to one of INT_MAX tasks. -/
theorem first_in_first_out (tasks : Heap TaskT) (ops : List FifoOp) :
    ((∃ q, run TaskQueue.step (.start tasks) ops = some q) ∧
        Throughout TaskQueue.step TaskQueue.InOrder (.start tasks) ops) ↔
      Along TaskQueue.step TaskQueue.Appendable (.start tasks) ops := by
  have hstart : ∃ xs, (TaskQueue.start tasks).Holds xs ∧ (TaskQueue.start tasks).Tailed xs :=
    ⟨[], ⟨.created, ⟨none, rfl⟩, rfl⟩, .nil, nofun, (by decide : IsInt 0)⟩
  refine defined_throughout_iff_along (fun q => ∃ xs, q.Holds xs ∧ q.Tailed xs)
    (fun q ⟨xs, h, _⟩ => ⟨xs, h⟩) ?_ ?_ hstart
  · rintro q (mem | released) ⟨xs, h, ht⟩ ha
    · obtain ⟨q', ys, hs, h'⟩ := TaskQueue.add_step h ht ha
      exact ⟨q', hs, ys, h'⟩
    · obtain ⟨q', ys, hs, h'⟩ := TaskQueue.pop_step h ht released
      exact ⟨q', hs, ys, h'⟩
  · rintro q op q' ⟨xs, h, ht⟩ hs ho
    exact TaskQueue.appendable_of_inOrder h ht hs ho

def addTask (opN : Int) : FifoOp := .add (mallocTop ⟨opN, 0, none, none, none, 0⟩)

def refillQueue (released : Bool) : List FifoOp :=
  [addTask 1, addTask 2, .pop released, .pop released, addTask 3, addTask 4]

/-- The tail pointer still leads to the second task when the fourth is added: it
is linked behind that one, not behind the third; a task released there is
written. -/
theorem refillQueue_loses :
    (∃ q, run TaskQueue.step (.start .empty) (refillQueue false) = some q ∧ ¬ q.InOrder) ∧
      run TaskQueue.step (.start .empty) (refillQueue false ++ [.pop false, .pop false]) = none ∧
        run TaskQueue.step (.start .empty) (refillQueue true) = none := by
  refine ⟨⟨_, rfl, ?_⟩, by rfl, by rfl⟩
  rintro ⟨xs, -, ⟨rest, hchain⟩, hsize⟩
  match xs with
  | [] => nomatch hsize
  | [x] => nomatch hsize
  | (a, x) :: y :: xs =>
    obtain ⟨ha, v, hv, -, hy, -⟩ := hchain
    cases ha
    cases hv
    nomatch hy

end HashMapStorage
