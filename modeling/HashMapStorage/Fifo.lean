import HashMapStorage.Machine.Chain
import HashMapStorage.Machine.Strings

/-!
# The task queue (`fifo.c`, `task.h`)

The tasks lie in a heap of their own; the queue is passed by reference.
`fifo_add` does not write the link of the task it appends, and `pop` does not
look at the tail.
-/

namespace HashMapStorage

open Machine

/-- `struct task_t`: `op` is 0 for a delete and 1 for a put. -/
structure TaskT where
  opN : Int
  op : Int
  key : Ptr
  data : Ptr
  proximo : Ptr
  datasize : Int
  deriving DecidableEq

structure Fifo where
  head : Ptr
  tail : Ptr
  size : Int
  deriving DecidableEq

def fifoCreate : Fifo := ⟨none, none, 0⟩

def setTaskProximo (tasks : Heap TaskT) (task proximo : Ptr) : Exec (Heap TaskT) := do
  let t ← tasks.load task
  tasks.store task { t with proximo }

def fifoAdd (tasks : Heap TaskT) (fifo : Fifo) (task : Ptr) : Exec (Heap TaskT × Fifo) :=
  if fifo.size = 0 then do
    let size ← checkInt (fifo.size + 1)
    pure (tasks, { fifo with head := task, size })
  else if fifo.tail = none then do
    let tasks ← setTaskProximo tasks fifo.head task
    let size ← checkInt (fifo.size + 1)
    pure (tasks, { fifo with tail := task, size })
  else do
    let tasks ← setTaskProximo tasks fifo.tail task
    let size ← checkInt (fifo.size + 1)
    pure (tasks, { fifo with tail := task, size })

def pop (tasks : Heap TaskT) (fifo : Fifo) : Exec (Ptr × Fifo) :=
  if fifo.size ≤ 0 then pure (none, fifo)
  else do
    let ret ← tasks.load fifo.head
    let size ← checkInt (fifo.size - 1)
    pure (fifo.head, { fifo with head := ret.proximo, size })

def fifoDeleteLoop : (fuel : Nat) → Heap TaskT → Strings → Fifo → Exec (Heap TaskT × Strings)
  | 0, _, _, _ => throw .diverges
  | fuel + 1, tasks, strings, fifo =>
    if fifo.size = 0 then pure (tasks, strings)
    else do
      let (task, fifo) ← pop tasks fifo
      let t ← tasks.load task
      let strings ← strings.free t.key
      let strings ← if t.op = 1 then strings.free t.data else pure strings
      let tasks ← tasks.free task
      fifoDeleteLoop fuel tasks strings fifo

def fifoDelete (tasks : Heap TaskT) (strings : Strings) (fifo : Fifo) :
    Exec (Heap TaskT × Strings) := fifoDeleteLoop (fifo.size.toNat + 1) tasks strings fifo

-- ---------------------------------------------------------------------------
-- The tasks met from `head` on
-- ---------------------------------------------------------------------------

@[simps] def taskShape : NodeShape TaskT Int where
  item := TaskT.opN
  next := TaskT.proximo

/-- From `head` on the queue links exactly these tasks. A tail pointer that is
not the last of them leads to none of them; once something has been linked
through such a pointer, `size` counts more tasks than are met. -/
structure Fifo.Leads (tasks : Heap TaskT) (fifo : Fifo) (xs : List (Nat × Int)) : Prop where
  chain : Linked taskShape tasks fifo.head xs none
  last : ∀ b, fifo.tail = some b → b ∈ addrs xs → (addrs xs).getLast? = some b
  size : fifo.size = xs.length ∧ (fifo.tail = none → xs.length ≤ 1) ∨
    xs.length < fifo.size ∧ ∃ b, fifo.tail = some b ∧ b ∉ addrs xs

theorem fifoCreate_leads : fifoCreate.Leads tasks [] :=
  ⟨rfl, nofun, .inl ⟨rfl, fun _ => Nat.zero_le 1⟩⟩

theorem Fifo.Leads.set_frame (hq : Fifo.Leads tasks fifo xs) (ha : a ∉ addrs xs)
    (t : Option TaskT) : fifo.Leads (tasks.set a t) xs :=
  ⟨hq.chain.set_frame ha t, hq.last, hq.size⟩

theorem setTaskProximo_ok {tasks tasks' : Heap TaskT}
    (h : setTaskProximo tasks p proximo = .ok tasks') :
    ∃ a t, p = some a ∧ tasks.cell a = some t ∧
      tasks' = tasks.set a (some { t with proximo }) := by
  obtain ⟨t, hl, hs⟩ := seq_ok h
  obtain ⟨a, rfl, hc⟩ := Heap.load_ok hl
  rw [Heap.store_some hc] at hs
  cases hs
  exact ⟨a, t, rfl, hc, rfl⟩

theorem fifoAdd_ok {tasks tasks' : Heap TaskT} {fifo fifo' : Fifo}
    (h : fifoAdd tasks fifo task = .ok (tasks', fifo')) :
    fifo.size = 0 ∧ tasks' = tasks ∧ fifo' = { fifo with head := task, size := fifo.size + 1 } ∨
      fifo.size ≠ 0 ∧ fifo' = { fifo with tail := task, size := fifo.size + 1 } ∧
        ∃ b t, fifo.tail.or fifo.head = some b ∧ tasks.cell b = some t ∧
          tasks' = tasks.set b (some { t with proximo := task }) := by
  unfold fifoAdd at h
  split at h
  · rename_i hzero
    obtain ⟨size, hs, h⟩ := seq_ok h
    obtain ⟨-, rfl⟩ := checkInt_ok hs
    cases h
    exact .inl ⟨hzero, rfl, rfl⟩
  · rename_i hzero
    split at h
    · rename_i hnull
      obtain ⟨tasks₁, hset, h⟩ := seq_ok h
      obtain ⟨size, hs, h⟩ := seq_ok h
      obtain ⟨-, rfl⟩ := checkInt_ok hs
      obtain ⟨b, t, hb, hc, rfl⟩ := setTaskProximo_ok hset
      cases h
      exact .inr ⟨hzero, rfl, b, t, by rw [hnull, Option.none_or, hb], hc, rfl⟩
    · obtain ⟨tasks₁, hset, h⟩ := seq_ok h
      obtain ⟨size, hs, h⟩ := seq_ok h
      obtain ⟨-, rfl⟩ := checkInt_ok hs
      obtain ⟨b, t, hb, hc, rfl⟩ := setTaskProximo_ok hset
      cases h
      exact .inr ⟨hzero, rfl, b, t, by rw [hb, Option.some_or], hc, rfl⟩

theorem fifoAdd_size {tasks tasks' : Heap TaskT} {fifo fifo' : Fifo}
    (h : fifoAdd tasks fifo task = .ok (tasks', fifo')) : fifo'.size = fifo.size + 1 := by
  rcases fifoAdd_ok h with ⟨-, -, rfl⟩ | ⟨-, rfl, -⟩
  · rfl
  · rfl

theorem fifoAdd_cells {tasks tasks' : Heap TaskT}
    (h : fifoAdd tasks fifo task = .ok (tasks', fifo')) (hc : tasks'.cell a = some t) :
    ∃ v, tasks.cell a = some v ∧ t = { v with proximo := t.proximo } := by
  rcases fifoAdd_ok h with ⟨-, rfl, -⟩ | ⟨-, -, b, v, -, hb, rfl⟩
  · exact ⟨t, hc, rfl⟩
  · by_cases hab : a = b
    · subst hab
      rw [Heap.set_cell] at hc
      cases hc
      exact ⟨v, hb, rfl⟩
    · rw [Heap.set_cell_ne _ _ hab] at hc
      exact ⟨t, hc, rfl⟩

theorem link_last {tasks : Heap TaskT} (hl : Linked taskShape tasks p (ys ++ [(b, n)]) none)
    (hb : tasks.cell b = some v) (hc : tasks.cell a = some t) (ha : a ∉ addrs (ys ++ [(b, n)]))
    (hp : t.proximo = none) :
    Linked taskShape (tasks.set b (some { v with proximo := some a })) p
      (ys ++ [(b, n)] ++ [(a, t.opN)]) none := by
  have hnd := hl.nodup
  simp only [addrs_append, addrs_cons, addrs_nil, List.mem_append, List.mem_singleton,
    not_or] at ha hnd
  obtain ⟨w, hw, hi, -⟩ := hl.next_last
  rw [hb] at hw
  cases hw
  rw [List.append_assoc]
  refine hl.extend (v := { v with proximo := some a }) hi rfl ?_ hp (Heap.set_cell ..) ?_
  · rw [Heap.set_cell_ne _ _ ha.2, hc]
  · rintro d hd
    refine Heap.set_cell_ne _ _ ?_
    rintro rfl
    rw [List.nodup_append] at hnd
    exact hnd.2.2 d hd d (List.mem_singleton_self d) rfl

theorem Fifo.Leads.lastMet (hq : Fifo.Leads tasks fifo xs)
    (hb : fifo.tail.or fifo.head = some b) (hmem : b ∈ addrs xs) :
    fifo.size = xs.length ∧ ∃ ys n, xs = ys ++ [(b, n)] := by
  obtain ⟨hchain, hlast, hsize⟩ := hq
  have hend : (addrs xs).getLast? = some b ∧ fifo.size = xs.length := by
    cases htail : fifo.tail with
    | some c =>
      rw [htail, Option.some_or] at hb
      cases hb
      refine ⟨hlast b htail hmem, ?_⟩
      rcases hsize with ⟨hcount, -⟩ | ⟨-, c, hc, hout⟩
      · exact hcount
      · rw [htail] at hc
        cases hc
        exact absurd hmem hout
    | none =>
      rw [htail, Option.none_or] at hb
      rcases hsize with ⟨hcount, hone⟩ | ⟨-, c, hc, -⟩
      · refine ⟨?_, hcount⟩
        obtain ⟨x, rfl⟩ : ∃ x, xs = [x] := by
          have hpos : xs.length ≠ 0 := by
            rintro hnil
            rw [List.length_eq_zero_iff.mp hnil] at hmem
            nomatch hmem
          rw [← List.length_eq_one_iff]
          have := hone htail
          omega
        rw [List.mem_singleton.mp hmem]
        rfl
      · rw [htail] at hc
        cases hc
  refine ⟨hend.2, ?_⟩
  rcases List.eq_nil_or_concat xs with rfl | ⟨ys, ⟨c, n⟩, rfl⟩
  · nomatch hmem
  · have hc : c = b := by simpa [addrs] using hend.1
    subst hc
    exact ⟨ys, n, List.concat_eq_append⟩

/-- A task that holds NULL in its link is met last, or not at all: where the
tail pointer leads to none of the tasks met before. -/
theorem fifoAdd_leads {tasks : Heap TaskT} {fifo : Fifo} (hq : fifo.Leads tasks xs)
    (hc : tasks.cell a = some t) (ha : a ∉ addrs xs) (hp : t.proximo = none)
    (h : fifoAdd tasks fifo (some a) = .ok (tasks', fifo')) :
    fifo.size = xs.length ∧ fifo'.Leads tasks' (xs ++ [(a, t.opN)]) ∨
      fifo'.Leads tasks' xs ∧ ∃ b, fifo.tail = some b ∧ b ∉ addrs xs := by
  obtain ⟨hchain, hlast, hsize⟩ := hq
  rcases fifoAdd_ok h with ⟨hzero, rfl, rfl⟩ | ⟨hzero, rfl, b, v, hb, hv, rfl⟩
  · have hnil : xs = [] := by
      rw [← List.length_eq_zero_iff]
      omega
    subst hnil
    refine .inl ⟨hzero, ⟨rfl, t, hc, rfl, hp⟩, fun b _ hb => ?_, .inl ⟨?_, fun _ => Nat.le_refl 1⟩⟩
    · rw [List.mem_singleton.mp hb]
      rfl
    · simp [hzero]
  · by_cases hmem : b ∈ addrs xs
    · obtain ⟨hcount, ys, n, rfl⟩ := Fifo.Leads.lastMet ⟨hchain, hlast, hsize⟩ hb hmem
      refine .inl ⟨hcount, link_last hchain hv hc ha hp, fun d hd _ => ?_, .inl ⟨?_, nofun⟩⟩
      · cases hd
        simp
      · simp only [hcount, List.length_append, List.length_singleton]
        omega
    · obtain ⟨c, htail⟩ : ∃ c, fifo.tail = some c := by
        rcases hsize with ⟨hcount, -⟩ | ⟨-, c, htail, -⟩
        · cases htail : fifo.tail with
          | some c => exact ⟨c, rfl⟩
          | none =>
            rw [htail, Option.none_or] at hb
            cases xs with
            | nil => exact absurd hcount hzero
            | cons x xs =>
              have hx := hchain.1
              rw [hb] at hx
              cases hx
              exact absurd (List.mem_cons_self ..) hmem
        · exact ⟨c, htail⟩
      rw [htail, Option.some_or] at hb
      cases hb
      refine .inr ⟨⟨hchain.set_frame hmem _, fun d hd hd' => ?_, .inr ⟨?_, a, rfl, ha⟩⟩, b, htail,
        hmem⟩
      · cases hd
        exact absurd hd' ha
      · dsimp only
        omega

theorem pop_ok {tasks : Heap TaskT} {fifo fifo' : Fifo} (hp : 0 < fifo.size)
    (h : pop tasks fifo = .ok (ret, fifo')) :
    ∃ a t, ret = some a ∧ fifo.head = some a ∧ tasks.cell a = some t ∧
      fifo' = { fifo with head := t.proximo, size := fifo.size - 1 } := by
  have hpos : ¬ fifo.size ≤ 0 := by omega
  simp only [pop, hpos, ↓reduceIte] at h
  obtain ⟨t, hl, h⟩ := seq_ok h
  obtain ⟨size, hs, h⟩ := seq_ok h
  obtain ⟨a, ha, hc⟩ := Heap.load_ok hl
  cases h
  exact ⟨a, t, ha, ha, hc, by rw [(checkInt_ok hs).2]⟩

theorem pop_leads {tasks : Heap TaskT} {fifo fifo' : Fifo} (hq : fifo.Leads tasks xs)
    (hp : 0 < fifo.size) (h : pop tasks fifo = .ok (ret, fifo')) :
    ∃ a t ys, xs = (a, t.opN) :: ys ∧ ret = some a ∧ tasks.cell a = some t ∧ a ∉ addrs ys ∧
      fifo'.Leads tasks ys := by
  obtain ⟨a, t, rfl, hhead, hc, rfl⟩ := pop_ok hp h
  obtain ⟨hchain, hlast, hsize⟩ := hq
  cases xs with
  | nil =>
    rw [show fifo.head = none from hchain] at hhead
    nomatch hhead
  | cons x xs =>
    have hnd := hchain.nodup
    obtain ⟨hx, v, hv, hi, hrest⟩ := hchain
    rw [hhead] at hx
    cases hx
    rw [hc] at hv
    cases hv
    have hnumber : t.opN = x.2 := hi
    refine ⟨x.1, t, xs, by rw [hnumber], rfl, hc, (List.nodup_cons.mp hnd).1, hrest, ?_, ?_⟩
    · intro b hb hmem
      have hl := hlast b hb (List.mem_cons_of_mem _ hmem)
      cases xs with
      | nil => nomatch hmem
      | cons y ys => simpa [List.getLast?_cons] using hl
    · rcases hsize with ⟨hcount, hone⟩ | ⟨hlt, b, hb, hout⟩
      · refine .inl ⟨by simp [hcount], fun htail => ?_⟩
        have := hone htail
        simp at this
        simp [this]
      · refine .inr ⟨?_, b, hb, fun hmem => hout (List.mem_cons_of_mem _ hmem)⟩
        rw [List.length_cons] at hlt
        dsimp only
        omega

end HashMapStorage
