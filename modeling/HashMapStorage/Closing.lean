import HashMapStorage.Delivery

/-!
# What shutting down touches

`table_skel_destroy` releases the table first and stops the worker afterwards,
so a worker that still finds a task in the queue works on a released table. And
when the worker leaves its loop it sends the message `invoke` was called with
last, which the network loop has released, if there was one at all.
-/

namespace HashMapStorage

open Machine

-- ---------------------------------------------------------------------------
-- The messages that are allocated
-- ---------------------------------------------------------------------------

theorem set_of_none {messages : Heap MessageT} (hc : messages.cell p = some msg)
    (hq : messages.cell q = none) (v : Option MessageT) : (messages.set p v).cell q = none := by
  rw [Heap.set_cell_ne _ _ (Heap.ne_of_free hc hq).symm, hq]

theorem releaseMessage_none (h : releaseMessage messages mem p = .ok (messages', mem'))
    (hq : messages.cell q = none) : messages'.cell q = none := by
  obtain ⟨message, hl, -⟩ := seq_ok h
  obtain ⟨a, rfl, -⟩ := Heap.load_ok hl
  obtain ⟨message, hc, rfl, -⟩ := releaseMessage_ok h
  exact set_of_none hc hq none

namespace Skel

variable {s s' : Skel}

theorem invoke_none {table : TableT} (h : s.invoke table p msg data string = .ok s')
    (hc : s.messages.cell p = some msg) (hq : s.messages.cell q = none) :
    s'.messages.cell q = none := by
  have hset : ∀ msg' : MessageT, (s.messages.set p (some msg')).cell q = none := fun _ =>
    set_of_none hc hq _
  unfold invoke at h
  split at h
  · cases h
    exact hq
  dsimp only at h
  split at h
  · cases h
    exact hset _
  split at h
  · cases h
    exact hq
  split at h
  · obtain ⟨⟨msg', mem⟩, -, h⟩ := seq_ok h
    cases h
    exact hset _
  split at h
  · cases h
    exact hq
  split at h
  · split at h <;> cases h <;> exact hset _
  split at h
  · obtain ⟨verificado, -, h⟩ := seq_ok h
    cases h
    exact hset _
  · cases h
    exact hset _

theorem sendMessage_none (h : s.sendMessage string sent = .ok s')
    (hq : s.messages.cell q = none) : s'.messages.cell q = none := by
  obtain ⟨msg, -, h⟩ := seq_ok h
  obtain ⟨⟨messageT, mem⟩, -, h⟩ := seq_ok h
  obtain ⟨f, -, h⟩ := seq_ok h
  cases sent with
  | true =>
    cases h
    exact hq
  | false =>
    obtain ⟨⟨messages, mem⟩, hrel, h⟩ := seq_ok h
    cases h
    exact releaseMessage_none hrel hq

theorem step_none (hs : s.step a = some s') (ha : ∀ messages mem, a ≠ .outside messages mem)
    (hq : s.messages.cell q = none) : s'.messages.cell q = none := by
  cases step_change hs with
  | outside messages mem => exact absurd rfl (ha messages mem)
  | @invoke msg data string messages messageServer mem request pc hpc =>
    simp only [step, mainStep, workerStep, Option.or_none, hpc] at hs
    split at hs
    · obtain ⟨message, hmsg, hs⟩ := Option.bind_eq_some_iff.mp hs
      exact invoke_none (toOption_some.mp hs) hmsg hq
    · cases hs
      exact hq
    · cases hs
  | @copyKeys p chaves m messages mem hpc =>
    simp only [step, mainStep, workerStep, Option.or_none, hpc] at hs
    split at hs
    · rename_i hp _
      cases hp
      obtain ⟨msg, hmsg, hs⟩ := Option.bind_eq_some_iff.mp hs
      obtain ⟨⟨msg', mem'⟩, -, hs⟩ := Option.bind_eq_some_iff.mp hs
      cases hs
      exact set_of_none hmsg hq _
    · cases hs
  | @send string sent messages mem hpc =>
    simp only [step, mainStep, workerStep, Option.none_or, hpc] at hs
    obtain ⟨t, hsend, hs⟩ := Option.bind_eq_some_iff.mp hs
    have hmessages : t.messages = messages := congrArg Skel.messages (Option.some.inj hs)
    have hnone := sendMessage_none (toOption_some.mp hsend) hq
    rwa [hmessages] at hnone
  | enqueue p put m msg tasks queue hpc hmsg => exact set_of_none hmsg hq _
  | _ => exact hq

end Skel

-- ---------------------------------------------------------------------------
-- The message in service is the only one
-- ---------------------------------------------------------------------------

def NetPc.message : NetPc → Ptr
  | .received p | .invoked p | .replied p => some p
  | .poll | .closed => none

def MainPc.closing : MainPc → Bool
  | .clearFlag | .stopSignal | .join | .deleteQueue | .done => true
  | _ => false

theorem dispatched_closing (h : Skel.dispatched write pc) : pc.closing = false := by
  cases pc <;> first | rfl | exact h.elim

def WorkerPc.executing : WorkerPc → Bool
  | .execute _ => true
  | _ => false

theorem executing_iff {pc : WorkerPc} : pc.executing = true ↔ ∃ a, pc = .execute a := by
  cases pc <;> simp [WorkerPc.executing]

namespace Server

variable {s s' : Server} {t : Skel} {messages : Heap MessageT} {mem : Mem} {net' : NetPc}
  {received' : Fields} {writes' : List Write}

structure Closable (s : Server) : Prop where
  sound : s.toSkel.Sound
  table : s.table.isSome
  messages : ∀ p, s.net.message ≠ some p → s.messages.cell p = none
  closing : s.main.closing = true → s.net = .closed

theorem Closable.outside (h : s.Closable)
    (hs : s.toSkel.step (.outside messages mem) = some t)
    (hm : ∀ p, net'.message ≠ some p → messages.cell p = none) :
    Closable ⟨t, net', received', writes'⟩ := by
  have hsound := h.sound.step hs
  cases Skel.step_change hs
  exact ⟨hsound, h.table, hm, nofun⟩

theorem Closable.released (h : s.Closable) (hnet : s.net.message = some p)
    (hrel : releaseMessage s.messages mem' (some p) = .ok (messages, mem)) :
    ∀ q, messages.cell q = none := by
  intro q
  obtain ⟨message, hc, rfl, -⟩ := releaseMessage_ok hrel
  by_cases hq : q = p
  · rw [hq, Heap.set_cell]
  · rw [Heap.set_cell_ne _ _ hq]
    refine h.messages q fun hp => hq ?_
    rw [hnet] at hp
    exact (Option.some.inj hp).symm

theorem Closable.skel (h : s.Closable) (ha : s.allows a = true) (hs : s.toSkel.step a = some t) :
    Closable ⟨t, s.netAfter a, s.received, writes'⟩ := by
  have hsound := h.sound.step hs
  have hold : ∀ q, s.net.message ≠ some q → t.messages.cell q = none := fun q hq =>
    Skel.step_none hs (by rintro messages mem rfl; cases ha) (h.messages q hq)
  cases Skel.step_change hs with
  | outside => cases ha
  | @invoke msg data string messages messageServer mem request pc hpc hd =>
    have hclosing := dispatched_closing hd
    refine ⟨hsound, h.table, ?_, fun hc => ?_⟩
    · obtain ⟨p, hnet, rfl⟩ := allows_invoke ha
      rw [hnet] at hold
      exact hold
    · rw [show pc.closing = true from hc] at hclosing
      cases hclosing
  | destroy hpc =>
    refine ⟨hsound, h.table, fun q _ => hold q ?_, fun _ => rfl⟩
    have hpoll : s.net = .poll := by simpa [allows] using ha
    rw [hpoll]
    exact (Option.some_ne_none q).symm
  | clearFlag hpc | stopSignal hpc | join hpc | deleteQueue _ _ hpc =>
    exact ⟨hsound, h.table, hold, fun _ => h.closing (by rw [hpc]; rfl)⟩
  | execute hpc hcell => exact ⟨hsound, by simpa [Skel.tableAfter] using h.table, hold, h.closing⟩
  | lock | enqueue | signal | unlock | getKeys | copyKeys =>
    exact ⟨hsound, h.table, hold, fun hc => (Bool.false_ne_true hc).elim⟩
  | _ => exact ⟨hsound, h.table, hold, h.closing⟩

theorem Closable.marked (h : s.Closable) : s.marked.Closable :=
  ⟨h.sound, h.table, h.messages, h.closing⟩

theorem Closable.step (h : s.Closable) (hs : s.step a = some s') : s'.Closable := by
  obtain ⟨b, t, net', received', writes', hplan, ht, rfl⟩ := step_plan hs
  refine Closable.marked ?_
  cases hplan with
  | receive f struct m hnet =>
    refine h.outside ht fun q hq => ?_
    have hne : q ≠ struct.addr s.messages := fun e => hq (congrArg some e.symm)
    simp only [Heap.alloc]
    rw [Heap.set_cell_ne _ _ hne, Heap.set_cell_ne _ _ hne]
    exact h.messages q (by rw [hnet]; exact (Option.some_ne_none q).symm)
  | skel a hallows => exact h.skel hallows ht
  | reply mem hnet => exact h.outside ht fun q hq => h.messages q (by rwa [hnet])
  | drop messages mem hnet hrel | reject messages mem hnet _ _ hrel
  | replyFails _ messages mem hnet _ _ hrel | release messages mem hnet hrel =>
    have hnone := h.released (by rw [hnet]; rfl) hrel
    exact h.outside ht fun q _ => hnone q

theorem Closable.unsendable (h : s.Closable) (hw : s.worker.stopped = true) (p : Nat) :
    s.messages.cell p = none := by
  have hstopping : s.main.stopping = true := by
    by_contra hnot
    have hrunning := (h.sound.stoppable (by simpa using hnot)).2
    rw [hw] at hrunning
    nomatch hrunning
  have hclosed := h.closing (by cases hpc : s.main <;> rw [hpc] at hstopping <;> first
    | rfl
    | nomatch hstopping)
  exact h.messages p (by rw [hclosed]; nofun)

-- ---------------------------------------------------------------------------
-- What the worker touches
-- ---------------------------------------------------------------------------

/-- The table the worker is about to work on has not been released, and the
message it is about to send exists. -/
structure TouchesLive (s : Server) : Prop where
  table : s.worker = .execute a → s.destroyed = false
  message : s.worker = .send → ∃ p, s.messageServer = some p ∧ s.messages.cell p ≠ none

/-- `table_skel_destroy` is not called while a popped task waits to be executed,
behind it the worker finds no task in the queue, and the worker does not find
the flag cleared. -/
def spares (s : Server) : ServerStep → Bool
  | .skel .destroy => !s.worker.executing
  | .skel .pop => !(s.destroyed && decide (s.queue.size > 0) && s.queue.head.isSome)
  | .skel .test => s.flag ≠ 0
  | _ => true

theorem touches_idle (he : s.worker.executing = false) (hs : s.worker ≠ .send) : s.TouchesLive := by
  refine ⟨fun hw => ?_, fun hw => absurd hw hs⟩
  rw [hw] at he
  nomatch he

theorem TouchesLive.frame (h : s.TouchesLive) (hdestroyed : t.destroyed = s.destroyed)
    (hworker : ∀ a, t.worker = .execute a → s.worker = .execute a) (hs : t.worker ≠ .send) :
    TouchesLive ⟨t, net', received', writes'⟩ :=
  ⟨fun hw => hdestroyed.trans (h.table (hworker _ hw)), fun hw => absurd hw hs⟩

theorem signalled_send (h : Skel.signalled pc = .send) : pc = .send := by
  cases pc <;> first | exact h | nomatch h

theorem signalled_execute (h : Skel.signalled pc = .execute a) : pc = .execute a := by
  cases pc <;> first | exact h | nomatch h

theorem Closable.idle (h : s.Closable) (hp : s.TouchesLive) : s.worker ≠ .send := by
  intro hw
  obtain ⟨p, -, hc⟩ := hp.message hw
  exact hc (h.unsendable (by rw [hw]; rfl) p)

theorem Closable.spared (h : s.Closable) (hp : s.TouchesLive) (ha : s.allows a = true)
    (hs : s.toSkel.step a = some t) :
    TouchesLive ⟨t, net', received', writes'⟩ ↔ s.spares (.skel a) = true := by
  have hidle := h.idle hp
  have hold : t.destroyed = s.destroyed → (∀ a, t.worker = .execute a → s.worker = .execute a) →
      t.worker ≠ .send → TouchesLive ⟨t, net', received', writes'⟩ := hp.frame
  cases Skel.step_change hs with
  | outside => nomatch ha
  | enter hpc hflag =>
    exact iff_of_true (touches_idle rfl nofun) (by simpa [spares] using hflag)
  | exit hpc hflag =>
    refine iff_of_false (fun hl => ?_) (by simp [spares, hflag])
    obtain ⟨p, -, hc⟩ := hl.message rfl
    have hleft : Closable ⟨_, s.netAfter _, s.received, s.writes⟩ := h.skel ha hs
    exact hc (hleft.unsendable rfl p)
  | pop queue hpc hpos hpop =>
    obtain ⟨b, task, -, hhead, -, -⟩ := pop_ok hpos hpop
    have hspares : s.spares (.skel .pop) = !s.destroyed := by simp [spares, hpos, hhead]
    rw [hspares, Bool.not_eq_true']
    exact ⟨fun hl => hl.table rfl, fun hlive => ⟨fun _ => hlive, nofun⟩⟩
  | skip hpc hnone =>
    refine iff_of_true (touches_idle rfl nofun) ?_
    simp only [spares, Bool.not_eq_true', Bool.and_eq_false_iff, decide_eq_false_iff_not]
    by_cases hpos : s.queue.size > 0
    · exact .inr (by simpa using fun hhead => hnone ⟨hpos, hhead⟩)
    · exact .inl (.inr hpos)
  | destroy hpc =>
    simp only [spares, Bool.not_eq_true']
    constructor
    · intro hl
      rw [← Bool.not_eq_true]
      intro he
      obtain ⟨b, hw⟩ := executing_iff.mp he
      have hlive : s.table.isSome = false := hl.table hw
      rw [h.table] at hlive
      nomatch hlive
    · exact fun he => touches_idle he hidle
  | signal | stopSignal =>
    refine iff_of_true (hold rfl (fun a hw => signalled_execute hw) ?_) rfl
    exact fun hw => hidle (signalled_send hw)
  | acquire | wait | look | wake | reacquire | execute | finish | leave =>
    exact iff_of_true (touches_idle rfl nofun) rfl
  | send _ _ hpc => exact absurd hpc hidle
  | _ => exact iff_of_true (hold rfl (fun a hw => hw) hidle) rfl

theorem Closable.touches (h : s.Closable) (hp : s.TouchesLive) (hs : s.step a = some s') :
    s'.Closable ∧ (s'.TouchesLive ↔ s.spares a = true) := by
  refine ⟨h.step hs, ?_⟩
  obtain ⟨b, t, net', received', writes', hplan, ht, rfl⟩ := step_plan hs
  have hmarked : (Server.marked ⟨t, net', received', writes'⟩).TouchesLive ↔
      TouchesLive ⟨t, net', received', writes'⟩ :=
    ⟨fun ⟨htable, hmessage⟩ => ⟨htable, hmessage⟩, fun ⟨htable, hmessage⟩ => ⟨htable, hmessage⟩⟩
  rw [hmarked]
  have hidle := h.idle hp
  cases hplan with
  | skel a hallows => exact h.spared hp hallows ht
  | receive | drop | reject | reply | replyFails | release =>
    cases Skel.step_change ht
    exact iff_of_true (hp.frame rfl (fun _ hw => hw) hidle) rfl

end Server

theorem init_closable {s : Server} (hi : serverInit n_lists mem = some s) :
    s.Closable ∧ s.TouchesLive := by
  obtain ⟨skel, hskel, hi⟩ := Option.bind_eq_some_iff.mp hi
  have hsound := init_sound hskel
  unfold tableSkelInit at hskel
  split at hskel
  · cases hskel
  · rename_i hn
    cases hskel
    cases hi
    refine ⟨⟨hsound, ?_, fun _ _ => rfl, nofun⟩, nofun, nofun⟩
    have hpos : ¬ n_lists ≤ 0 := by omega
    simp [tableCreate, hpos]

/-- A run touches only what is there exactly if the worker finds no task once
the table is released and never gets out of its loop: what it would send there
never exists. -/
theorem shutdown_touches_live {s : Server} (hi : serverInit n_lists mem = some s₀)
    (hr : run Server.step s₀ as = some s) :
    Throughout Server.step Server.TouchesLive s₀ as ↔
      Along Server.step (fun s a => s.spares a = true) s₀ as :=
  throughout_iff_along (fun _ _ _ h hp hs => h.touches hp hs) (init_closable hi).1
    (init_closable hi).2 hr

def stopRound : List ServerStep :=
  [.skel .destroy, .skel .clearFlag, .skel .stopSignal]

def idleRun : List ServerStep :=
  writeCall 0 opPut ++ popRound ++ executeRound ++ replyRound ++ popRound.take 3 ++ stopRound ++
    [.skel .reacquire, .skel .pop, .skel .leave]

theorem shutdown_touches_live_idle : ∃ s, run Server.step oneListServer idleRun = some s ∧
    s.main = .join ∧ Throughout Server.step Server.TouchesLive oneListServer idleRun := by
  have hi : serverInit 1 ⟨.empty, .empty⟩ = some oneListServer := rfl
  have ha : Along Server.step (fun s a => s.spares a = true) oneListServer idleRun := by
    decide +kernel
  have hmain : (run Server.step oneListServer idleRun).map (·.main) = some .join := by
    decide +kernel
  obtain ⟨s, hr, hs⟩ := Option.map_eq_some_iff.mp hmain
  exact ⟨s, hr, hs, (shutdown_touches_live hi hr).mpr ha⟩

def Server.touched (s : Server) : WorkerPc × Bool × Option Bool :=
  (s.worker, s.destroyed, s.messageServer.map fun p => (s.messages.cell p).isSome)

/-- A task is left when the table is released; and the worker leaves its loop
after no request at all, or after one that has been answered. -/
theorem shutdown_touches_dead :
    (∃ s, run Server.step oneListServer
        (writeCall 0 opPut ++ replyRound ++ [.skel .destroy] ++ popRound) = some s ∧
      ¬ s.TouchesLive) ∧
    (∃ s, run Server.step oneListServer (stopRound ++ [.skel .test]) = some s ∧
      ¬ s.TouchesLive) ∧
    ∃ s, run Server.step oneListServer (writeCall 0 opPut ++ popRound ++ executeRound ++
        replyRound ++ stopRound ++ [.skel .test]) = some s ∧ ¬ s.TouchesLive := by
  have hleft : (run Server.step oneListServer
      (writeCall 0 opPut ++ replyRound ++ [.skel .destroy] ++ popRound)).map Server.touched =
        some (.execute 0, true, some false) := by
    decide +kernel
  have hnone : (run Server.step oneListServer (stopRound ++ [.skel .test])).map Server.touched =
      some (.send, true, none) := by
    decide +kernel
  have hgone : (run Server.step oneListServer (writeCall 0 opPut ++ popRound ++ executeRound ++
      replyRound ++ stopRound ++ [.skel .test])).map Server.touched =
        some (.send, true, some false) := by
    decide +kernel
  refine ⟨?_, ?_, ?_⟩
  · obtain ⟨s, hr, hs⟩ := Option.map_eq_some_iff.mp hleft
    simp only [Server.touched, Prod.mk.injEq] at hs
    refine ⟨s, hr, fun h => ?_⟩
    rw [h.table hs.1] at hs
    nomatch hs.2.1
  · obtain ⟨s, hr, hs⟩ := Option.map_eq_some_iff.mp hnone
    simp only [Server.touched, Prod.mk.injEq] at hs
    refine ⟨s, hr, fun h => ?_⟩
    obtain ⟨p, hp, -⟩ := h.message hs.1
    rw [hp] at hs
    nomatch hs.2.2
  · obtain ⟨s, hr, hs⟩ := Option.map_eq_some_iff.mp hgone
    simp only [Server.touched, Prod.mk.injEq] at hs
    refine ⟨s, hr, fun h => ?_⟩
    obtain ⟨p, hp, hc⟩ := h.message hs.1
    rw [hp] at hs
    simp [hc] at hs

end HashMapStorage
