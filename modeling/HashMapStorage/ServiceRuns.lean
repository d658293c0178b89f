import HashMapStorage.Serving

/-!
# The server refines a deferred store

Whatever the clients ask and however the two threads interleave, as long as the
worker's calls find what they need the server's history is one of the store: the
table holds what the first writes make of the empty map, as many as have been
executed, and `op_count` says how many of these are confirmed.
-/

namespace HashMapStorage

open Machine

-- ---------------------------------------------------------------------------
-- The numbers
-- ---------------------------------------------------------------------------

namespace Skel

variable {s s' : Skel}

theorem Tracked.next (h : s.Tracked k xs) (hpc : s.worker = .execute a)
    (hc : s.tasks.cell a = some task) : task.opN = s.executed.length := by
  have hworker := h.worker
  rw [hpc] at hworker
  obtain ⟨-, task', hc', hexecuted⟩ := hworker
  rw [hc] at hc'
  cases hc'
  exact (concat_numbersBelow hexecuted).2.1

theorem Tracked.uncounted (h : s.Tracked k xs) (hpc : s.worker = .finish a) :
    s.opCount + 1 = s.executed.length := by
  have hworker := h.worker
  have hpopped := h.popped
  rw [hpc] at hworker hpopped
  rw [hworker.2, numbersBelow_length]
  exact hpopped

/-- Whatever the worker is at, `verify` goes by `op_count`: the tasks in the
queue have numbers from there on. -/
theorem Tracked.verify_counts (h : s.Tracked k xs) (op_n : Int) :
    s.verify op_n = .ok (if 0 ≤ op_n ∧ op_n < s.opCount then 0 else -1) := by
  have hfuel : xs.length < s.tasks.top + 1 := Nat.lt_succ_of_le h.leads.chain.length_le_top
  have hpending : 0 ≤ s.worker.pending := by cases s.worker <;> simp [WorkerPc.pending]
  have hpopped := h.popped
  rw [Skel.verify, verifyLoop_of h.leads.chain hfuel, ok_bind]
  by_cases hfound : op_n ∈ xs.map Prod.snd
  · have hnext : (k : Int) ≤ op_n := by
      rw [h.numbers] at hfound
      obtain ⟨i, hi, rfl⟩ := List.mem_map.mp hfound
      exact Int.ofNat_le.mpr (List.mem_range'_1.mp hi).1
    have hnot : ¬ (0 ≤ op_n ∧ op_n < s.opCount) := by omega
    simp only [hfound, decide_true, ↓reduceIte, pure_eq_ok, hnot]
  · simp only [hfound, decide_false, Bool.false_eq_true, ↓reduceIte]
    by_cases hcounted : 0 ≤ op_n ∧ op_n < s.opCount
    · rw [if_neg (by omega), if_pos hcounted]
      rfl
    · rw [if_pos (by omega), if_neg hcounted]
      rfl

end Skel

-- ---------------------------------------------------------------------------
-- The simulation
-- ---------------------------------------------------------------------------

theorem TableT.Keeps.lookup {table : TableT} (h : table.Keeps m) (key : Option CStr) :
    (key.bind fun key => if Hashed table.countLists key then m key else none) = key.bind m := by
  cases key with
  | none => rfl
  | some key =>
    by_cases hk : Hashed table.countLists key
    · simp [hk]
    · have hnone : m key = none := by
        by_contra hsome
        exact hk (h.placed key (Option.isSome_iff_ne_none.mpr hsome))
      simp [hnone]

namespace Server

variable {s s' : Server} {t : Skel} {d : Deferred Fields}

/-- The store that the server is: what it has accepted, executed and counted,
and the table it has made of that. -/
structure Reflects (s : Server) (d : Deferred Fields) : Prop where
  serving : s.Serving
  tracked : ∃ k xs, s.Tracked k xs
  log : d.log = s.writes.map Write.request
  applied : d.applied = s.executed.length
  confirmed : (d.confirmed : Int) = s.opCount
  table : s.destroyed = false →
    ∃ table, s.table = some table ∧ table.Keeps (d.state tableStore)

theorem Reflects.step_tracked (h : s.Reflects d) (hb : s.freshNull b = true)
    (ht : s.toSkel.step b = some t) (hdone : t.main ≠ .done) : ∃ k xs, t.Tracked k xs := by
  obtain ⟨k, xs, htracked⟩ := h.tracked
  have hsound := h.serving.closable.sound
  exact (htracked.step hsound.locked hsound.counted hb (Skel.step_change ht)).resolve_left hdone

theorem Reflects.quiet (h : s.Reflects d) (hserving : s'.Serving)
    (htracked : ∃ k xs, s'.Tracked k xs)
    (hlog : s'.writes.map Write.request = s.writes.map Write.request)
    (hexecuted : s'.executed = s.executed) (hcount : s'.opCount = s.opCount)
    (htable : s'.table = s.table) (hlive : s'.destroyed = false → s.destroyed = false) :
    s'.Reflects d := by
  refine ⟨hserving, htracked, h.log.trans hlog.symm, ?_, ?_, fun hd => ?_⟩
  · rw [hexecuted, h.applied]
  · rw [hcount, h.confirmed]
  · rw [htable]
    exact h.table (hlive hd)

theorem marked_requests (ws : List Write) (h : Strings) :
    (ws.map fun w => w.after h).map Write.request = ws.map Write.request := by
  rw [List.map_map]
  rfl

theorem Reflects.reads (h : s.Reflects d) (hmain : s.main.closing = false) :
    ∃ table, s.table = some table ∧ table.Keeps (d.state tableStore) :=
  h.table (h.serving.alive hmain)

theorem Reflects.enqueue {m : Malloc TaskT} (h : s.Reflects d) (hserving : s'.Serving)
    (htracked : ∃ k xs, s'.Tracked k xs) (ht : s.toSkel.step (.enqueue m) = some t)
    (hs' : s' = marked ⟨t, s.netAfter (.enqueue m), s.received, s.writesAfter (.enqueue m)⟩) :
    s'.Reflects (d.accept s.received) := by
  have hcount := h.serving.count
  cases Skel.step_change ht with
  | enqueue p put m msg tasks queue hpc hmsg hadd =>
    have hwrites : s.writesAfter (.enqueue m) =
        s.writes ++ [⟨s.received, msg.key, msg.data, false⟩] := by
      simp only [writesAfter, hpc, hmsg]
    subst hs'
    refine ⟨hserving, htracked, ?_, h.applied, h.confirmed, fun hlive => ?_⟩
    · rw [Server.marked, marked_requests, hwrites, List.map_append, Deferred.accept_log, h.log]
      rfl
    · rw [Deferred.state_accept]
      exact h.table hlive

theorem lasting_fresh (ha : s.lasting (.skel b)) : s.freshNull b = true := by
  rcases ha with horderly | houtlasts
  · simp only [orderly, Bool.and_eq_true] at horderly
    exact horderly.2.1
  · cases b with
    | execute => rfl
    | _ => exact houtlasts.elim

/-- What the worker's call leaves holds what the store shows after the write. -/
theorem Reflects.works {i : Nat} {w : Write} (h : s.Reflects d) (hpc : s.worker = .execute a)
    (hc : s.tasks.cell a = some task) (hnumber : task.opN = i) (hw : s.writes[i]? = some w)
    (hcarried : w.CarriedBy task) (ha : s.lasting (.skel (.execute m undefined))) :
    ∃ table', s.tableAfter task m undefined = some table' ∧
      table'.Keeps ((d.state tableStore).write w.request) := by
  have hindex : task.opN.toNat = i := by omega
  rcases ha with horderly | ⟨hlive, a', task', w', table, strings, table', hpc', hc', hw', htable,
    -, hwhole, hlinkable, hcall, hafter⟩
  · simp only [orderly, unreleased, hpc, hc, Option.all_some, hindex, hw, Bool.and_eq_true,
      Bool.not_eq_true', Skel.worksInPlace] at horderly
    obtain ⟨hreleased, -, hplace⟩ := horderly
    have hwhole := h.serving.whole w (List.mem_of_getElem? hw) hreleased
    obtain ⟨table, htable⟩ := Option.isSome_iff_exists.mp h.serving.closable.table
    simp only [htable, hc, Option.all_some, Bool.and_eq_true, Bool.not_eq_true'] at hplace
    obtain ⟨hlive, hok, hlinkable⟩ := hplace
    obtain ⟨table₁, htable₁, hkeeps⟩ := h.table hlive
    rw [htable] at htable₁
    cases htable₁
    cases hcall : executeTask table s.mem.strings task m with
    | error e =>
      rw [hcall] at hok
      cases hok
    | ok table' =>
      exact ⟨table', by simp [Skel.tableAfter, htable, hlive, hcall],
        executeTask_writes hkeeps hwhole hcarried hlinkable hcall⟩
  · rw [hpc] at hpc'
    cases hpc'
    rw [hc] at hc'
    cases hc'
    rw [hindex, hw] at hw'
    cases hw'
    obtain ⟨table₁, htable₁, hkeeps⟩ := h.table hlive
    rw [htable] at htable₁
    cases htable₁
    exact ⟨table', hafter, executeTask_writes hkeeps hwhole hcarried hlinkable hcall⟩

theorem Reflects.execute (h : s.Reflects d) (hserving : s'.Serving)
    (htracked : ∃ k xs, s'.Tracked k xs) (ha : s.lasting (.skel (.execute m undefined)))
    (ht : s.toSkel.step (.execute m undefined) = some t)
    (hs' : s' = marked ⟨t, s.net, s.received, s.writes⟩) :
    ∃ hlt : d.applied < d.log.length, s'.Reflects (d.apply hlt) ∧
      s'.executed = s.executed ++ [(d.applied : Int)] := by
  obtain ⟨k, xs, hold⟩ := h.tracked
  cases Skel.step_change ht with
  | @execute a task _ _ hpc hc =>
    have hnumber := hold.next hpc hc
    obtain ⟨i, w, hi, hw, hcarried⟩ := h.serving.filed.tasks a task hc
    obtain rfl : i = s.executed.length := by omega
    obtain ⟨table', hafter, hkeeps'⟩ := h.works hpc hc hnumber hw hcarried ha
    have hlt : d.applied < d.log.length := by
      rw [h.applied, h.log, List.length_map]
      exact lt_of_getElem? hw
    have hrequest : d.log[d.applied] = w.request := by
      have hget : d.log[d.applied]? = some w.request := by
        rw [h.log, h.applied, List.getElem?_map, hw, Option.map_some]
      exact (List.getElem?_eq_some_iff.mp hget).2
    subst hs'
    refine ⟨hlt, ⟨hserving, htracked, ?_, ?_, h.confirmed, fun _ => ⟨table', hafter, ?_⟩⟩, ?_⟩
    · rw [Server.marked, marked_requests, Deferred.apply_log, h.log]
    · simp [Server.marked, h.applied]
    · rw [Deferred.state_apply, hrequest]
      exact hkeeps'
    · simp [Server.marked, hnumber, h.applied]

theorem Reflects.finish (h : s.Reflects d) (hserving : s'.Serving)
    (htracked : ∃ k xs, s'.Tracked k xs) (ht : s.toSkel.step .finish = some t)
    (hs' : s' = marked ⟨t, s.net, s.received, s.writes⟩) :
    ∃ hlt : d.confirmed < d.applied, s'.Reflects (d.confirm hlt) := by
  obtain ⟨k, xs, hold⟩ := h.tracked
  have hconfirmed := h.confirmed
  cases Skel.step_change ht with
  | finish hpc hc =>
    have huncounted := hold.uncounted hpc
    have hlt : d.confirmed < d.applied := by
      rw [h.applied]
      omega
    subst hs'
    refine ⟨hlt, hserving, htracked, ?_, h.applied, ?_, h.table⟩
    · exact h.log.trans (marked_requests ..).symm
    · simp [Server.marked, hconfirmed]

theorem Reflects.message (h : s.Reflects d) (hnet : s.net = .received p) :
    ∃ message, s.messages.cell p = some message ∧ s.AsReceived message := by
  have hunaltered := h.serving.unaltered
  unfold Unaltered at hunaltered
  rw [hnet] at hunaltered
  exact hunaltered

theorem valueOf_holds {msg : MessageT} (hv : msg.HoldsValue s.mem.strings value) :
    s.valueOf msg = value := by
  cases hv with
  | none _ hd => simp [valueOf, hd, blockOrNull]
  | some hb => simp [valueOf, hb]

theorem Reflects.answers (h : s.Reflects d) (hnet : s.net = .received p)
    (ht : s.toSkel.step (.invoke (some p) data string) = some t)
    (hmessages : s'.messages = t.messages) (hmem : s'.mem = t.mem) :
    Accepts (Deferred.Next tableStore) d (s.answers s' p) d := by
  obtain ⟨message, hc, hm⟩ := h.message hnet
  have hidle : s.main.closing = false := by
    cases Skel.step_change ht with
    | invoke _ _ _ _ _ hpc =>
      rw [hpc]
      rfl
  obtain ⟨table, htable, hkeeps⟩ := h.reads hidle
  obtain ⟨table', htable', hinvoked⟩ := step_invoked ht h.serving.closable.table hc
  rw [htable] at htable'
  cases htable'
  obtain ⟨keys, hlists, hsize, -⟩ := hkeeps.lists
  unfold Server.answers
  rw [hmessages, ← hm.opcode, ← hm.cType, ← hm.dataSize]
  cases hinvoked with
  | rejected hnot =>
    rw [show _ = some message from hc]
    simp only [MessageT.admitted, not_not] at hnot
    dsimp only
    rw [if_pos hnot]
    exact .nil
  | write put hok hop =>
    rw [show _ = some message from hc]
    dsimp only
    rw [if_neg hok, hop]
    cases put <;> exact .nil
  | size hok hop =>
    simp only [Skel.answer, Heap.set_cell]
    rw [if_neg hok, if_pos hop, invokeSize, hsize]
    exact .single (.read (.size hlists))
  | get msg' mem' hok hop hget =>
    simp only [Skel.answer, Heap.set_cell]
    rw [if_neg hok, hop, if_neg (by decide), if_pos rfl]
    obtain ⟨-, hvalue⟩ := invokeGet_answers hkeeps.maps hm.key.read hget
    rw [hkeeps.lookup] at hvalue
    have hanswer : s'.valueOf msg' = s.received.key.bind (d.state tableStore) :=
      valueOf_holds (hmem ▸ hvalue)
    rw [hanswer]
    exact .single (.read .get)
  | noKeys hok hop hzero =>
    simp only [Skel.answer, Heap.set_cell]
    rw [if_neg hok, hop, if_neg (by decide), if_neg (by decide), if_pos rfl]
    have hnone : ((0 : Nat) : Int) = keys.length := by
      rw [← hsize, hzero]
      rfl
    rw [hnone]
    exact .single (.read (.size hlists))
  | keys hok hop =>
    simp only [Heap.set_cell]
    rw [if_neg hok, hop, if_neg (by decide), if_neg (by decide), if_pos rfl]
    have hcount : (((tableSize table % 2 ^ 64).toNat : Nat) : Int) = keys.length := by
      have hfits : IsInt (tableSize table) := hkeeps.maps.fits
      simp only [IsInt, intMin, intMax] at hfits
      omega
    rw [hcount]
    exact .single (.read (.size hlists))
  | verify verificado hok hop hverify =>
    simp only [Skel.answer, Heap.set_cell]
    rw [if_neg hok, hop, if_neg (by decide), if_neg (by decide), if_neg (by decide), if_pos rfl]
    obtain ⟨k, xs, htracked⟩ := h.tracked
    have hasked : s.verify message.dataSize = .ok verificado := hverify
    rw [htracked.verify_counts, ← h.confirmed] at hasked
    cases hasked
    have hdone : decide ((if 0 ≤ message.dataSize ∧ message.dataSize < d.confirmed then (0 : Int)
        else -1) = 0) = decide (0 ≤ message.dataSize ∧ message.dataSize < d.confirmed) := by
      by_cases hcounted : 0 ≤ message.dataSize ∧ message.dataSize < d.confirmed <;>
        simp [hcounted]
    rw [hdone]
    exact .single (.ask _)
  | unknown hok hop =>
    simp only [Heap.set_cell]
    simp only [List.mem_cons, List.not_mem_nil, or_false, not_or] at hop
    rw [if_neg hok, if_neg hop.1, if_neg hop.2.2.1, if_neg hop.2.2.2.2.1, if_neg hop.2.2.2.2.2]
    exact .nil

theorem Reflects.lists (h : s.Reflects d) (ht : s.toSkel.step .getKeys = some t) :
    ∃ p keys, s.main = .getKeys p ∧ t.main = .copyKeys p (chavesOf keys) ∧
      (d.state tableStore).Lists keys := by
  simp only [Skel.step, Skel.mainStep, Skel.workerStep, Option.or_none] at ht
  split at ht
  · rename_i table hpc htable
    obtain ⟨chaves, hcall, ht⟩ := Option.bind_eq_some_iff.mp ht
    cases ht
    have hcall := toOption_some.mp hcall
    obtain ⟨table', htable', hkeeps⟩ := h.reads (by rw [hpc]; rfl)
    rw [htable] at htable'
    cases htable'
    obtain ⟨keys, hlists, hsize, henum⟩ := hkeeps.lists
    have hroom : tableSize table < intMax := by
      obtain ⟨slots, hslots, -⟩ := seq_ok hcall
      have hint := (checkInt_ok hslots).1
      simp only [IsInt] at hint
      simp only [tableSize]
      omega
    rw [henum hroom] at hcall
    cases hcall
    exact ⟨_, keys, hpc, rfl, hlists⟩
  · cases ht

theorem Reflects.step (h : s.Reflects d) (ha : s.lasting a) (hs : s.step a = some s') :
    ∃ d', Accepts (Deferred.Next tableStore) d (s.shows a s') d' ∧ s'.Reflects d' := by
  have hserving := h.serving.step hs
  obtain ⟨b, t, net', received', writes', hplan, ht, hs'⟩ := step_plan hs
  have hmain : t.main ≠ .done := by
    have hdone := hserving.running.done
    subst hs'
    exact hdone
  cases hplan with
  | receive | drop | reject | reply | replyFails | release =>
    have htracked := h.step_tracked rfl ht hmain
    cases Skel.step_change ht
    subst hs'
    exact ⟨d, .nil, h.quiet hserving htracked (marked_requests ..) rfl rfl rfl id⟩
  | skel b hallows =>
    have htracked := h.step_tracked (lasting_fresh ha) ht hmain
    have hmemory : s'.messages = t.messages ∧ s'.mem = t.mem ∧ s'.main = t.main := by
      subst hs'
      exact ⟨rfl, rfl, rfl⟩
    have hstep := Skel.step_change ht
    cases hstep with
    | outside => cases hallows
    | send => exact (h.serving.closable.unsent ht).elim
    | @invoke msg data string messages messageServer mem request pc hpc hd =>
      obtain ⟨p, hnet, rfl⟩ := allows_invoke hallows
      refine ⟨d, h.answers hnet ht hmemory.1 hmemory.2.1, ?_⟩
      subst hs'
      exact h.quiet hserving htracked (marked_requests ..) rfl rfl rfl id
    | enqueue =>
      refine ⟨d.accept s.received, ?_, h.enqueue hserving (by subst hs'; exact htracked) ht hs'⟩
      have hnumber : s.lastAssigned = d.log.length := by
        rw [h.serving.count, h.log, List.length_map]
      rw [shows, hnumber]
      exact .single (.accept _)
    | execute =>
      obtain ⟨hlt, hreflects, hexecuted⟩ :=
        h.execute hserving (by subst hs'; exact htracked) ha ht hs'
      refine ⟨d.apply hlt, ?_, hreflects⟩
      rw [shows, hexecuted, List.drop_left]
      exact .single (.apply hlt)
    | finish =>
      obtain ⟨hlt, hreflects⟩ := h.finish hserving (by subst hs'; exact htracked) ht hs'
      refine ⟨d.confirm hlt, ?_, hreflects⟩
      rw [shows, ← h.confirmed]
      exact .single (.confirm hlt)
    | getKeys =>
      obtain ⟨p, keys, -, hpc, hlists⟩ := h.lists ht
      refine ⟨d, ?_, ?_⟩
      · rw [shows, hmemory.2.2, hpc]
        dsimp only
        rw [storedKeys_chavesOf]
        exact .single (.read (.keys hlists))
      · subst hs'
        exact h.quiet hserving htracked (marked_requests ..) rfl rfl rfl id
    | destroy =>
      subst hs'
      refine ⟨d, .nil, h.quiet hserving htracked (marked_requests ..) rfl rfl rfl fun hlive => ?_⟩
      have hnone : s.table.isSome = false := hlive
      rw [h.serving.closable.table] at hnone
      cases hnone
    | _ =>
      subst hs'
      exact ⟨d, .nil, h.quiet hserving htracked (marked_requests ..) rfl rfl rfl id⟩

end Server

end HashMapStorage
