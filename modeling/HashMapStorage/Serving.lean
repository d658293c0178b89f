import HashMapStorage.Closing
import HashMapStorage.Service

/-!
# What the server keeps while it serves

In every run, whatever is requested: the message in service is as it was
received until its write is queued, the blocks of a write are as received until
they are released, and each task carries the write that has its number.
-/

namespace HashMapStorage

open Machine

-- ---------------------------------------------------------------------------
-- The write that the worker executes
-- ---------------------------------------------------------------------------

theorem tablePut_linked {table : TableT} {value : DataT} (ht : table.Maps m)
    (hk : Hashed table.countLists key) (hl : linkable table key = true)
    (hp : 0 < value.datasize) (hd : value.data ≠ none)
    (h : tablePut table (some key) (some value) mem = .ok (result, table')) :
    table'.Maps (Function.update m key (some value.bytes)) ∧
      table'.countLists = table.countLists := by
  have hcall := h
  rw [tablePut_eq ht.some_list] at hcall
  obtain ⟨copy, hdup, hadd⟩ := seq_ok hcall
  have hstored : copy ≠ none ∧ value.Valid ∧ value.datasize ≤ sizeofDataT := by
    obtain ⟨source, hb⟩ := Option.ne_none_iff_exists'.mp hd
    by_cases hs : value.datasize.toNat ≤ sizeofDataT ∧ value.datasize.toNat ≤ source.length
    · have hvalid : value.Valid := ⟨hp, source, hb, hs.2⟩
      have hfits : value.datasize ≤ sizeofDataT := by omega
      rw [dataDup_fits hvalid hfits] at hdup
      cases hdup
      exact ⟨Option.some_ne_none _, hvalid, hfits⟩
    · rw [dataDup_overflows hp hb hs] at hdup
      cases hdup
  obtain ⟨hcopy, hvalid, hfits⟩ := hstored
  obtain ⟨copy, rfl⟩ := Option.ne_none_iff_exists'.mp hcopy
  have happ := appendable_of_linkable ht hk hl (tableAddEntry_room hadd)
  obtain ⟨t, hput, ht', hcount⟩ := tablePut_maps ht hk hvalid hfits happ mem
  rw [hput] at h
  cases h
  exact ⟨ht', hcount⟩

def Contents.Placed (m : Contents) (n : Int) : Prop := ∀ key, (m key).isSome → Hashed n key

theorem Contents.Placed.update {m : Contents} (h : m.Placed n) (hk : Hashed n key)
    (value : Option (List UInt8)) : Contents.Placed (Function.update m key value) n := by
  intro key' hsome
  by_cases he : key' = key
  · exact he ▸ hk
  · rw [Function.update_of_ne he] at hsome
    exact h key' hsome

structure TableT.Keeps (table : TableT) (m : Contents) : Prop where
  maps : table.Maps m
  placed : m.Placed table.countLists

theorem executeTask_writes {table table' : TableT} {w : Write} (ht : table.Keeps m)
    (hw : w.Whole strings) (hc : w.CarriedBy task) (hl : task.linkable table strings = true)
    (h : executeTask table strings task mem = .ok table') : table'.Keeps (m.write w.request) := by
  obtain ⟨hm, hplaced⟩ := ht
  obtain ⟨key, hkey, h⟩ := seq_ok h
  rw [hc.key, hw.key.read] at hkey
  cases hkey
  cases hk : w.request.key with
  | none =>
    have hsame : table' = table := by
      rw [hk] at h
      split at h
      · cases h
        rfl
      · obtain ⟨data, -, h⟩ := seq_ok h
        cases h
        rfl
    rw [hsame, Contents.write, hk]
    exact ⟨hm, hplaced⟩
  | some key =>
    simp only [TaskT.linkable, hc.key, hw.key.read, hk, Bool.and_eq_true, decide_eq_true_eq] at hl
    rw [hk, hc.op] at h
    simp only [Contents.write, hk]
    by_cases hput : w.request.opcode = opPut
    · obtain ⟨hdata, hsize⟩ := hc.value hput
      have hblock : blockOrNull strings w.data = .ok (w.request.data.map CStr.block) := hw.data
      rw [if_pos hput, if_neg (by decide), hdata, hsize, hblock, ok_bind] at h
      rw [if_pos hput, Fields.value]
      by_cases hpos : w.request.dataSize ≤ 0
      · simp only [dataCreate2, hpos, true_or, ↓reduceIte] at h ⊢
        cases h
        exact ⟨hm, hplaced⟩
      · cases hd : w.request.data with
        | none =>
          simp only [hd, dataCreate2, Option.map_none, or_true, ↓reduceIte] at h ⊢
          cases h
          simp only [hpos, ↓reduceIte]
          exact ⟨hm, hplaced⟩
        | some data =>
          simp only [hd, dataCreate2, Option.map_some, hpos, Option.some_ne_none, or_self,
            ↓reduceIte] at h ⊢
          obtain ⟨⟨result, t⟩, hcall, h⟩ := seq_ok h
          cases h
          obtain ⟨hm', hcount⟩ :=
            tablePut_linked hm hl.1 hl.2 (by dsimp only; omega) (Option.some_ne_none _) hcall
          refine ⟨hm', ?_⟩
          rw [hcount]
          exact hplaced.update hl.1 _
    · rw [if_neg hput, if_pos rfl] at h
      rw [if_neg hput]
      obtain ⟨⟨result, t⟩, hcall, h⟩ := seq_ok h
      obtain ⟨t', hdel, hm', hcount⟩ := tableDel_maps hm hl.1
      rw [hdel] at hcall
      cases hcall
      cases h
      refine ⟨hm', ?_⟩
      rw [hcount]
      exact hplaced.update hl.1 _

-- ---------------------------------------------------------------------------
-- The first step of invoke
-- ---------------------------------------------------------------------------

def MessageT.admitted (msg : MessageT) : Prop :=
  ¬ outOfRange msg.opcode msg.cType

/-- What the first step of `invoke` does with each kind of message. -/
inductive Skel.Invoked (s : Skel) (table : TableT) (p : Nat) (msg : MessageT) : Skel → Prop
  | rejected : ¬ msg.admitted → Invoked s table p msg { s with main := .returned (some p) (-1) }
  | size : msg.admitted → msg.opcode = opSize →
      Invoked s table p msg
        ({ s with messageServer := some p }.answer p (invokeSize table msg) s.mem)
  | write (put) : msg.admitted → msg.opcode = (if put then opPut else opDel) →
      Invoked s table p msg { s with messageServer := some p, main := .lock p put }
  | get (msg' mem) : msg.admitted → msg.opcode = opGet →
      invokeGet table s.mem msg data string = .ok (msg', mem) →
      Invoked s table p msg ({ s with messageServer := some p }.answer p msg' mem)
  | noKeys : msg.admitted → msg.opcode = opGetkeys → tableSize table = 0 →
      Invoked s table p msg ({ s with messageServer := some p }.answer p
        { msg with opcode := opGetkeys + 1, cType := ctKeys, nKeys := 0, keys := none } s.mem)
  | keys : msg.admitted → msg.opcode = opGetkeys → tableSize table ≠ 0 →
      Invoked s table p msg
        { s with
          messageServer := some p
          messages := s.messages.set p (some
            { msg with
              opcode := opGetkeys + 1, cType := ctKeys
              nKeys := (tableSize table % 2 ^ 64).toNat })
          main := .getKeys p }
  | verify (verificado) : msg.admitted → msg.opcode = opVerify →
      s.verify msg.dataSize = .ok verificado →
      Invoked s table p msg ({ s with messageServer := some p }.answer p
        { msg with opcode := opVerify + 1, cType := ctResult, dataSize := verificado } s.mem)
  | unknown : msg.admitted →
      msg.opcode ∉ [opSize, opDel, opGet, opPut, opGetkeys, opVerify] →
      Invoked s table p msg
        { s with
          messageServer := some p
          messages := s.messages.set p (some { msg with opcode := opError, cType := ctNone })
          main := .returned (some p) (-1) }

theorem Skel.invoke_invoked {s s' : Skel} {table : TableT}
    (h : s.invoke table p msg data string = .ok s') : s.Invoked table p msg s' := by
  unfold Skel.invoke at h
  split at h
  · rename_i hrange
    cases h
    exact .rejected (not_not.mpr hrange)
  rename_i hadmitted
  dsimp only at h
  split at h
  · rename_i hop
    cases h
    exact .size hadmitted hop
  split at h
  · rename_i hop
    cases h
    exact .write false hadmitted hop
  split at h
  · rename_i hop
    obtain ⟨⟨msg', mem⟩, hget, h⟩ := seq_ok h
    cases h
    exact .get msg' mem hadmitted hop hget
  split at h
  · rename_i hop
    cases h
    exact .write true hadmitted hop
  split at h
  · rename_i hop
    split at h
    · rename_i hzero
      cases h
      rw [hzero]
      exact .noKeys hadmitted hop hzero
    · rename_i hsome
      cases h
      exact .keys hadmitted hop hsome
  split at h
  · rename_i hop
    obtain ⟨verificado, hverify, h⟩ := seq_ok h
    cases h
    exact .verify verificado hadmitted hop hverify
  · cases h
    refine .unknown hadmitted ?_
    simp only [List.mem_cons, List.not_mem_nil, or_false, not_or]
    exact ⟨by assumption, by assumption, by assumption, by assumption, by assumption,
      by assumption⟩

theorem invokeGet_grows {table : TableT}
    (h : invokeGet table mem msg data string = .ok (msg', mem')) :
    mem.strings.Grows mem'.strings := by
  obtain ⟨key, -, h⟩ := seq_ok h
  obtain ⟨d, -, h⟩ := seq_ok h
  cases d with
  | none =>
    cases h
    exact .refl _
  | some d =>
    cases hb : d.data with
    | none =>
      simp only [hb, placeBlock] at h
      cases h
      exact .refl _
    | some block =>
      simp only [hb, placeBlock] at h
      cases h
      exact .alloc _ _ _

theorem Skel.Invoked.grows {s s' : Skel} {table : TableT} (h : s.Invoked table p msg s') :
    s.mem.strings.Grows s'.mem.strings := by
  cases h with
  | get msg' mem _ _ hget => exact invokeGet_grows hget
  | _ => exact .refl _

theorem Skel.Invoked.lock {s s' : Skel} {table : TableT} (h : s.Invoked table p msg s')
    (hpc : s'.main = .lock q put) :
    q = p ∧ s'.messages = s.messages ∧ s'.mem = s.mem ∧
      msg.opcode = if put then opPut else opDel := by
  cases h with
  | write put' _ hop =>
    cases hpc
    exact ⟨rfl, rfl, rfl, hop⟩
  | _ => cases hpc

inductive MessageT.HoldsValue (h : Strings) (msg : MessageT) : Option (List UInt8) → Prop
  | none : msg.dataSize = 0 → msg.data = none → HoldsValue h msg none
  | some : blockOrNull h msg.data = .ok (some block) → 0 < msg.dataSize →
      msg.dataSize ≤ sizeofDataT → msg.dataSize ≤ block.length →
      HoldsValue h msg (some (block.take msg.dataSize.toNat))

theorem MessageT.HoldsValue.grows {msg : MessageT} (hv : msg.HoldsValue h value)
    (hg : h.Grows h') : msg.HoldsValue h' value := by
  cases hv with
  | none hz hd => exact .none hz hd
  | some hb hp hs hl => exact .some (blockOrNull_grows hg hb) hp hs hl

theorem invokeGet_answers {table : TableT} (ht : table.Maps m) {mem mem' : Mem}
    (hkey : strOrNull mem.strings msg.key = .ok key)
    (h : invokeGet table mem msg data string = .ok (msg', mem')) :
    msg'.opcode = opGet + 1 ∧ msg'.HoldsValue mem'.strings
      (key.bind fun key => if Hashed table.countLists key then m key else none) := by
  obtain ⟨key', hk, h⟩ := seq_ok h
  rw [hkey] at hk
  cases hk
  obtain ⟨d, hget, hmade⟩ := seq_ok h
  obtain ⟨value, hd, hstored, hbytes⟩ : ∃ value : Option DataT, d = value.map (·.copied data) ∧
      (∀ v ∈ value, Stored v) ∧ value.map DataT.bytes =
        key.bind fun key => if Hashed table.countLists key then m key else none := by
    cases key with
    | none =>
      cases hget
      exact ⟨none, rfl, by simp, rfl⟩
    | some key =>
      by_cases hh : Hashed table.countLists key
      · obtain ⟨value, hget', hstored, hm⟩ := tableGet_copies ht hh data
        rw [hget] at hget'
        cases hget'
        exact ⟨value, rfl, hstored, by simpa [hh] using hm⟩
      · rw [tableGet_unhashed ht hh] at hget
        cases hget
        exact ⟨none, rfl, by simp, by simp [hh]⟩
  rw [← hbytes]
  subst hd
  cases value with
  | none =>
    cases hmade
    exact ⟨rfl, .none rfl rfl⟩
  | some value =>
    obtain ⟨hvalid, hfits⟩ := hstored value rfl
    obtain ⟨hp, block, hb, hl⟩ := hvalid.copied data
    have hvalue := hvalid.copied_bytes data
    rw [DataT.bytes, hb] at hvalue
    simp only [Option.map_some, hb, placeBlock] at hmade
    cases hmade
    rw [Option.map_some, ← hvalue]
    refine ⟨rfl, .some ?_ hp hfits (Int.toNat_le.mp hl)⟩
    simp only [blockOrNull, Heap.load_some (Heap.set_cell ..), ok_bind, pure_eq_ok]
    rfl

theorem copyChavesLoop_grows (h : copyChavesLoop string keys chaves i mem = .ok mem') :
    mem.strings.Grows mem'.strings := by
  induction chaves generalizing i mem with
  | nil => cases h
  | cons slot chaves ih =>
    cases slot with
    | unset => cases h
    | null =>
      cases h
      exact .refl _
    | str key =>
      obtain ⟨arrays, -, h⟩ := seq_ok h
      exact (newStr_spec mem.strings string key).1.trans (ih h)

theorem invokeKeys_grows (h : invokeKeys table mem msg chaves m = .ok (msg', mem')) :
    mem.strings.Grows mem'.strings := by
  obtain ⟨mem₁, hloop, h⟩ := seq_ok h
  cases h
  have hg := copyChavesLoop_grows hloop
  exact hg

theorem TableT.Keeps.keysOf_lists {table : TableT} {chains : List Nodes} (h : table.Keeps m)
    (hc : table.Chained chains)
    (hb : ∀ i xs, chains[i]? = some xs → Bucket table.countLists m i xs) :
    m.Lists (keysOf chains) := by
  have hindex : ∀ {key} {i : Nat}, hash key table.countLists = .ok (i : Nat) →
      i < chains.length := by
    intro key i hhash
    have hi := hash_lt hhash h.maps.positive
    have hlen := hc.length
    omega
  refine ⟨keysOf_nodup hb, fun key => ⟨fun hk => ?_, fun hk => ?_⟩⟩
  · obtain ⟨x, hx, rfl⟩ := List.mem_map.mp hk
    obtain ⟨xs, hxs, hin⟩ := List.mem_flatten.mp hx
    obtain ⟨i, hi⟩ := List.mem_iff_getElem?.mp hxs
    have hhash := (hb i xs hi).placed x hin
    exact (mem_keysOf hb ⟨i, hindex hhash, hhash⟩).mp hk
  · obtain ⟨i, hhash⟩ := h.placed key hk
    exact (mem_keysOf hb ⟨i, hindex hhash, hhash⟩).mpr hk

theorem TableT.Keeps.lists {table : TableT} (h : table.Keeps m) :
    ∃ keys, m.Lists keys ∧ tableSize table = keys.length ∧
      (tableSize table < intMax → tableGetKeys table = .ok (chavesOf keys)) := by
  obtain ⟨chains, hc, hb⟩ := h.maps.chains
  exact ⟨keysOf chains, h.keysOf_lists hc hb, hc.size, tableGetKeys_chained hc⟩

-- ---------------------------------------------------------------------------
-- The messages and the writes
-- ---------------------------------------------------------------------------

def AllWhole (ws : List Write) (h : Strings) : Prop :=
  ∀ w ∈ ws, w.released = false → w.Whole h

theorem AllWhole.grows (hw : AllWhole ws h) (hg : h.Grows h') : AllWhole ws h' :=
  fun w hm hr => (hw w hm hr).grows hg

theorem AllWhole.marked (hw : AllWhole ws h) : AllWhole (ws.map fun w => w.after h) h := by
  intro w hm hr
  obtain ⟨v, hv, rfl⟩ := List.mem_map.mp hm
  simp only [Write.after, Bool.or_eq_false_iff] at hr
  obtain ⟨hkey, hdata⟩ := hw v hv hr.1.1
  exact ⟨hkey, hdata⟩

theorem AllWhole.thinned (hw : AllWhole ws h) (hg : Heap.Grows h' h) :
    AllWhole (ws.map fun w => w.after h') h' := by
  intro w hm hr
  obtain ⟨v, hv, rfl⟩ := List.mem_map.mp hm
  have hold : v.released = false := by
    simp only [Write.after, Bool.or_eq_false_iff] at hr
    exact hr.1.1
  obtain ⟨hkey, hdata⟩ := (hw v hv hold).thinned hg hr
  exact ⟨hkey, hdata⟩

theorem Skel.signalled_ne_done (pc : WorkerPc) : Skel.signalled pc ≠ .done ↔ pc ≠ .done := by
  cases pc <;> simp [Skel.signalled]

namespace Server

variable {s s' : Server} {t : Skel} {messages : Heap MessageT} {mem : Mem} {net' : NetPc}
  {received' : Fields} {writes' : List Write}

structure AsReceived (s : Server) (message : MessageT) : Prop where
  key : HoldsStr s.mem.strings message.key s.received.key
  data : HoldsStr s.mem.strings message.data s.received.data
  opcode : message.opcode = s.received.opcode
  cType : message.cType = s.received.cType
  dataSize : message.dataSize = s.received.dataSize

/-- Up to the critical section `invoke` leaves the message as it was received. -/
def Unaltered (s : Server) : Prop :=
  match s.net with
  | .received p => ∃ message, s.messages.cell p = some message ∧ s.AsReceived message
  | .invoked p =>
    match s.main with
    | .lock q put | .enqueue q put => q = p ∧ ∃ message, s.messages.cell p = some message ∧
        s.AsReceived message ∧ message.opcode = if put then opPut else opDel
    | _ => True
  | _ => True

theorem Unaltered.frame (h : s.Unaltered) (hnet : s'.net = s.net)
    (hmain : ∀ p, s.net = .invoked p → s'.main = s.main) (hmessages : s'.messages = s.messages)
    (hmem : s'.mem = s.mem) (hreceived : s'.received = s.received) : s'.Unaltered := by
  have hkeep : ∀ message, s.AsReceived message → s'.AsReceived message := by
    rintro message ⟨hkey, hdata, hop, hct, hsize⟩
    refine ⟨?_, ?_, ?_, ?_, ?_⟩ <;> simpa only [hmem, hreceived]
  unfold Unaltered at *
  rw [hnet, hmessages]
  cases hn : s.net with
  | received p =>
    rw [hn] at h
    obtain ⟨message, hc, hm⟩ := h
    exact ⟨message, hc, hkeep message hm⟩
  | invoked p =>
    rw [hn] at h
    dsimp only at h ⊢
    rw [hmain p hn]
    generalize s.main = main at h ⊢
    cases main with
    | lock q put | enqueue q put =>
      obtain ⟨hq, message, hc, hm, hop⟩ := h
      exact ⟨hq, message, hc, hkeep message hm, hop⟩
    | _ => trivial
  | _ => trivial

/-- `table_skel_destroy` does not get past `pthread_join`. -/
structure Running (s : Server) : Prop where
  worker : s.worker ≠ .done
  queue : s.main ≠ .deleteQueue
  done : s.main ≠ .done

/-- What the server has received and not released, and the tasks that carry it. -/
structure Serving (s : Server) : Prop where
  closable : s.Closable
  count : s.lastAssigned = s.writes.length
  filed : s.Filed
  whole : AllWhole s.writes s.mem.strings
  unaltered : s.Unaltered
  live : s.destroyed = true → s.main.closing = true
  running : s.Running

theorem Filed.marked (h : s.Filed) : s.marked.Filed := by
  obtain ⟨ht, hd, hw, he⟩ := h
  refine ⟨?_, hd, hw, by simpa [Server.marked] using he⟩
  intro a task hc
  obtain ⟨i, w, hi, hw, hcarried⟩ := ht a task hc
  exact ⟨i, w.after s.mem.strings, hi, by simp [Server.marked, hw],
    hcarried.key, hcarried.op, hcarried.value⟩

theorem Serving.outside (h : s.Serving) (hs : s.step a = some s')
    (ht : s.toSkel.step (.outside messages mem) = some t)
    (hs' : s' = marked ⟨t, net', received', s.writes⟩)
    (hwhole : AllWhole (s.writes.map fun w => w.after mem.strings) mem.strings)
    (hunaltered : Unaltered
      ⟨{ s.toSkel with messages, mem, main := .idle }, net', received', s.writes⟩) :
    s'.Serving := by
  have hclosable := h.closable.step hs
  subst hs'
  have hlive := h.live
  cases Skel.step_change ht with
  | outside messages mem hmain =>
    obtain ⟨-, hcount, ⟨htasks, hd, hw, he⟩, -, -, -, hrunning⟩ := h
    refine ⟨hclosable, by simpa [Server.marked] using hcount, ?_, hwhole, ?_, ?_,
      ⟨hrunning.worker, fun h => MainPc.noConfusion h, fun h => MainPc.noConfusion h⟩⟩
    · exact Filed.marked (s := ⟨_, net', received', s.writes⟩) ⟨htasks, hd, hw, he⟩
    · exact hunaltered.frame rfl (fun _ _ => rfl) rfl rfl rfl
    · intro hdestroyed
      have hclosing := hlive hdestroyed
      rcases hmain with hmain | ⟨msg, result, hmain⟩ <;> rw [hmain] at hclosing <;> cases hclosing

theorem Serving.step_outside (h : s.Serving) (hs : s.step a = some s')
    (hp : Plan s a b net' received' writes') (ha : ∀ b, a ≠ .skel b)
    (ht : s.toSkel.step b = some t) (hs' : s' = marked ⟨t, net', received', writes'⟩) :
    s'.Serving := by
  cases hp with
  | receive f struct m hnet =>
    obtain ⟨hg, -, -, -, hop, hsize⟩ := placeMessage_spec s.mem f.noEmpty m
    obtain ⟨hkey, hdata, hct⟩ := placeMessage_holds s.mem f.noEmpty m
    refine h.outside hs ht hs' (h.whole.grows hg).marked ?_
    exact ⟨_, Heap.set_cell .., hkey, hdata, hop, hct, hsize⟩
  | drop messages mem hnet hrel | reject messages mem hnet hmain hresult hrel
  | release messages mem hnet hrel =>
    exact h.outside hs ht hs' (h.whole.thinned (releaseMessage_thins hrel)) trivial
  | skel b => exact absurd rfl (ha b)
  | reply mem hnet hmain hpack =>
    obtain ⟨message, hc, hg, -⟩ := pack_ok hpack
    exact h.outside hs ht hs' (h.whole.grows hg).marked trivial
  | replyFails mem messages mem' hnet hmain hpack hrel =>
    obtain ⟨message, hc, hg, -⟩ := pack_ok hpack
    exact h.outside hs ht hs' ((h.whole.grows hg).thinned (releaseMessage_thins hrel)) trivial

-- ---------------------------------------------------------------------------
-- Steps of the skeleton
-- ---------------------------------------------------------------------------

theorem Serving.skel (h : s.Serving) (hs : s.step (.skel a) = some s')
    (hs' : s' = marked ⟨t, s.netAfter a, s.received, s.writesAfter a⟩)
    (hcount : t.lastAssigned = (s.writesAfter a).length)
    (hfiled : Filed ⟨t, s.netAfter a, s.received, s.writesAfter a⟩)
    (hwhole : AllWhole (s.writesAfter a) t.mem.strings)
    (hunaltered : Unaltered ⟨t, s.netAfter a, s.received, s.writesAfter a⟩)
    (hlive : t.destroyed = true → t.main.closing = true)
    (hrunning : Running ⟨t, s.netAfter a, s.received, s.writesAfter a⟩) : s'.Serving := by
  have hclosable := h.closable.step hs
  subst hs'
  refine ⟨hclosable, by simpa [Server.marked] using hcount, hfiled.marked, hwhole.marked, ?_,
    hlive, ⟨hrunning.worker, hrunning.queue, hrunning.done⟩⟩
  exact hunaltered.frame rfl (fun _ _ => rfl) rfl rfl rfl

theorem Serving.quiet (h : s.Serving) (hs : s.step (.skel a) = some s')
    (hs' : s' = marked ⟨t, s.netAfter a, s.received, s.writes⟩)
    (hwrites : s.writesAfter a = s.writes) (htasks : t.tasks = s.tasks)
    (hexecuted : t.executed = s.executed) (hlast : t.lastAssigned = s.lastAssigned)
    (hmem : t.mem = s.mem) (hworker : ∀ a, s.worker = .finish a → t.worker = .finish a)
    (hunaltered : Unaltered ⟨t, s.netAfter a, s.received, s.writes⟩)
    (hlive : t.destroyed = true → t.main.closing = true)
    (hrunning : Running ⟨t, s.netAfter a, s.received, s.writes⟩) : s'.Serving := by
  rw [← hwrites] at hs' hunaltered hrunning
  refine h.skel hs hs' ?_ ?_ ?_ hunaltered hlive hrunning
  · rw [hwrites, hlast, h.count]
  · rw [hwrites]
    exact h.filed.frame htasks rfl hexecuted hworker
  · rw [hwrites, hmem]
    exact h.whole

theorem Serving.alive (h : s.Serving) (hmain : s.main.closing = false) : s.destroyed = false := by
  rw [← Bool.not_eq_true]
  intro hdestroyed
  rw [h.live hdestroyed] at hmain
  cases hmain

theorem step_invoked {s t : Skel} (hs : s.step (.invoke (some p) data string) = some t)
    (htable : s.table.isSome) (hc : s.messages.cell p = some msg) :
    ∃ table, s.table = some table ∧
      Skel.Invoked { s with request := some msg, given := [] } table p msg t := by
  obtain ⟨table, ht⟩ := Option.isSome_iff_exists.mp htable
  simp only [Skel.step, Skel.mainStep, Skel.workerStep, Option.or_none] at hs
  split at hs
  · rename_i hsome hq
    cases hq
    obtain ⟨message, hmsg, hs⟩ := Option.bind_eq_some_iff.mp hs
    rw [hc] at hmsg
    cases hmsg
    exact ⟨_, hsome, Skel.invoke_invoked (toOption_some.mp hs)⟩
  · rename_i hnone
    exact (hnone table p ht rfl).elim
  · cases hs

theorem AsReceived.carries (junk : TaskT) (number : Int) (h : s.AsReceived message)
    (hop : message.opcode = if put then opPut else opDel) :
    Write.CarriedBy ⟨s.received, message.key, message.data, false⟩
      (newTask junk number put message) := by
  have hrequest := h.opcode.symm.trans hop
  cases put with
  | true => exact ⟨rfl, by simp [hrequest, newTask], fun _ => ⟨rfl, h.dataSize⟩⟩
  | false =>
    refine ⟨rfl, by simp [hrequest, newTask, opDel, opPut], fun hput => ?_⟩
    rw [hput] at hrequest
    exact absurd hrequest (by decide)

theorem Serving.queued (h : s.Serving) (hnet : s.net = .invoked p)
    (hmain : s.main = .lock q put ∨ s.main = .enqueue q put) : q = p ∧ ∃ message,
      s.messages.cell p = some message ∧ s.AsReceived message ∧
        message.opcode = if put then opPut else opDel := by
  have hunaltered := h.unaltered
  unfold Unaltered at hunaltered
  rw [hnet] at hunaltered
  rcases hmain with hmain | hmain <;> rw [hmain] at hunaltered <;> exact hunaltered

theorem Serving.enqueue {m : Malloc TaskT} (h : s.Serving)
    (hs : s.step (.skel (.enqueue m)) = some s') (ha : s.allows (.enqueue m) = true)
    (ht : s.toSkel.step (.enqueue m) = some t)
    (hs' : s' = marked ⟨t, s.netAfter (.enqueue m), s.received, s.writesAfter (.enqueue m)⟩) :
    s'.Serving := by
  cases Skel.step_change ht with
  | enqueue p put m msg tasks queue hpc hmsg hadd =>
    have hidle := h.closable.sound.locked.mainBusy (by rw [hpc]; rfl)
    obtain ⟨q, hnet⟩ := allows_inside ha rfl
    obtain ⟨rfl, message, hc, hm, hop⟩ := h.queued hnet (.inr hpc)
    rw [hmsg] at hc
    cases hc
    have hwrites : s.writesAfter (.enqueue m) =
        s.writes ++ [⟨s.received, msg.key, msg.data, false⟩] := by
      simp only [writesAfter, hpc, hmsg]
    have hcount := h.count
    refine h.skel hs hs' ?_ ?_ ?_ ?_ ?_ ⟨h.running.worker, by simp, by simp⟩
    · simp [hwrites, hcount]
    · rw [hwrites]
      exact h.filed.enqueue hadd (by simp [hcount]) (hm.carries _ _ hop) hidle rfl
    · rw [hwrites]
      intro w hw hr
      rcases List.mem_append.mp hw with hw | hw
      · exact h.whole w hw hr
      · rw [List.mem_singleton.mp hw]
        exact ⟨hm.key, hm.data⟩
    · unfold Unaltered
      simp only [netAfter, hnet]
    · intro hdestroyed
      have hclosing := h.live hdestroyed
      rw [hpc] at hclosing
      cases hclosing

theorem Serving.invoke (h : s.Serving)
    (hs : s.step (.skel (.invoke msg data string)) = some s')
    (ha : s.allows (.invoke msg data string) = true)
    (ht : s.toSkel.step (.invoke msg data string) = some t)
    (hs' : s' = marked ⟨t, s.netAfter (.invoke msg data string), s.received, s.writes⟩) :
    s'.Serving := by
  obtain ⟨p, hnet, rfl⟩ := allows_invoke ha
  have hunaltered := h.unaltered
  unfold Unaltered at hunaltered
  rw [hnet] at hunaltered
  obtain ⟨message, hc, hm⟩ := hunaltered
  obtain ⟨table, -, hinvoked⟩ := step_invoked ht h.closable.table hc
  have hgrows : s.mem.strings.Grows t.mem.strings := hinvoked.grows
  have hlock := fun q put (hmain : t.main = .lock q put) => hinvoked.lock hmain
  cases Skel.step_change ht with
  | invoke messages messageServer mem request pc hpc hd =>
    have hnotClosed := dispatched_closing hd
    refine h.skel hs hs' h.count (h.filed.frame rfl rfl rfl fun _ hw => hw)
      (h.whole.grows hgrows) ?_ ?_ ⟨h.running.worker, ?_, ?_⟩
    · unfold Unaltered
      simp only [netAfter]
      cases pc with
      | lock q put =>
        obtain ⟨hq, hmessages, hmem, hop⟩ := hlock q put rfl
        replace hmessages : messages = s.messages := hmessages
        replace hmem : mem = s.mem := hmem
        subst hmessages
        subst hmem
        obtain ⟨hkey, hdata, hopcode, hct, hsize⟩ := hm
        exact ⟨hq, message, hc, ⟨hkey, hdata, hopcode, hct, hsize⟩, hop⟩
      | enqueue => exact hd.elim
      | _ => trivial
    · intro hdestroyed
      have hclosing := h.live hdestroyed
      rw [hpc] at hclosing
      cases hclosing
    · rintro rfl
      cases hnotClosed
    · rintro rfl
      cases hnotClosed

/-- The worker never gets past `sendMessage`: the message it would send has
been released. -/
theorem Closable.unsent (h : s.Closable) (hs : s.toSkel.step (.send string sent) = some t) :
    False := by
  cases Skel.step_change hs with
  | send messages mem hpc =>
    simp only [Skel.step, Skel.mainStep, Skel.workerStep, Option.none_or, hpc] at hs
    obtain ⟨t, hsend, -⟩ := Option.bind_eq_some_iff.mp hs
    obtain ⟨msg, hl, -⟩ := seq_ok (toOption_some.mp hsend)
    obtain ⟨p, -, hc⟩ := Heap.load_ok hl
    rw [h.unsendable (by rw [hpc]; rfl) p] at hc
    cases hc

theorem copyKeys_grows (hs : s.toSkel.step (.copyKeys m) = some t) :
    s.mem.strings.Grows t.mem.strings := by
  simp only [Skel.step, Skel.mainStep, Skel.workerStep, Option.or_none] at hs
  split at hs
  · obtain ⟨msg, -, hs⟩ := Option.bind_eq_some_iff.mp hs
    obtain ⟨⟨msg', mem'⟩, hkeys, hs⟩ := Option.bind_eq_some_iff.mp hs
    cases hs
    exact invokeKeys_grows (toOption_some.mp hkeys)
  · cases hs

theorem Serving.step (h : s.Serving) (hs : s.step a = some s') : s'.Serving := by
  obtain ⟨b, t, net', received', writes', hplan, ht, hs'⟩ := step_plan hs
  by_cases hskel : ∃ b, a = .skel b
  swap
  · exact h.step_outside hs hplan (fun b hb => hskel ⟨b, hb⟩) ht hs'
  obtain ⟨b', rfl⟩ := hskel
  cases hplan with
  | skel b ha =>
    have hopen : s.main.closing = false → s.destroyed = true → t.main.closing = true :=
      fun hmain hd => (Bool.false_ne_true (hmain.symm.trans (h.live hd))).elim
    have hunaltered := h.unaltered
    have hrunning := h.running
    cases Skel.step_change ht with
    | outside => cases ha
    | invoke => exact h.invoke hs ha ht hs'
    | enqueue => exact h.enqueue hs ha ht hs'
    | send => exact (h.closable.unsent ht).elim
    | join hpc hdone => exact absurd hdone hrunning.worker
    | deleteQueue _ _ hpc => exact absurd hpc hrunning.queue
    | lock hpc =>
      obtain ⟨p, hnet⟩ := allows_inside ha rfl
      obtain ⟨hq, message, hc, hm, hop⟩ := h.queued hnet (.inl hpc)
      refine h.quiet hs hs' rfl rfl rfl rfl rfl (fun _ hw => hw) ?_ (hopen (by rw [hpc]; rfl))
        ⟨hrunning.worker, by simp, by simp⟩
      unfold Unaltered
      simp only [netAfter, hnet]
      obtain ⟨hkey, hdata, hopcode, hct, hsize⟩ := hm
      exact ⟨hq, message, hc, ⟨hkey, hdata, hopcode, hct, hsize⟩, hop⟩
    | signal hpc | unlock hpc | getKeys _ hpc =>
      obtain ⟨p, hnet⟩ := allows_inside ha rfl
      refine h.quiet hs hs' rfl rfl rfl rfl rfl (fun _ hw => by simp [hw, Skel.signalled]) ?_
        (hopen (by rw [hpc]; rfl)) ⟨?_, by simp, by simp⟩
      · unfold Unaltered
        simp only [netAfter, hnet]
      · simpa only [Skel.signalled_ne_done] using hrunning.worker
    | copyKeys messages mem hpc =>
      obtain ⟨p, hnet⟩ := allows_inside ha rfl
      refine h.skel hs hs' h.count (h.filed.frame rfl rfl rfl fun _ hw => hw)
        (h.whole.grows (copyKeys_grows ht)) ?_ (hopen (by rw [hpc]; rfl))
        ⟨hrunning.worker, by simp, by simp⟩
      unfold Unaltered
      simp only [netAfter, hnet]
    | destroy hpc =>
      exact h.quiet hs hs' rfl rfl rfl rfl rfl (fun _ hw => hw) trivial (fun _ => rfl)
        ⟨hrunning.worker, by simp, by simp⟩
    | clearFlag hpc | stopSignal hpc =>
      have hnet : s.net = .closed := h.closable.closing (by rw [hpc]; rfl)
      refine h.quiet hs hs' rfl rfl rfl rfl rfl (fun _ hw => by simp [hw, Skel.signalled]) ?_
        (fun _ => rfl) ⟨?_, by simp, by simp⟩
      · unfold Unaltered
        simp only [netAfter, hnet]
      · simpa only [Skel.signalled_ne_done] using hrunning.worker
    | execute hpc hcell =>
      refine h.skel hs hs' h.count (h.filed.execute hpc hcell rfl rfl rfl) h.whole ?_ h.live
        ⟨by simp, hrunning.queue, hrunning.done⟩
      exact hunaltered.frame rfl (fun _ _ => rfl) rfl rfl rfl
    | finish hpc hcell =>
      refine h.skel hs hs' h.count (h.filed.finish hpc rfl rfl) h.whole ?_ h.live
        ⟨by simp, hrunning.queue, hrunning.done⟩
      exact hunaltered.frame rfl (fun _ _ => rfl) rfl rfl rfl
    | enter hpc | exit hpc | acquire hpc | wait hpc | look hpc | wake hpc | reacquire hpc
    | pop _ hpc | skip hpc | leave hpc =>
      refine h.quiet hs hs' rfl rfl rfl rfl rfl (fun _ hw => ?_) ?_ h.live
        ⟨by simp, hrunning.queue, hrunning.done⟩
      · rw [hpc] at hw
        cases hw
      · exact hunaltered.frame rfl (fun _ _ => rfl) rfl rfl rfl

end Server

end HashMapStorage
