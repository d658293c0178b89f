import HashMapStorage.Ownership
import HashMapStorage.SkelLaws

/-!
# Accepted writes are applied as they were sent

`invoke` stores the message's own pointers in the task, and the network loop
releases the message behind the reply. A write whose message is released only
after the worker has executed it finds its key and its value as they were
received; the other messages own other blocks.
-/

namespace HashMapStorage

open Machine

structure Write.Intact (w : Write) (h : Strings) : Prop where
  kept : w.released = false
  key : strOrNull h w.key = .ok w.request.key
  data : strOrNull h w.data = .ok w.request.data

structure Write.CarriedBy (w : Write) (task : TaskT) : Prop where
  key : task.key = w.key
  op : task.op = if w.request.opcode = opPut then 1 else 0
  value : w.request.opcode = opPut → task.data = w.data ∧ task.datasize = w.request.dataSize

theorem linked_opN {task v : TaskT} (hv : v = { task with proximo := v.proximo }) :
    v.opN = task.opN := by rw [hv]

theorem Write.CarriedBy.linked {w : Write} (h : w.CarriedBy task)
    (hv : v = { task with proximo := v.proximo }) : w.CarriedBy v := by
  rw [hv]
  exact ⟨h.key, h.op, h.value⟩

theorem freed_of_ok {h : Strings} (hs : strOrNull h p = .ok s) : freed h p = false := by
  cases p with
  | none => rfl
  | some a =>
    obtain ⟨t, ht, -⟩ := seq_ok hs
    obtain ⟨b, block, hb, hc, -⟩ := strAt_ok ht
    cases hb
    simp [freed, hc]

theorem Write.Intact.after {w : Write} (hw : w.Intact h) : (w.after h).Intact h := by
  obtain ⟨hkept, hkey, hdata⟩ := hw
  refine ⟨?_, hkey, hdata⟩
  simp [Write.after, hkept, freed_of_ok hkey, freed_of_ok hdata]

theorem Write.Intact.frame {w : Write} (hw : w.Intact h)
    (hf : ∀ a, w.key = some a ∨ w.data = some a → h'.cell a = h.cell a) : w.Intact h' := by
  obtain ⟨hkept, hkey, hdata⟩ := hw
  refine ⟨hkept, ?_, ?_⟩
  · rw [strOrNull_frame fun a ha => hf a (.inl ha), hkey]
  · rw [strOrNull_frame fun a ha => hf a (.inr ha), hdata]

theorem Write.Intact.grows {w : Write} (hw : w.Intact h) (hg : h.Grows h') : w.Intact h' :=
  ⟨hw.kept, strOrNull_grows hg hw.key, strOrNull_grows hg hw.data⟩

namespace Server

variable {s s' : Server}

def Needed (s : Server) (given : List Int) (a : Nat) : Prop :=
  ∃ (i : Nat) (w : Write), s.writes[i]? = some w ∧ (i : Int) ∉ s.executed ∧ (i : Int) ∉ given ∧
    (w.key = some a ∨ w.data = some a)

def Apart (s : Server) (message : MessageT) (given : List Int) : Prop :=
  ∀ a, message.Owns s.mem a → ¬ s.Needed given a

structure Unserved (s : Server) (message : MessageT) : Prop where
  key : strOrNull s.mem.strings message.key = .ok s.received.key
  data : strOrNull s.mem.strings message.data = .ok s.received.data
  opcode : message.opcode = s.received.opcode
  dataSize : message.dataSize = s.received.dataSize
  write : message.opcode = opPut ∨ message.opcode = opDel
  apart : s.Apart message []

def Held (s : Server) : Prop :=
  match s.net with
  | .received p => ∃ message, s.messages.cell p = some message ∧ s.Unserved message
  | .invoked p =>
    match s.main with
    | .lock q put | .enqueue q put => q = p ∧ s.given = [] ∧ ∃ message,
        s.messages.cell p = some message ∧ s.Unserved message ∧
          message.opcode = if put then opPut else opDel
    | .signal _ | .unlock _ | .returned _ _ =>
      ∃ message, s.messages.cell p = some message ∧ s.Apart message s.given
    | _ => False
  | .replied p => ∀ message, s.messages.cell p = some message → s.Apart message s.given
  | _ => True

/-- The tasks carry the writes that are not executed, each one write. -/
structure Filed (s : Server) : Prop where
  tasks : ∀ a task, s.tasks.cell a = some task →
    ∃ (i : Nat) (w : Write), task.opN = i ∧ s.writes[i]? = some w ∧ w.CarriedBy task
  distinct : ∀ a b task other, s.tasks.cell a = some task → s.tasks.cell b = some other →
    task.opN = other.opN → a = b
  waiting : ∀ a task, s.tasks.cell a = some task → task.opN ∈ s.executed → s.worker = .finish a
  executed : ∀ n ∈ s.executed, n < s.writes.length

structure Delivered (s : Server) : Prop where
  sound : s.toSkel.Sound
  count : s.lastAssigned = s.writes.length
  filed : s.Filed
  intact : ∀ (i : Nat) (w : Write), s.writes[i]? = some w → (i : Int) ∉ s.executed →
    w.Intact s.mem.strings
  held : s.Held
  joined : s.main ≠ .deleteQueue

theorem Unserved.frame (h : s.Unserved message) (hmem : s'.mem = s.mem)
    (hreceived : s'.received = s.received)
    (hneeded : ∀ given a, s'.Needed given a → s.Needed given a) : s'.Unserved message := by
  obtain ⟨hkey, hdata, hop, hsize, hwrite, ha⟩ := h
  refine ⟨by rw [hmem, hreceived, hkey], by rw [hmem, hreceived, hdata], by rw [hreceived, hop],
    by rw [hreceived, hsize], hwrite, fun a ho hn => ?_⟩
  rw [hmem] at ho
  exact ha a ho (hneeded [] a hn)

theorem Held.frame (h : s.Held) (hnet : s'.net = s.net)
    (hmain : ∀ p, s.net = .invoked p → s'.main = s.main) (hmessages : s'.messages = s.messages)
    (hmem : s'.mem = s.mem) (hgiven : s'.given = s.given) (hreceived : s'.received = s.received)
    (hneeded : ∀ given a, s'.Needed given a → s.Needed given a) : s'.Held := by
  have hapart : ∀ message given, s.Apart message given → s'.Apart message given := by
    intro message given ha a ho hn
    rw [hmem] at ho
    exact ha a ho (hneeded given a hn)
  unfold Held at *
  rw [hnet, hmessages, hgiven]
  cases hn : s.net with
  | poll | closed => trivial
  | received p =>
    rw [hn] at h
    obtain ⟨message, hc, hu⟩ := h
    exact ⟨message, hc, hu.frame hmem hreceived hneeded⟩
  | replied p =>
    rw [hn] at h
    exact fun message hc => hapart _ _ (h message hc)
  | invoked p =>
    rw [hn] at h
    dsimp only at h ⊢
    rw [hmain p hn]
    generalize s.main = main at h ⊢
    cases main with
    | lock q put | enqueue q put =>
      obtain ⟨hp, hg, message, hc, hu, hop⟩ := h
      exact ⟨hp, hg, message, hc, hu.frame hmem hreceived hneeded, hop⟩
    | signal q | unlock q | returned msg result =>
      obtain ⟨message, hc, ha⟩ := h
      exact ⟨message, hc, hapart _ _ ha⟩
    | _ => exact h

theorem Filed.frame (h : s.Filed) (htasks : s'.tasks = s.tasks) (hwrites : s'.writes = s.writes)
    (hexecuted : s'.executed = s.executed)
    (hworker : ∀ a, s.worker = .finish a → s'.worker = .finish a) : s'.Filed := by
  obtain ⟨ht, hd, hw, he⟩ := h
  refine ⟨?_, ?_, ?_, ?_⟩
  · rw [htasks, hwrites]
    exact ht
  · rw [htasks]
    exact hd
  · rw [htasks, hexecuted]
    exact fun a task hc hx => hworker a (hw a task hc hx)
  · rw [hexecuted, hwrites]
    exact he

def marked (s : Server) : Server :=
  { s with writes := s.writes.map fun w => w.after s.mem.strings }

theorem marked_writes {i : Nat} (h : s.marked.writes[i]? = some w) :
    ∃ v, s.writes[i]? = some v ∧ w = v.after s.mem.strings := by
  simp only [marked, List.getElem?_map, Option.map_eq_some_iff] at h
  obtain ⟨v, hv, rfl⟩ := h
  exact ⟨v, hv, rfl⟩

theorem Delivered.marked (h : s.Delivered) : s.marked.Delivered := by
  obtain ⟨hsound, hcount, ⟨ht, hd, hw, he⟩, hintact, hheld, hjoined⟩ := h
  refine ⟨hsound, ?_, ⟨?_, hd, hw, ?_⟩, ?_, ?_, hjoined⟩
  · simpa [Server.marked] using hcount
  · intro a task hc
    obtain ⟨i, w, hi, hw, hcarried⟩ := ht a task hc
    refine ⟨i, w.after s.mem.strings, hi, by simp [Server.marked, hw], ?_⟩
    exact ⟨hcarried.key, hcarried.op, hcarried.value⟩
  · simpa [Server.marked] using he
  · intro i w hi hx
    obtain ⟨v, hv, rfl⟩ := marked_writes hi
    exact (hintact i v hv hx).after
  · refine hheld.frame rfl (fun _ _ => rfl) rfl rfl rfl rfl ?_
    rintro given a ⟨i, w, hi, hx, hg, hb⟩
    obtain ⟨v, hv, rfl⟩ := marked_writes hi
    exact ⟨i, v, hv, hx, hg, hb⟩

-- ---------------------------------------------------------------------------
-- Steps of the network loop
-- ---------------------------------------------------------------------------

inductive Plan (s : Server) : ServerStep → SkelStep → NetPc → Fields → List Write → Prop
  | receive (f struct m) : s.net = .poll →
      Plan s (.receive f struct m)
        (.outside
          ((s.messages.alloc struct).2.set (struct.addr s.messages)
            (some (placeMessage s.mem f.noEmpty m).1))
          (placeMessage s.mem f.noEmpty m).2)
        (.received (struct.addr s.messages)) f.noEmpty s.writes
  | drop (messages mem) : s.net = .received p →
      releaseMessage s.messages s.mem (some p) = .ok (messages, mem) →
      Plan s .drop (.outside messages mem) .poll s.received s.writes
  | skel (a) : s.allows a = true →
      Plan s (.skel a) a (s.netAfter a) s.received (s.writesAfter a)
  | reject (messages mem) : s.net = .invoked p → s.main = .returned msg result → result ≠ 0 →
      releaseMessage s.messages s.mem (some p) = .ok (messages, mem) →
      Plan s (.reply string sent) (.outside messages mem) .poll s.received s.writes
  | reply (mem) : s.net = .invoked p → s.main = .returned msg result →
      s.pack p string = .ok mem →
      Plan s (.reply string true) (.outside s.messages mem) (.replied p) s.received s.writes
  | replyFails (mem messages mem') : s.net = .invoked p → s.main = .returned msg result →
      s.pack p string = .ok mem →
      releaseMessage s.messages mem (some p) = .ok (messages, mem') →
      Plan s (.reply string false) (.outside messages mem') (.replied p) s.received s.writes
  | release (messages mem) : s.net = .replied p →
      releaseMessage s.messages s.mem (some p) = .ok (messages, mem) →
      Plan s .release (.outside messages mem) .poll s.received s.writes

theorem plan_ok (hp : s.plan a = some (b, net', received', writes')) :
    Plan s a b net' received' writes' := by
  cases a <;> simp only [plan] at hp
  case receive f struct m =>
    split at hp
    · rename_i hnet
      cases hp
      exact .receive f struct m hnet
    · cases hp
  case drop =>
    split at hp
    · rename_i p hnet
      obtain ⟨message, -, hp⟩ := Option.bind_eq_some_iff.mp hp
      obtain ⟨⟨messages, mem⟩, hrel, hp⟩ := Option.bind_eq_some_iff.mp hp
      dsimp only at hp
      split at hp
      · cases hp
        exact .drop messages mem hnet (toOption_some.mp hrel)
      · cases hp
    · cases hp
  case skel a =>
    split at hp
    · rename_i hallows
      cases hp
      exact .skel _ hallows
    · cases hp
  case reply string sent =>
    split at hp
    · rename_i p msg result hnet hmain
      split at hp
      · rename_i hresult
        obtain ⟨⟨messages, mem⟩, hrel, hp⟩ := Option.bind_eq_some_iff.mp hp
        cases hp
        exact .reject messages mem hnet hmain hresult (toOption_some.mp hrel)
      · obtain ⟨mem, hpack, hp⟩ := Option.bind_eq_some_iff.mp hp
        cases sent with
        | true =>
          cases hp
          exact .reply mem hnet hmain (toOption_some.mp hpack)
        | false =>
          obtain ⟨⟨messages, mem'⟩, hrel, hp⟩ := Option.bind_eq_some_iff.mp hp
          cases hp
          exact .replyFails mem messages mem' hnet hmain (toOption_some.mp hpack)
            (toOption_some.mp hrel)
    · cases hp
  case release =>
    split at hp
    · rename_i p hnet
      obtain ⟨⟨messages, mem⟩, hrel, hp⟩ := Option.bind_eq_some_iff.mp hp
      cases hp
      exact .release messages mem hnet (toOption_some.mp hrel)
    · cases hp

variable {t : Skel} {b : SkelStep} {messages : Heap MessageT} {mem : Mem} {net' : NetPc}
  {received' : Fields} {writes' : List Write} {given : List Int}

theorem step_plan (hs : s.step a = some s') : ∃ b t net' received' writes',
    Plan s a b net' received' writes' ∧ s.toSkel.step b = some t ∧
      s' = Server.marked ⟨t, net', received', writes'⟩ := by
  obtain ⟨⟨b, net, received, writes⟩, hplan, hs⟩ := Option.bind_eq_some_iff.mp hs
  obtain ⟨t, ht, hs⟩ := Option.bind_eq_some_iff.mp hs
  cases hs
  exact ⟨b, t, net, received, writes, plan_ok hplan, ht, rfl⟩

def applied (s : Server) : Bool := s.given.all fun n => n ∈ s.executed

/-- The requests are writes, and a message is released only when its write has
been executed. -/
def keeps (s : Server) : ServerStep → Bool
  | .receive f _ _ => f.opcode = opPut || f.opcode = opDel
  | .reply _ sent => sent || s.applied
  | .release => s.applied
  | _ => true

theorem Delivered.allocated (h : s.Delivered) (hn : s.Needed given a) :
    s.mem.strings.cell a ≠ none := by
  obtain ⟨i, w, hi, hx, -, hb⟩ := hn
  have hw := h.intact i w hi hx
  rcases hb with hb | hb
  · have hkey := freed_of_ok hw.key
    intro hnone
    simp [hb, freed, hnone] at hkey
  · have hdata := freed_of_ok hw.data
    intro hnone
    simp [hb, freed, hnone] at hdata

theorem intact_release {message : MessageT} {mem mem' : Mem}
    (hintact : ∀ (i : Nat) (w : Write), s.writes[i]? = some w → (i : Int) ∉ s.executed →
      w.Intact mem.strings)
    (ha : ∀ a, message.Owns mem a → ¬ s.Needed given a) (hg : ∀ n ∈ given, n ∈ s.executed)
    (hf : ∀ a, ¬ message.Owns mem a → mem'.strings.cell a = mem.strings.cell a) :
    ∀ (i : Nat) (w : Write), s.writes[i]? = some w → (i : Int) ∉ s.executed →
      w.Intact mem'.strings := by
  intro i w hi hx
  refine (hintact i w hi hx).frame fun a hb => hf a fun ho => ?_
  exact ha a ho ⟨i, w, hi, hx, fun hin => hx (hg _ hin), hb⟩

theorem Delivered.outside (h : s.Delivered)
    (hs : s.toSkel.step (.outside messages mem) = some t)
    (hintact : ∀ (i : Nat) (w : Write), s.writes[i]? = some w → (i : Int) ∉ s.executed →
      w.Intact mem.strings)
    (hheld : Server.Held
      ⟨{ s.toSkel with messages, mem, main := .idle }, net', received', s.writes⟩) :
    Server.Delivered ⟨t, net', received', s.writes⟩ := by
  have hsound := h.sound.step hs
  cases Skel.step_change hs
  obtain ⟨-, hcount, ⟨ht, hd, hw, he⟩, -, -, -⟩ := h
  exact ⟨hsound, hcount, ⟨ht, hd, hw, he⟩, hintact, hheld, nofun⟩

theorem Delivered.receive (h : s.Delivered) (hk : s.keeps (.receive f struct m) = true)
    (hp : Plan s (.receive f struct m) b net' received' writes')
    (hs : s.toSkel.step b = some t) : Server.Delivered ⟨t, net', received', writes'⟩ := by
  cases hp
  obtain ⟨hg, hfresh, hdata, hkey, hop, hsize⟩ := placeMessage_spec s.mem f.noEmpty m
  refine h.outside hs (fun i w hi hx => (h.intact i w hi hx).grows hg) ?_
  refine ⟨_, Heap.set_cell .., hkey, hdata, hop, hsize, ?_, ?_⟩
  · rw [hop]
    simpa [keeps, Fields.noEmpty] using hk
  · intro a ho hn
    exact h.allocated hn (hfresh a ho)

theorem Delivered.drop (h : s.Delivered) (hp : Plan s .drop b net' received' writes')
    (hs : s.toSkel.step b = some t) : Server.Delivered ⟨t, net', received', writes'⟩ := by
  cases hp with
  | drop messages mem hnet hrel =>
    obtain ⟨message, hc, -, hf⟩ := releaseMessage_ok hrel
    have hheld := h.held
    unfold Held at hheld
    rw [hnet] at hheld
    obtain ⟨message', hc', hu⟩ := hheld
    rw [hc] at hc'
    cases hc'
    exact h.outside hs (intact_release h.intact hu.apart nofun hf) trivial

theorem Delivered.release (h : s.Delivered) (hk : s.keeps .release = true)
    (hp : Plan s .release b net' received' writes')
    (hs : s.toSkel.step b = some t) : Server.Delivered ⟨t, net', received', writes'⟩ := by
  cases hp with
  | release messages mem hnet hrel =>
    obtain ⟨message, hc, -, hf⟩ := releaseMessage_ok hrel
    have hheld := h.held
    unfold Held at hheld
    rw [hnet] at hheld
    have happlied : ∀ n ∈ s.given, n ∈ s.executed := by simpa [keeps, applied] using hk
    exact h.outside hs (intact_release h.intact (hheld message hc) happlied hf) trivial

theorem pack_ok (h : s.pack p string = .ok mem) : ∃ message, s.messages.cell p = some message ∧
    s.mem.strings.Grows mem.strings ∧
      ∀ a, message.Owns mem a → message.Owns s.mem a ∨ s.mem.strings.cell a = none := by
  obtain ⟨message, hl, h⟩ := seq_ok h
  obtain ⟨⟨messageT, mem'⟩, hto, h⟩ := seq_ok h
  obtain ⟨f, -, h⟩ := seq_ok h
  obtain ⟨b, hb, hc⟩ := Heap.load_ok hl
  cases hb
  cases h
  exact ⟨message, hc, toMessageT_fresh hto⟩

theorem Delivered.behind (h : s.Delivered) (hnet : s.net = .invoked p)
    (hmain : s.main = .returned msg result) :
    ∃ message, s.messages.cell p = some message ∧ s.Apart message s.given := by
  have hheld := h.held
  unfold Held at hheld
  rw [hnet, hmain] at hheld
  exact hheld

theorem Delivered.packed (h : s.Delivered) (hc : s.messages.cell p = some message)
    (ha : s.Apart message s.given) (hpack : s.pack p string = .ok mem) :
    (∀ a, message.Owns mem a → ¬ s.Needed s.given a) ∧
      ∀ (i : Nat) (w : Write), s.writes[i]? = some w → (i : Int) ∉ s.executed →
        w.Intact mem.strings := by
  obtain ⟨message', hc', hg, hfresh⟩ := pack_ok hpack
  rw [hc] at hc'
  cases hc'
  refine ⟨fun a ho hn => ?_, fun i w hi hx => (h.intact i w hi hx).grows hg⟩
  rcases hfresh a ho with ho | hnone
  · exact ha a ho hn
  · exact h.allocated hn hnone

theorem Delivered.reply (h : s.Delivered) (hk : s.keeps (.reply string sent) = true)
    (hp : Plan s (.reply string sent) b net' received' writes')
    (hs : s.toSkel.step b = some t) : Server.Delivered ⟨t, net', received', writes'⟩ := by
  cases hp with
  | reject messages mem hnet hmain hresult hrel =>
    obtain ⟨message, hc, ha⟩ := h.behind hnet hmain
    obtain ⟨message', hc', -, hf⟩ := releaseMessage_ok hrel
    rw [hc] at hc'
    cases hc'
    have hgiven : s.given = [] := by
      by_cases hwrite : s.toSkel.write = none
      · exact h.sound.numbered.other hmain hwrite
      · exact absurd (h.sound.numbered.accepted hmain hwrite).1 hresult
    refine h.outside hs (intact_release h.intact ha ?_ hf) trivial
    rw [hgiven]
    nofun
  | reply mem hnet hmain hpack =>
    obtain ⟨message, hc, ha⟩ := h.behind hnet hmain
    obtain ⟨hapart, hintact⟩ := h.packed hc ha hpack
    refine h.outside hs hintact fun message' hc' => ?_
    rw [show s.messages.cell _ = some message' from hc'] at hc
    cases hc
    exact hapart
  | replyFails mem messages mem' hnet hmain hpack hrel =>
    obtain ⟨message, hc, ha⟩ := h.behind hnet hmain
    obtain ⟨hapart, hintact⟩ := h.packed hc ha hpack
    obtain ⟨message', hc', rfl, hf⟩ := releaseMessage_ok hrel
    rw [hc] at hc'
    cases hc'
    have happlied : ∀ n ∈ s.given, n ∈ s.executed := by simpa [keeps, applied] using hk
    refine h.outside hs (intact_release hintact hapart happlied hf) fun message' hc' => ?_
    simp at hc'

-- ---------------------------------------------------------------------------
-- Steps of the skeleton
-- ---------------------------------------------------------------------------

theorem invoke_write {s t : Skel} {msg : MessageT}
    (hs : s.step (.invoke (some p) data string) = some t) (hc : s.messages.cell p = some msg)
    (hw : msg.opcode = opPut ∨ msg.opcode = opDel) : ∃ messageServer request pc,
      t = { s with messageServer, request, given := [], main := pc } ∧
        ((∃ result, pc = .returned (some p) result) ∨
          ∃ put, pc = .lock p put ∧ msg.opcode = if put then opPut else opDel) := by
  simp only [Skel.step, Skel.mainStep, Skel.workerStep, Option.or_none] at hs
  split at hs
  · rename_i table q hmain htable hq
    cases hq
    rw [hc] at hs
    have hinvoke := toOption_some.mp hs
    unfold Skel.invoke at hinvoke
    dsimp only at hinvoke
    split at hinvoke
    · cases hinvoke
      exact ⟨_, _, _, rfl, .inl ⟨_, rfl⟩⟩
    · rcases hw with hw | hw
      · simp only [hw, opPut, opSize, opDel, opGet] at hinvoke
        cases hinvoke
        exact ⟨_, _, _, rfl, .inr ⟨true, rfl, hw⟩⟩
      · simp only [hw, opSize, opDel] at hinvoke
        cases hinvoke
        exact ⟨_, _, _, rfl, .inr ⟨false, rfl, hw⟩⟩
  · cases hs
    exact ⟨_, _, _, rfl, .inl ⟨_, rfl⟩⟩
  · cases hs

def inside : SkelStep → Bool
  | .lock | .enqueue _ | .signal | .unlock | .getKeys | .copyKeys _ => true
  | _ => false

theorem allows_inside (ha : s.allows a = true) (hin : inside a = true) :
    ∃ p, s.net = .invoked p := by
  cases hnet : s.net with
  | invoked p => exact ⟨p, rfl⟩
  | _ => cases a <;> simp_all [allows, inside]

theorem allows_invoke (ha : s.allows (.invoke msg data string) = true) :
    ∃ p, s.net = .received p ∧ msg = some p := by
  cases hnet : s.net with
  | received p =>
    simp only [allows, hnet, Bool.and_eq_true, decide_eq_true_eq] at ha
    exact ⟨p, rfl, ha.1⟩
  | _ => simp [allows, hnet] at ha

theorem Delivered.quiet (h : s.Delivered) (hsound : t.Sound) (htasks : t.tasks = s.tasks)
    (hexecuted : t.executed = s.executed) (hlast : t.lastAssigned = s.lastAssigned)
    (hmem : t.mem = s.mem) (hworker : ∀ a, s.worker = .finish a → t.worker = .finish a)
    (hheld : Server.Held ⟨t, net', received', s.writes⟩) (hjoined : t.main ≠ .deleteQueue) :
    Server.Delivered ⟨t, net', received', s.writes⟩ := by
  refine ⟨hsound, hlast.trans h.count, h.filed.frame htasks rfl hexecuted hworker, ?_, hheld,
    hjoined⟩
  intro i w hi hx
  dsimp only at hi hx ⊢
  rw [hexecuted] at hx
  rw [hmem]
  exact h.intact i w hi hx

theorem concat_getElem? {l : List α} (h : (l ++ [x])[i]? = some y) :
    l[i]? = some y ∨ i = l.length ∧ y = x := by
  rw [List.getElem?_append] at h
  split at h
  · exact .inl h
  · rename_i hge
    obtain ⟨hlt, hget⟩ := List.getElem?_eq_some_iff.mp h
    rw [List.length_singleton] at hlt
    refine .inr ⟨by omega, ?_⟩
    rw [← hget]
    simp

theorem lt_of_getElem? {l : List α} (h : l[i]? = some x) : i < l.length :=
  (List.getElem?_eq_some_iff.mp h).1

theorem enqueued_cells {m : Malloc TaskT} {tasks tasks' : Heap TaskT}
    (hadd : fifoAdd (tasks.set (m.addr tasks) (some task)) queue (some (m.addr tasks)) =
      .ok (tasks', queue')) (hc : tasks'.cell a = some v) :
    a = m.addr tasks ∧ v = { task with proximo := v.proximo } ∨
      ∃ u, tasks.cell a = some u ∧ v = { u with proximo := v.proximo } := by
  obtain ⟨u, hu, hv⟩ := fifoAdd_cells hadd hc
  by_cases ha : a = m.addr tasks
  · rw [ha, Heap.set_cell] at hu
    cases hu
    exact .inl ⟨ha, hv⟩
  · rw [Heap.set_cell_ne _ _ ha] at hu
    exact .inr ⟨u, hu, hv⟩

theorem Filed.opN_lt (h : s.Filed) (hc : s.tasks.cell a = some task) :
    task.opN < s.writes.length := by
  obtain ⟨i, w, hi, hw, -⟩ := h.tasks a task hc
  have := lt_of_getElem? hw
  omega

theorem Filed.enqueue {m : Malloc TaskT} {task : TaskT} (h : s.Filed)
    (hadd : fifoAdd (s.tasks.set (m.addr s.tasks) (some task)) s.queue (some (m.addr s.tasks)) =
      .ok (t.tasks, t.queue))
    (hnumber : task.opN = s.writes.length) (hcarried : w.CarriedBy task)
    (hidle : s.worker.critical = false) (hexecuted : t.executed = s.executed) :
    Server.Filed ⟨t, net', received', s.writes ++ [w]⟩ := by
  refine ⟨?_, ?_, ?_, ?_⟩
  · intro a v hc
    rcases enqueued_cells hadd hc with ⟨-, hv⟩ | ⟨u, hu, hv⟩
    · exact ⟨s.writes.length, w, (linked_opN hv).trans hnumber, by simp, hcarried.linked hv⟩
    · obtain ⟨i, w', hi, hw, hcarried'⟩ := h.tasks a u hu
      refine ⟨i, w', (linked_opN hv).trans hi, ?_, hcarried'.linked hv⟩
      rw [List.getElem?_append_left (lt_of_getElem? hw), hw]
  · -- the number of the new task is that of no other
    intro a b v v' hc hc' heq
    rcases enqueued_cells hadd hc with ⟨ha, hv⟩ | ⟨u, hu, hv⟩ <;>
      rcases enqueued_cells hadd hc' with ⟨hb, hv'⟩ | ⟨u', hu', hv'⟩ <;>
      rw [linked_opN hv, linked_opN hv'] at heq
    · rw [ha, hb]
    · have := h.opN_lt hu'
      omega
    · have := h.opN_lt hu
      omega
    · exact h.distinct a b u u' hu hu' heq
  · intro a v hc hx
    rw [hexecuted] at hx
    rcases enqueued_cells hadd hc with ⟨-, hv⟩ | ⟨u, hu, hv⟩
    · have := h.executed v.opN hx
      rw [linked_opN hv] at this
      omega
    · rw [linked_opN hv] at hx
      rw [h.waiting a u hu hx] at hidle
      nomatch hidle
  · intro n hn
    rw [hexecuted] at hn
    have := h.executed n hn
    rw [List.length_append]
    push_cast
    omega

theorem Filed.execute (h : s.Filed) (hpc : s.worker = .execute a)
    (hc : s.tasks.cell a = some task) (htasks : t.tasks = s.tasks)
    (hexecuted : t.executed = s.executed ++ [task.opN]) (hworker : t.worker = .finish a) :
    Server.Filed ⟨t, net', received', s.writes⟩ := by
  have ⟨ht, hdistinct, hwaiting, hbelow⟩ := h
  refine ⟨?_, ?_, ?_, ?_⟩
  · rw [htasks]
    exact ht
  · rw [htasks]
    exact hdistinct
  · intro b other hb hx
    rw [htasks] at hb
    rw [hexecuted, List.mem_append, List.mem_singleton] at hx
    rcases hx with hx | hx
    · have hfinish := hwaiting b other hb hx
      rw [hpc] at hfinish
      nomatch hfinish
    · rw [hdistinct b a other task hb hc hx]
      exact hworker
  · intro n hn
    rw [hexecuted, List.mem_append, List.mem_singleton] at hn
    rcases hn with hn | rfl
    · exact hbelow n hn
    · exact h.opN_lt hc

theorem Filed.finish (h : s.Filed) (hpc : s.worker = .finish a)
    (htasks : t.tasks = s.tasks.set a none) (hexecuted : t.executed = s.executed) :
    Server.Filed ⟨t, net', received', s.writes⟩ := by
  obtain ⟨ht, hdistinct, hwaiting, hbelow⟩ := h
  have hcell : ∀ b task, t.tasks.cell b = some task → b ≠ a ∧ s.tasks.cell b = some task := by
    intro b task hb
    rw [htasks] at hb
    have hne : b ≠ a := by
      rintro rfl
      rw [Heap.set_cell] at hb
      nomatch hb
    rw [Heap.set_cell_ne _ _ hne] at hb
    exact ⟨hne, hb⟩
  refine ⟨?_, ?_, ?_, ?_⟩
  · exact fun b task hb => ht b task (hcell b task hb).2
  · intro b c task other hb hc
    exact hdistinct b c task other (hcell b task hb).2 (hcell c other hc).2
  · intro b task hb hx
    rw [hexecuted] at hx
    obtain ⟨hne, hb⟩ := hcell b task hb
    have hfinish := hwaiting b task hb hx
    rw [hpc] at hfinish
    cases hfinish
    exact absurd rfl hne
  · rw [hexecuted]
    exact hbelow

theorem newTask_carries (junk : TaskT) (number : Int) {message : MessageT} (h : s.Unserved message)
    (hop : message.opcode = if put then opPut else opDel) :
    Write.CarriedBy ⟨s.received, message.key, message.data, false⟩
      (newTask junk number put message) := by
  have hrequest := h.opcode.symm.trans hop
  cases put with
  | true => exact ⟨rfl, by simp [hrequest, newTask], fun _ => ⟨rfl, h.dataSize⟩⟩
  | false =>
    refine ⟨rfl, by simp [hrequest, newTask, opDel, opPut], fun hput => ?_⟩
    rw [hput] at hrequest
    exact absurd hrequest (by decide)

theorem Delivered.enqueue {m : Malloc TaskT} (h : s.Delivered) (ha : s.allows (.enqueue m) = true)
    (hs : s.toSkel.step (.enqueue m) = some t) :
    Server.Delivered ⟨t, s.netAfter (.enqueue m), s.received, s.writesAfter (.enqueue m)⟩ := by
  have hsound := h.sound.step hs
  cases Skel.step_change hs with
  | enqueue p put m msg tasks queue hpc hmsg hadd =>
    have hidle := h.sound.locked.mainBusy (by rw [hpc]; rfl)
    obtain ⟨-, hcount, hfiled, hintact, hheld, -⟩ := h
    obtain ⟨q, hnet⟩ := allows_inside ha rfl
    unfold Held at hheld
    rw [hnet, hpc] at hheld
    obtain ⟨rfl, hgiven, message, hc, hu, hop⟩ := hheld
    rw [hmsg] at hc
    cases hc
    have hwrites : s.writesAfter (.enqueue m) =
        s.writes ++ [⟨s.received, msg.key, msg.data, false⟩] := by
      simp only [writesAfter, hpc, hmsg]
    rw [hwrites]
    refine ⟨hsound, ?_, ?_, ?_, ?_, nofun⟩
    · simp [hcount]
    · exact hfiled.enqueue hadd (by simp [hcount]) (newTask_carries _ _ hu hop) hidle rfl
    · intro i w hi hx
      rcases concat_getElem? hi with hi | ⟨-, rfl⟩
      · exact hintact i w hi hx
      · exact ⟨rfl, hu.key, hu.data⟩
    · unfold Held
      simp only [netAfter, hnet]
      refine ⟨_, Heap.set_cell .., fun a ho hn => hu.apart a ho ?_⟩
      -- the write of this message does not count, the others are as before
      obtain ⟨i, w, hi, hx, hg, hb⟩ := hn
      rcases concat_getElem? hi with hi | ⟨rfl, -⟩
      · exact ⟨i, w, hi, hx, nofun, hb⟩
      · simp [hcount] at hg

theorem Delivered.invoke (h : s.Delivered) (ha : s.allows (.invoke msg data string) = true)
    (hs : s.toSkel.step (.invoke msg data string) = some t) :
    Server.Delivered ⟨t, s.netAfter (.invoke msg data string), s.received, s.writes⟩ := by
  have hsound := h.sound.step hs
  have hheld := h.held
  obtain ⟨p, hnet, rfl⟩ := allows_invoke ha
  unfold Held at hheld
  rw [hnet] at hheld
  obtain ⟨message, hc, hu⟩ := hheld
  obtain ⟨messageServer, request, pc, rfl, hpc⟩ := invoke_write hs hc hu.write
  rcases hpc with ⟨result, rfl⟩ | ⟨put, rfl, hop⟩
  · exact h.quiet hsound rfl rfl rfl rfl (fun _ hw => hw) ⟨message, hc, hu.apart⟩ nofun
  · refine h.quiet hsound rfl rfl rfl rfl (fun _ hw => hw) ⟨rfl, rfl, message, hc, ?_, hop⟩ nofun
    exact hu.frame rfl rfl fun _ _ hn => hn

theorem Held.closed (h : s.Held) (hpc : s.main = .clearFlag ∨ s.main = .stopSignal)
    (hnet : s.net = .invoked p) : False := by
  unfold Held at h
  rw [hnet] at h
  rcases hpc with hpc | hpc <;> rw [hpc] at h <;> exact h

theorem Delivered.skel (h : s.Delivered) (ha : s.allows a = true)
    (hs : s.toSkel.step a = some t) : t.worker = .done ∨
      Server.Delivered ⟨t, s.netAfter a, s.received, s.writesAfter a⟩ := by
  have hsound := h.sound.step hs
  have hheld := h.held
  cases Skel.step_change hs with
  | outside => nomatch ha
  | invoke => exact .inr (h.invoke ha hs)
  | enqueue p put m msg tasks queue hpc hmsg hadd => exact .inr (h.enqueue ha hs)
  | lock hpc _ =>
    refine .inr (h.quiet hsound rfl rfl rfl rfl (fun _ hw => hw) ?_ nofun)
    obtain ⟨p, hnet⟩ := allows_inside ha rfl
    unfold Held at hheld ⊢
    rw [hnet, hpc] at hheld
    obtain ⟨hp, hg, message, hc, hu, hop⟩ := hheld
    simp only [netAfter, hnet]
    exact ⟨hp, hg, message, hc, hu.frame rfl rfl fun _ _ hn => hn, hop⟩
  | unlock hpc =>
    refine .inr (h.quiet hsound rfl rfl rfl rfl (fun _ hw => hw) ?_ nofun)
    obtain ⟨p, hnet⟩ := allows_inside ha rfl
    unfold Held at hheld ⊢
    rw [hnet, hpc] at hheld
    simp only [netAfter, hnet]
    exact hheld
  | signal hpc =>
    refine .inr (h.quiet hsound rfl rfl rfl rfl (fun _ hw => by rw [hw]; rfl) ?_ nofun)
    obtain ⟨p, hnet⟩ := allows_inside ha rfl
    unfold Held at hheld ⊢
    rw [hnet, hpc] at hheld
    simp only [netAfter, hnet]
    exact hheld
  | getKeys chaves hpc | copyKeys messages mem hpc =>
    -- the requests are writes
    obtain ⟨p, hnet⟩ := allows_inside ha rfl
    unfold Held at hheld
    rw [hnet, hpc] at hheld
    exact hheld.elim
  | destroy => exact .inr (h.quiet hsound rfl rfl rfl rfl (fun _ hw => hw) trivial nofun)
  | clearFlag hpc =>
    refine .inr (h.quiet hsound rfl rfl rfl rfl (fun _ hw => hw) ?_ nofun)
    exact hheld.frame rfl (fun p hn => (hheld.closed (.inl hpc) hn).elim) rfl rfl rfl rfl
      fun _ _ hn => hn
  | stopSignal hpc =>
    refine .inr (h.quiet hsound rfl rfl rfl rfl (fun _ hw => by rw [hw]; rfl) ?_ nofun)
    exact hheld.frame rfl (fun p hn => (hheld.closed (.inr hpc) hn).elim) rfl rfl rfl rfl
      fun _ _ hn => hn
  | join hpc hdone => exact .inl hdone
  | deleteQueue tasks mem hpc => exact absurd hpc h.joined
  | execute hpc hcell =>
    obtain ⟨-, hcount, hfiled, hintact, -, hjoined⟩ := h
    refine .inr ⟨hsound, hcount, hfiled.execute hpc hcell rfl rfl rfl, fun i w hi hx => ?_, ?_,
      hjoined⟩
    · exact hintact i w hi fun hin => hx (List.mem_append_left _ hin)
    · refine hheld.frame rfl (fun _ _ => rfl) rfl rfl rfl rfl ?_
      rintro given a ⟨i, w, hi, hx, hg, hb⟩
      exact ⟨i, w, hi, fun hin => hx (List.mem_append_left _ hin), hg, hb⟩
  | finish hpc hcell =>
    obtain ⟨-, hcount, hfiled, hintact, -, hjoined⟩ := h
    refine .inr ⟨hsound, hcount, hfiled.finish hpc rfl rfl, hintact, ?_, hjoined⟩
    exact hheld.frame rfl (fun _ _ => rfl) rfl rfl rfl rfl fun _ _ hn => hn
  | send => exact .inl rfl
  | enter hpc | exit hpc | acquire hpc | wait hpc | look hpc | wake hpc | reacquire hpc | pop _ hpc
  | skip hpc | leave hpc =>
    refine .inr (h.quiet hsound rfl rfl rfl rfl (fun _ hw => ?_) ?_ h.joined)
    · rw [hpc] at hw
      nomatch hw
    · exact hheld.frame rfl (fun _ _ => rfl) rfl rfl rfl rfl fun _ _ hn => hn

theorem worker_done {s s' : Skel} (hc : Skel.Change s a s') (hw : s.worker = .done) :
    s'.worker = .done := by
  cases hc <;> simp_all [Skel.signalled]

def Settled (s : Server) : Prop := s.worker = .done ∨ s.Delivered

theorem Settled.step (h : s.Settled) (hk : s.keeps a = true) (hs : s.step a = some s') :
    s'.Settled := by
  obtain ⟨b, t, net', received', writes', hplan, ht, rfl⟩ := step_plan hs
  rcases h with hdone | h
  · exact .inl (worker_done (Skel.step_change ht) hdone)
  cases a with
  | receive f struct m => exact .inr (h.receive hk hplan ht).marked
  | drop => exact .inr (h.drop hplan ht).marked
  | reply string sent => exact .inr (h.reply hk hplan ht).marked
  | release => exact .inr (h.release hk hplan ht).marked
  | skel a =>
    cases hplan with
    | skel a hallows => exact (h.skel hallows ht).imp_right Delivered.marked

/-- The task the worker is about to execute asks for the write with its number,
whose blocks have not been released since `invoke` stored their addresses and
hold what was received. -/
def AppliesAsSent (s : Server) : Prop :=
  ∀ a task, s.worker = .execute a → s.tasks.cell a = some task →
    ∃ (i : Nat) (w : Write), task.opN = i ∧ s.writes[i]? = some w ∧ w.CarriedBy task ∧
      w.Intact s.mem.strings

theorem Delivered.applies (h : s.Delivered) : s.AppliesAsSent := by
  intro a task hpc hc
  obtain ⟨i, w, hi, hw, hcarried⟩ := h.filed.tasks a task hc
  refine ⟨i, w, hi, hw, hcarried, h.intact i w hw fun hx => ?_⟩
  have hfinish := h.filed.waiting a task hc (hi ▸ hx)
  rw [hpc] at hfinish
  nomatch hfinish

end Server

theorem init_delivered {s : Server} (hi : serverInit n_lists mem = some s) : s.Delivered := by
  obtain ⟨skel, hskel, hi⟩ := Option.bind_eq_some_iff.mp hi
  have hsound := init_sound hskel
  unfold tableSkelInit at hskel
  split at hskel
  · cases hskel
  · cases hskel
    cases hi
    refine ⟨hsound, rfl, ⟨?_, ?_, ?_, ?_⟩, ?_, trivial, ?_⟩
    · intro a task hc
      nomatch hc
    · intro a b task other hc
      nomatch hc
    · intro a task hc
      nomatch hc
    · intro n hn
      nomatch hn
    · intro i w hi
      nomatch hi
    · nofun

/-- In every run in which a message is released only when its write has been
executed, each write is applied as it was sent. -/
theorem writes_applied_as_sent {s : Server} (hi : serverInit n_lists mem = some s₀)
    (ha : Along Server.step (fun s a => s.keeps a = true) s₀ as)
    (hr : run Server.step s₀ as = some s) : s.AppliesAsSent := by
  have hinit : s₀.Settled := .inr (init_delivered hi)
  rcases run_keeps (fun _ _ _ h hk hs => h.step hk hs) hinit ha hr with hdone | h
  · intro a task hpc
    rw [hdone] at hpc
    nomatch hpc
  · exact h.applies

def writeCall (p : Nat) (opcode : Int) : List ServerStep :=
  [.receive ⟨opcode, ctEntry, 2, some (.ofBytes [97]), some (.ofBytes [97]), [], []⟩
      (.at p ⟨⟨none⟩, 0, 0, 0, none, none, 0, none⟩) anyMem,
    .skel (.invoke (some p) .zero (mallocTop [])), .skel .lock,
    .skel (.enqueue (mallocTop ⟨0, 0, none, none, none, 0⟩)), .skel .signal, .skel .unlock]

def popRound : List ServerStep := [.skel .test, .skel .acquire, .skel .look, .skel .pop]

def executeRound : List ServerStep :=
  [.skel (.execute nextMem noTable), .skel .finish, .skel .leave]

def replyRound : List ServerStep := [.reply (mallocTop []) true, .release]

def oneListServer : Server :=
  { toSkel := oneList, net := .poll, received := ⟨0, 0, 0, none, none, [], []⟩, writes := [] }

def promptRun : List ServerStep :=
  writeCall 0 opPut ++ popRound ++ executeRound ++ replyRound ++ writeCall 1 opDel ++ popRound

theorem writes_applied_as_sent_prompt : ∃ s, run Server.step oneListServer promptRun = some s ∧
    s.worker = .execute 1 ∧ s.AppliesAsSent := by
  have hi : serverInit 1 ⟨.empty, .empty⟩ = some oneListServer := rfl
  have ha : Along Server.step (fun s a => s.keeps a = true) oneListServer promptRun := by
    decide +kernel
  have hworker : (run Server.step oneListServer promptRun).map (·.worker) = some (.execute 1) := by
    decide +kernel
  obtain ⟨s, hr, hs⟩ := Option.map_eq_some_iff.mp hworker
  exact ⟨s, hr, hs, writes_applied_as_sent hi ha hr⟩

/-- The request is answered and released before the worker gets to it. -/
theorem writes_not_applied_as_sent : ∃ s,
    run Server.step oneListServer (writeCall 0 opPut ++ replyRound ++ popRound) = some s ∧
      ¬ s.AppliesAsSent := by
  have hview : (run Server.step oneListServer (writeCall 0 opPut ++ replyRound ++ popRound)).map
      (fun s => (s.worker, (s.tasks.cell 0).map TaskT.opN, s.writes.map Write.released)) =
        some (.execute 0, some 0, [true]) := by decide +kernel
  obtain ⟨s, hr, hs⟩ := Option.map_eq_some_iff.mp hview
  simp only [Prod.mk.injEq] at hs
  obtain ⟨hworker, htask, hreleased⟩ := hs
  obtain ⟨task, hc, hnumber⟩ := Option.map_eq_some_iff.mp htask
  refine ⟨s, hr, fun h => ?_⟩
  obtain ⟨i, w, hi, hw, -, hintact⟩ := h 0 task hworker hc
  obtain rfl : i = 0 := by omega
  have hlost : (s.writes.map Write.released)[0]? = some w.released := by
    rw [List.getElem?_map, hw]
    rfl
  rw [hreleased, hintact.kept] at hlost
  nomatch hlost

end HashMapStorage
