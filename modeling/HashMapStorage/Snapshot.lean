import HashMapStorage.Lookup
import HashMapStorage.MessageLaws
import HashMapStorage.SkelLaws

/-!
# The keys in an answer (`invoke`)

On a GETKEYS the table is looked at three times: for the number of keys, for the
keys, and for the size of the array they are copied to. The worker may put and
remove keys in between, and the answer is a snapshot exactly if there are as many
keys the second time and not fewer the third time.
-/

namespace HashMapStorage

open Machine

-- ---------------------------------------------------------------------------
-- Copying the keys
-- ---------------------------------------------------------------------------

def chavesOf (keys : List CStr) : List Slot := keys.map .str ++ [.null]

@[simp] theorem chavesOf_cons (key : CStr) (keys : List CStr) :
    chavesOf (key :: keys) = .str key :: chavesOf keys := rfl

/-- The keys in front of the first NULL, which are those that the loop copies. -/
def storedKeys : List Slot → List CStr
  | .str key :: chaves => key :: storedKeys chaves
  | _ => []

@[simp] theorem storedKeys_chavesOf (keys : List CStr) : storedKeys (chavesOf keys) = keys := by
  induction keys with
  | nil => rfl
  | cons key keys ih => rw [chavesOf_cons, storedKeys, ih]

theorem copyChavesLoop_str (string : Malloc (List UInt8)) {mem : Mem} (before : List Ptr)
    (ha : ArrayAt mem.arrays array (before ++ r :: room)) (key : CStr) (chaves : List Slot) :
    ∃ copy mem', copyChavesLoop string array (.str key :: chaves) before.length mem =
        copyChavesLoop string array chaves (before ++ [copy]).length mem' ∧
      ArrayAt mem'.arrays array (before ++ [copy] ++ room) ∧
      mem'.strings.load copy = .ok key.block ∧ mem.strings.Grows mem'.strings := by
  obtain ⟨hg, hload⟩ := newStr_spec mem.strings string key
  obtain ⟨arrays, hset, ha', -⟩ := setSlot_of ha (i := before.length) (by simp)
    (newStr mem.strings string key).1
  refine ⟨_, ⟨(newStr mem.strings string key).2, arrays⟩, ?_, by simpa using ha', hload, hg⟩
  simp [copyChavesLoop, hset]

theorem copyChavesLoop_copies (string : Malloc (List UInt8)) {mem : Mem} (before : List Ptr)
    (ha : ArrayAt mem.arrays array (before ++ room)) (hr : keys.length ≤ room.length) :
    ∃ mem' copies, copyChavesLoop string array (chavesOf keys) before.length mem = .ok mem' ∧
      ArrayAt mem'.arrays array (before ++ copies ++ room.drop keys.length) ∧
      copies.length = keys.length ∧ strsAt mem'.strings copies = .ok keys ∧
      mem.strings.Grows mem'.strings := by
  induction keys generalizing mem before room with
  | nil => exact ⟨mem, [], rfl, by simpa using ha, rfl, rfl, .refl _⟩
  | cons key keys ih =>
    obtain ⟨r, room, rfl⟩ := List.exists_cons_of_length_pos (Nat.lt_of_lt_of_le (Nat.succ_pos _) hr)
    obtain ⟨copy, mem', hstep, ha', hcopy, hg⟩ :=
      copyChavesLoop_str string before ha key (chavesOf keys)
    obtain ⟨mem'', copies, hrun, hfinal, hlen, hcopies, hg'⟩ := ih _ ha' (Nat.le_of_succ_le_succ hr)
    refine ⟨mem'', copy :: copies, hstep.trans hrun, by simpa using hfinal, by simp [hlen], ?_,
      hg.trans hg'⟩
    simp [strsAt, strAt_grows hg' (strAt_block hcopy), hcopies]

theorem copyChavesLoop_overflows (string : Malloc (List UInt8)) {mem : Mem} (before : List Ptr)
    (ha : ArrayAt mem.arrays array (before ++ room)) (hr : room.length < keys.length) :
    copyChavesLoop string array (chavesOf keys) before.length mem = .error .outOfBounds := by
  induction keys generalizing mem before room with
  | nil => nomatch hr
  | cons key keys ih =>
    cases room with
    | nil =>
      obtain ⟨a, rfl, hc⟩ := ha
      simp [copyChavesLoop, setSlot, Heap.load_some hc]
    | cons r room =>
      obtain ⟨copy, mem', hstep, ha', -⟩ := copyChavesLoop_str string before ha key (chavesOf keys)
      exact hstep.trans (ih _ ha' (Nat.lt_of_succ_lt_succ hr))

-- ---------------------------------------------------------------------------
-- The third look
-- ---------------------------------------------------------------------------

theorem invokeKeys_array (table : TableT) (mem : Mem) (msg : MessageT) (m : MessageMem) :
    ∃ array mem' slots, ArrayAt mem'.arrays (some array) slots ∧
      slots.length = (tableSize table).toNat ∧
      ∀ chaves, invokeKeys table mem msg chaves m =
        copyChavesLoop m.string (some array) chaves 0 mem' >>=
          fun mem => pure ({ msg with keys := some array }, mem) := by
  refine ⟨_, _, (List.range (tableSize table).toNat).map m.slots, ⟨_, rfl, Heap.set_cell ..⟩, ?_,
    fun _ => rfl⟩
  simp

theorem invokeKeys_copies {table : TableT} (mem : Mem) (msg : MessageT) (m : MessageMem)
    (hr : keys.length ≤ (tableSize table).toNat) :
    ∃ array mem', invokeKeys table mem msg (chavesOf keys) m =
        .ok ({ msg with keys := some array }, mem') ∧
      ∀ message : MessageT, message.keys = some array → message.nKeys = keys.length →
        message.keyStrs mem' = .ok keys := by
  obtain ⟨array, mem₁, slots, ha, hslots, hcall⟩ := invokeKeys_array table mem msg m
  obtain ⟨mem', copies, hrun, ha', hlen, hs, -⟩ :=
    copyChavesLoop_copies m.string [] ha (hslots ▸ hr)
  refine ⟨array, mem', ?_, fun message hk hn => ?_⟩
  · rw [hcall, ← List.length_nil, hrun]
    rfl
  · exact keyStrs_of (hk ▸ ha') (hn.trans hlen.symm) hs

theorem invokeKeys_overflows {table : TableT} (mem : Mem) (msg : MessageT) (m : MessageMem)
    (hr : (tableSize table).toNat < keys.length) :
    invokeKeys table mem msg (chavesOf keys) m = .error .outOfBounds := by
  obtain ⟨array, mem₁, slots, ha, hslots, hcall⟩ := invokeKeys_array table mem msg m
  have hrun := copyChavesLoop_overflows m.string [] ha (hslots ▸ hr)
  rw [hcall, ← List.length_nil, hrun]
  rfl

-- ---------------------------------------------------------------------------
-- What the worker leaves
-- ---------------------------------------------------------------------------

def TaskT.linkable (task : TaskT) (table : TableT) (strings : Strings) : Bool :=
  match strOrNull strings task.key with
  | .ok (some key) => decide (Hashed table.countLists key) && HashMapStorage.linkable table key
  | _ => true

theorem executeTask_maps {table table' : TableT} (ht : table.Maps m)
    (hl : task.linkable table strings = true)
    (h : executeTask table strings task mem = .ok table') : ∃ m', table'.Maps m' := by
  obtain ⟨key, hkey, h⟩ := seq_ok h
  cases key with
  | none =>
    have hsame : table' = table := by
      split at h
      · cases h
        rfl
      · obtain ⟨data, -, h⟩ := seq_ok h
        cases h
        rfl
    exact ⟨m, hsame ▸ ht⟩
  | some key =>
    simp only [TaskT.linkable, hkey, Bool.and_eq_true, decide_eq_true_eq] at hl
    split at h
    · obtain ⟨t, hdel, ht', -⟩ := tableDel_maps ht hl.1
      rw [hdel] at h
      cases h
      exact ⟨_, ht'⟩
    · obtain ⟨data, -, h⟩ := seq_ok h
      cases hvalue : dataCreate2 task.datasize data with
      | none =>
        rw [hvalue] at h
        cases h
        exact ⟨m, ht⟩
      | some value =>
        rw [hvalue] at h
        obtain ⟨⟨result, t⟩, hput, h⟩ := seq_ok h
        cases h
        let op : TableOp := .put key value mem
        have hstep : table.step op = some table' := by
          simp [op, TableT.step, TableT.perform, hput, Except.toOption]
        have hplace : table.linksInPlace op = true := by simp [op, TableT.linksInPlace, hl.2]
        have hhash : Hashed table.countLists op.key := hl.1
        exact step_maps ht hhash hplace hstep

def TableT.SizesAgree (table : TableT) : Prop := IsInt table.size ∧ ∃ chains, table.Chained chains

theorem TableT.Maps.sizesAgree {table : TableT} (ht : table.Maps m) : table.SizesAgree := by
  obtain ⟨chains, hc, -⟩ := ht.chains
  exact ⟨ht.fits, chains, hc⟩

namespace Skel

variable {s s' : Skel}

/-- The worker's call of a table function is defined and links no new key
through a stale tail pointer. -/
def worksInPlace (s : Skel) : SkelStep → Bool
  | .execute m _ =>
    match s.worker, s.table with
    | .execute a, some table =>
      !s.destroyed && (s.tasks.cell a).all fun task =>
        (executeTask table s.mem.strings task m).isOk && task.linkable table s.mem.strings
    | _, _ => true
  | _ => true

def Mapped (s : Skel) : Prop := ∃ table m, s.table = some table ∧ table.Maps m

theorem Mapped.step (h : s.Mapped) (hk : s.worksInPlace a = true) (hs : s.step a = some s') :
    s'.Mapped := by
  obtain ⟨table, m, ht, hm⟩ := h
  cases step_change hs with
  | @execute a task mem undefined hpc hc =>
    simp only [worksInPlace, hpc, ht, hc, Option.all_some, Bool.and_eq_true, Bool.not_eq_true']
      at hk
    obtain ⟨hlive, hok, hl⟩ := hk
    cases hrun : executeTask table s.mem.strings task mem with
    | error e =>
      rw [hrun] at hok
      nomatch hok
    | ok table' =>
      obtain ⟨m', hm'⟩ := executeTask_maps hm hl hrun
      exact ⟨table', m', by simp [tableAfter, ht, hlive, hrun], hm'⟩
  | _ => exact ⟨table, m, ht, hm⟩

end Skel

theorem init_mapped {s : Skel} (hi : tableSkelInit n_lists messages mem = some s) : s.Mapped := by
  unfold tableSkelInit at hi
  split at hi
  · cases hi
  · rename_i hn
    cases hi
    obtain ⟨table, hc⟩ : ∃ table, tableCreate n_lists = some table := by
      rw [tableCreate, dif_neg (by omega)]
      exact ⟨_, rfl⟩
    exact ⟨table, _, hc, tableCreate_maps hc⟩

theorem run_sizesAgree {s : Skel} (hi : tableSkelInit n_lists messages mem = some s₀)
    (ha : Along Skel.step (fun s a => s.worksInPlace a = true) s₀ as)
    (hr : run Skel.step s₀ as = some s) : ∃ table, s.table = some table ∧ table.SizesAgree := by
  obtain ⟨table, m, ht, hm⟩ :=
    run_keeps (fun _ _ _ h hk hs => h.step hk hs) (init_mapped hi) ha hr
  exact ⟨table, ht, hm.sizesAgree⟩

-- ---------------------------------------------------------------------------
-- A call
-- ---------------------------------------------------------------------------

/-- A step of the worker in its loop. -/
def SkelStep.ofLoop : SkelStep → Bool
  | .test | .acquire | .look | .wake | .reacquire | .pop | .execute _ _ | .finish | .leave => true
  | _ => false

def MainPc.atKeys : MainPc → Bool
  | .getKeys _ | .copyKeys _ _ => true
  | _ => false

namespace Skel

variable {s s' : Skel}

structure SameCall (s s' : Skel) : Prop where
  main : s'.main = s.main
  messages : s'.messages = s.messages
  mem : s'.mem = s.mem

theorem loop_sameCall (ha : a.ofLoop = true) (hs : s.step a = some s') : s.SameCall s' := by
  cases step_change hs with
  | enter | exit | acquire | wait | look | wake | reacquire | pop | skip | execute | finish
  | leave => exact ⟨rfl, rfl, rfl⟩
  | _ => nomatch ha

theorem Sound.atKeys (h : s.Sound) (hk : s.main.atKeys = true) (hs : s.step a = some s') :
    a.ofLoop = true ∨ a = .getKeys ∨ ∃ m, a = .copyKeys m := by
  have hrunning : s.worker.stopped = false :=
    (h.stoppable (by cases hm : s.main <;> rw [hm] at hk <;> first | rfl | cases hk)).2
  cases step_change hs with
  | enter | exit | acquire | wait | look | wake | reacquire | pop | skip | execute | finish
  | leave => exact .inl rfl
  | getKeys => exact .inr (.inl rfl)
  | copyKeys => exact .inr (.inr ⟨_, rfl⟩)
  | send _ _ hw =>
    rw [hw] at hrunning
    cases hrunning
  | outside _ _ hpc | destroy hpc =>
    rcases hpc with hpc | ⟨_, _, hpc⟩ <;> rw [hpc] at hk <;> cases hk
  | invoke _ _ _ _ _ hpc | lock hpc | enqueue _ _ _ _ _ _ hpc | signal hpc | unlock hpc
  | clearFlag hpc | stopSignal hpc | join hpc | deleteQueue _ _ hpc =>
    rw [hpc] at hk
    cases hk

theorem run_sameCall (ha : ∀ a ∈ as, a.ofLoop = true) (hr : run step s as = some s') :
    s.SameCall s' := by
  have hkeeps : ∀ (t : Skel) (a : SkelStep) (t' : Skel), s.SameCall t → a.ofLoop = true →
      t.step a = some t' → s.SameCall t' := by
    intro t a t' ⟨hmain, hmessages, hmem⟩ ha hs
    have hnext := loop_sameCall ha hs
    exact ⟨hnext.main.trans hmain, hnext.messages.trans hmessages, hnext.mem.trans hmem⟩
  exact run_keeps hkeeps ⟨rfl, rfl, rfl⟩ (along_of_forall fun _ => ha) hr

def HasKeys (s : Skel) (keys : List CStr) : Prop :=
  ∃ table chains, s.table = some table ∧ table.Chained chains ∧ keys = keysOf chains

/-- The call has returned with these keys in its message, and their number. -/
structure AnswersKeys (s : Skel) (p : Nat) (keys : List CStr) : Prop where
  main : s.main = .returned (some p) 0
  message : ∃ msg, s.messages.cell p = some msg ∧ msg.nKeys = keys.length ∧
    msg.keyStrs s.mem = .ok keys

end Skel

theorem TableT.SizesAgree.keys {table : TableT} (h : table.SizesAgree)
    (hget : tableGetKeys table = .ok chaves) : ∃ chains, table.Chained chains ∧
      chaves = chavesOf (keysOf chains) ∧ table.size = (keysOf chains).length := by
  obtain ⟨hint, chains, hc⟩ := h
  obtain ⟨slots, hslots, -⟩ := seq_ok hget
  have hroom : table.size < intMax := by
    have hsucc := (checkInt_ok hslots).1.2
    omega
  rw [tableGetKeys_chained hc hroom] at hget
  cases hget
  exact ⟨chains, hc, rfl, hc.size⟩

def MessageT.keysAnswer (msg : MessageT) (table : TableT) : MessageT :=
  { msg with
    opcode := opGetkeys + 1, cType := ctKeys, nKeys := (tableSize table % 2 ^ 64).toNat }

theorem TableT.SizesAgree.nKeys {table : TableT} (h : table.SizesAgree) (msg : MessageT) :
    (msg.keysAnswer table).nKeys = table.size := by
  obtain ⟨⟨-, hmax⟩, chains, hc⟩ := h
  have hsize := hc.size
  simp only [intMax] at hmax
  simp only [MessageT.keysAnswer, tableSize]
  omega

namespace Skel

variable {s s' : Skel}

structure CalledForKeys (s : Skel) (p : Nat) (msg : MessageT) (table : TableT) : Prop where
  idle : s.main = .idle
  cell : s.messages.cell p = some msg
  opcode : msg.opcode = opGetkeys
  cType : ¬ outOfRange msg.opcode msg.cType
  shared : s.table = some table
  agree : table.SizesAgree

theorem invoke_getkeys {table : TableT} (s : Skel) (p : Nat) (hop : msg.opcode = opGetkeys)
    (hct : ¬ outOfRange msg.opcode msg.cType) (data : DataMem) (string : Malloc (List UInt8)) :
    s.invoke table p msg data string = .ok
      (let s := { s with messageServer := some p }
       if tableSize table = 0 then s.answer p { msg.keysAnswer table with keys := none } s.mem
       else
        { s with
          messages := s.messages.set p (some (msg.keysAnswer table)), main := .getKeys p }) := by
  have hother : opGetkeys ≠ opSize ∧ opGetkeys ≠ opDel ∧ opGetkeys ≠ opGet ∧ opGetkeys ≠ opPut := by
    decide
  obtain ⟨hsize, hdel, hget, hput⟩ := hother
  rw [invoke, if_neg hct]
  simp only [hop, hsize, hdel, hget, hput, ↓reduceIte]
  by_cases hzero : tableSize table = 0
  · rw [if_pos hzero, if_pos hzero]
    rfl
  · rw [if_neg hzero, if_neg hzero]
    rfl

theorem CalledForKeys.step {table : TableT} (h : s.CalledForKeys p msg table) (data : DataMem)
    (string : Malloc (List UInt8)) :
    ∃ s', s.step (.invoke (some p) data string) = some s' ∧
      if tableSize table = 0 then
        s'.main = .returned (some p) 0 ∧
          s'.messages.cell p = some { msg.keysAnswer table with keys := none }
      else s'.main = .getKeys p ∧ s'.messages.cell p = some (msg.keysAnswer table) := by
  obtain ⟨hidle, hc, hop, hct, ht, -⟩ := h
  have hstep : s.step (.invoke (some p) data string) =
      ({ s with request := some msg, given := [] }.invoke table p msg data string).toOption := by
    simp only [Skel.step, mainStep, hidle, ht, hc]
    exact Option.or_none
  rw [invoke_getkeys _ _ hop hct] at hstep
  refine ⟨_, hstep, ?_⟩
  by_cases hzero : tableSize table = 0
  · rw [if_pos hzero, if_pos hzero]
    exact ⟨rfl, Heap.set_cell ..⟩
  · rw [if_neg hzero, if_neg hzero]
    exact ⟨rfl, Heap.set_cell ..⟩

theorem step_getKeys {table : TableT} (hpc : s.main = .getKeys p) (ht : s.table = some table)
    (hs : s.step .getKeys = some s') : ∃ chaves, tableGetKeys table = .ok chaves ∧
      s' = { s with main := .copyKeys p chaves } := by
  have hstep : s.step .getKeys = (tableGetKeys table).toOption.bind
      fun chaves => some { s with main := .copyKeys p chaves } := by
    simp only [Skel.step, mainStep, hpc, ht]
    exact Option.or_none
  rw [hstep, Option.bind_eq_some_iff] at hs
  obtain ⟨chaves, hget, hs⟩ := hs
  cases hs
  exact ⟨chaves, toOption_some.mp hget, rfl⟩

theorem step_copyKeys {table : TableT} (hpc : s.main = .copyKeys p chaves)
    (ht : s.table = some table) (hc : s.messages.cell p = some msg) (m : MessageMem) :
    s.step (.copyKeys m) = (invokeKeys table s.mem msg chaves m).toOption.map
      fun r => s.answer p r.1 r.2 := by
  simp only [Skel.step, mainStep, hpc, ht, hc, Option.map_eq_bind]
  exact Option.or_none

/-- The copy answers with the keys exactly if the message announces as many and the
array has a slot for each. -/
theorem copyKeys_answers {table : TableT} (hpc : s.main = .copyKeys p (chavesOf keys))
    (ht : s.table = some table) (hc : s.messages.cell p = some msg) (m : MessageMem) :
    (∃ s', s.step (.copyKeys m) = some s' ∧ s'.AnswersKeys p keys) ↔
      msg.nKeys = keys.length ∧ keys.length ≤ (tableSize table).toNat := by
  have hstep := step_copyKeys hpc ht hc m
  by_cases hr : keys.length ≤ (tableSize table).toNat
  · obtain ⟨array, mem', hrun, hread⟩ := invokeKeys_copies s.mem msg m hr
    rw [hrun] at hstep
    constructor
    · rintro ⟨s', hs, -, msg', hc', hn, -⟩
      rw [hstep] at hs
      cases hs
      simp only [answer, Heap.set_cell, Option.some.injEq] at hc'
      subst hc'
      exact ⟨hn, hr⟩
    · rintro ⟨hn, -⟩
      exact ⟨_, hstep, rfl, _, Heap.set_cell .., hn, hread _ rfl hn⟩
  · rw [invokeKeys_overflows s.mem msg m (Nat.lt_of_not_le hr)] at hstep
    refine iff_of_false ?_ fun h => hr h.2
    rintro ⟨s', hs, -⟩
    rw [hstep] at hs
    cases hs

/-- The call that begins with `call` gets the keys in `s₁` and is about to copy them in
`s`; in between the worker takes steps in its loop. -/
structure Looks (s₀ : Skel) (call : SkelStep) (before : List SkelStep) (s₁ : Skel)
    (after : List SkelStep) (s : Skel) : Prop where
  getKeys : run step s₀ (call :: before) = some s₁
  copyKeys : run step s₁ (.getKeys :: after) = some s
  worker : ∀ a ∈ before ++ after, a.ofLoop = true

/-- What is stored in `s` stays inside the array, as many keys as the message
says, and they are those of the table in some state of the run. -/
def CopiesSnapshot (s₀ : Skel) (as : List SkelStep) (s : Skel) (p : Nat) (m : MessageMem) : Prop :=
  ∃ chaves s', s.main = .copyKeys p chaves ∧ s.step (.copyKeys m) = some s' ∧
    s'.AnswersKeys p (storedKeys chaves) ∧
    Sometime step (fun t => t.HasKeys (storedKeys chaves)) s₀ as

theorem CalledForKeys.empty {table : TableT} (h : s.CalledForKeys p msg table)
    (hzero : table.size = 0) (data : DataMem) (string : Malloc (List UInt8)) :
    ∃ s', s.step (.invoke (some p) data string) = some s' ∧ s'.AnswersKeys p [] ∧
      s.HasKeys [] := by
  obtain ⟨s', hs, hcalled⟩ := h.step data string
  rw [if_pos (show tableSize table = 0 from hzero)] at hcalled
  obtain ⟨-, chains, hc⟩ := h.agree
  have hcount := hc.size
  have hkeys : keysOf chains = [] := List.length_eq_zero_iff.mp (by omega)
  refine ⟨s', hs, ⟨hcalled.1, _, hcalled.2, ?_, ?_⟩, table, chains, h.shared, hc, hkeys.symm⟩
  · simp [MessageT.keysAnswer, tableSize, hzero]
  · simp [MessageT.keysAnswer, MessageT.keyStrs, tableSize, hzero]

theorem CalledForKeys.looks {s₀ s₁ : Skel} {table₁ table₂ : TableT}
    (h : s₀.CalledForKeys p msg table₁)
    (hl : Looks s₀ (.invoke (some p) data string) before s₁ after s)
    (h₂ : s₁.table = some table₂) (hagree : table₂.SizesAgree) :
    ∃ chains, table₂.Chained chains ∧ table₂.size = (keysOf chains).length ∧
      s.main = .copyKeys p (chavesOf (keysOf chains)) ∧
      s.messages.cell p = some (msg.keysAnswer table₁) ∧ 0 < table₁.size := by
  obtain ⟨hfirst, hsecond, hworker⟩ := hl
  obtain ⟨t, ht, hbefore⟩ := run_cons hfirst
  obtain ⟨u, hu, hafter⟩ := run_cons hsecond
  have hsame₁ := run_sameCall (fun a ha => hworker a (List.mem_append_left _ ha)) hbefore
  have hsame₂ := run_sameCall (fun a ha => hworker a (List.mem_append_right _ ha)) hafter
  obtain ⟨t', ht', hcalled⟩ := h.step data string
  rw [ht] at ht'
  cases ht'
  by_cases hzero : tableSize table₁ = 0
  · -- the call has returned, so it does not get the keys
    rw [if_pos hzero] at hcalled
    have hmain : s₁.main = .returned (some p) 0 := hsame₁.main.trans hcalled.1
    cases step_change hu with
    | getKeys chaves hpc =>
      rw [hmain] at hpc
      nomatch hpc
  · rw [if_neg hzero] at hcalled
    obtain ⟨chaves, hget, rfl⟩ := step_getKeys (hsame₁.main.trans hcalled.1) h₂ hu
    obtain ⟨chains, hc, rfl, hsize⟩ := hagree.keys hget
    obtain ⟨-, chains₁, hc₁⟩ := h.agree
    have hcount : table₁.size = (keysOf chains₁).length := hc₁.size
    have hne : table₁.size ≠ 0 := hzero
    refine ⟨chains, hc, hsize, hsame₂.main, ?_, by omega⟩
    rw [hsame₂.messages, ← hcalled.2]
    exact congrArg (Heap.cell · p) hsame₁.messages

end Skel

/-- The answer to a GETKEYS is a snapshot exactly if `table_get_keys` finds as many
keys as the first `table_size` and the last one not fewer. -/
theorem keys_snapshot {s₀ : Skel} {table₁ : TableT} (h : s₀.CalledForKeys p msg table₁)
    (data : DataMem) (string : Malloc (List UInt8)) :
    (table₁.size = 0 → ∃ s, s₀.step (.invoke (some p) data string) = some s ∧
      s.AnswersKeys p [] ∧ s₀.HasKeys []) ∧
    ∀ before s₁ after s table₂ table₃ m,
      Skel.Looks s₀ (.invoke (some p) data string) before s₁ after s →
      s₁.table = some table₂ → table₂.SizesAgree → s.table = some table₃ →
      (s₀.CopiesSnapshot (.invoke (some p) data string :: before ++ .getKeys :: after) s p m ↔
        table₁.size = table₂.size ∧ table₂.size ≤ table₃.size) := by
  refine ⟨fun hzero => h.empty hzero data string, ?_⟩
  intro before s₁ after s table₂ table₃ m hl h₂ hagree h₃
  obtain ⟨chains, hc, hsize, hpc, hcell, hpos⟩ := h.looks hl h₂ hagree
  have hn := h.agree.nKeys msg
  have hcopy := Skel.copyKeys_answers hpc h₃ hcell m
  simp only [tableSize] at hcopy
  constructor
  · rintro ⟨chaves, s', hpc', hs, hanswer, -⟩
    rw [hpc] at hpc'
    cases hpc'
    rw [storedKeys_chavesOf] at hanswer
    obtain ⟨hcount, hroom⟩ := hcopy.mp ⟨s', hs, hanswer⟩
    omega
  · rintro ⟨heq, hle⟩
    obtain ⟨s', hs, hanswer⟩ := hcopy.mpr (by omega)
    refine ⟨chavesOf (keysOf chains), s', hpc, hs, ?_, ?_⟩
    · rwa [storedKeys_chavesOf]
    · rw [storedKeys_chavesOf]
      exact ⟨_, s₁, List.prefix_append .., hl.getKeys, table₂, chains, h₂, hc, rfl⟩

def oneWrite (opcode : Int) (b : UInt8) : Heap MessageT × Mem :=
  (Heap.empty.set 0 (some ⟨⟨none⟩, opcode, ctEntry, 2, some 1, some 0, 0, none⟩),
    ⟨(Heap.empty.set 0 (some [b, 0])).set 1 (some [b, 0]), .empty⟩)

def writeRound (opcode : Int) (b : UInt8) : List SkelStep :=
  [.outside (oneWrite opcode b).1 (oneWrite opcode b).2, .invoke (some 0) .zero (mallocTop []),
    .lock, .enqueue (mallocTop ⟨0, 0, none, none, none, 0⟩), .signal, .unlock]

def workRound : List SkelStep :=
  [.test, .acquire, .look, .pop, .execute nextMem noTable, .finish, .leave]

def keysMessage : MessageT := ⟨⟨none⟩, opGetkeys, ctNone, 0, none, none, 0, none⟩

def askRun (opcode : Int) (b : UInt8) : List SkelStep :=
  writeRound opPut 97 ++ workRound ++ writeRound opcode b ++
    [.outside (Heap.empty.set 0 (some keysMessage)) (oneWrite opcode b).2]

def keysCall : SkelStep := .invoke (some 0) .zero (mallocTop [])

theorem looks_of_run {s : Skel}
    (hr : run Skel.step t (as ++ (keysCall :: before ++ .getKeys :: after)) = some s)
    (hw : ∀ a ∈ before ++ after, a.ofLoop = true) :
    ∃ s₀ s₁, run Skel.step t as = some s₀ ∧ Skel.Looks s₀ keysCall before s₁ after s := by
  rw [run_append, Option.bind_eq_some_iff] at hr
  obtain ⟨s₀, hs₀, hr⟩ := hr
  rw [run_append, Option.bind_eq_some_iff] at hr
  obtain ⟨s₁, hs₁, hr⟩ := hr
  exact ⟨s₀, s₁, hs₀, hs₁, hr, hw⟩

def Skel.sizeNow (s : Skel) : Option Int := s.table.map TableT.size

theorem run_sized {s : Skel} (hr : run Skel.step oneList as = some s)
    (ha : Along Skel.step (fun s a => s.worksInPlace a = true) oneList as)
    (hn : (run Skel.step oneList as).map Skel.sizeNow = some (some n)) :
    ∃ table, s.table = some table ∧ table.SizesAgree ∧ table.size = n := by
  obtain ⟨table, ht, hagree⟩ := run_sizesAgree init_oneList ha hr
  refine ⟨table, ht, hagree, ?_⟩
  simpa [hr, Skel.sizeNow, ht] using hn

theorem keys_snapshot_late : ∃ s₀ s₁ s,
    run Skel.step oneList (askRun opPut 98) = some s₀ ∧
      Skel.Looks s₀ keysCall [] s₁ workRound s ∧ s.sizeNow = some 2 ∧
      s₀.CopiesSnapshot (keysCall :: [] ++ .getKeys :: workRound) s 0 anyMem := by
  have hdefined : (run Skel.step oneList
      (askRun opPut 98 ++ (keysCall :: [] ++ .getKeys :: workRound))).isSome := by decide +kernel
  obtain ⟨s, hr⟩ := Option.isSome_iff_exists.mp hdefined
  obtain ⟨s₀, s₁, hr₀, hl⟩ := looks_of_run hr (by decide)
  have hr₁ : run Skel.step oneList (askRun opPut 98 ++ [keysCall]) = some s₁ := by
    rw [run_append, hr₀]
    exact hl.getKeys
  obtain ⟨table₁, ht₁, hagree₁, hn₁⟩ :=
    run_sized (n := 1) hr₀ (by decide +kernel) (by decide +kernel)
  obtain ⟨table₂, ht₂, hagree₂, hn₂⟩ :=
    run_sized (n := 1) hr₁ (by decide +kernel) (by decide +kernel)
  obtain ⟨table₃, ht₃, -, hn₃⟩ := run_sized (n := 2) hr (by decide +kernel) (by decide +kernel)
  have hasked : (run Skel.step oneList (askRun opPut 98)).map
      (fun s => (s.main, s.messages.cell 0)) = some (.idle, some keysMessage) := by decide +kernel
  simp only [hr₀, Option.map_some, Option.some.injEq, Prod.mk.injEq] at hasked
  have hcalled : s₀.CalledForKeys 0 keysMessage table₁ :=
    ⟨hasked.1, hasked.2, rfl, by decide, ht₁, hagree₁⟩
  refine ⟨s₀, s₁, s, hr₀, hl, by simp [Skel.sizeNow, ht₃, hn₃], ?_⟩
  exact ((keys_snapshot hcalled _ _).2 [] s₁ workRound s table₂ table₃ anyMem hl ht₂ hagree₂
    ht₃).mpr (by omega)

/-- The worker puts a second key, or removes the only one, between the looks at
the table: two keys are stored and one is announced, or the key is stored behind
an array of no slots. -/
theorem keys_no_snapshot :
    (∃ s₀ s₁ s, run Skel.step oneList (askRun opPut 98) = some s₀ ∧
      Skel.Looks s₀ keysCall workRound s₁ [] s ∧
      ¬ s₀.CopiesSnapshot (keysCall :: workRound ++ .getKeys :: []) s 0 anyMem) ∧
    ∃ s₀ s₁ s, run Skel.step oneList (askRun opDel 97) = some s₀ ∧
      Skel.Looks s₀ keysCall [] s₁ workRound s ∧
      ¬ s₀.CopiesSnapshot (keysCall :: [] ++ .getKeys :: workRound) s 0 anyMem := by
  constructor
  · have hmain : (run Skel.step oneList
        (askRun opPut 98 ++ (keysCall :: workRound ++ .getKeys :: []))).map (·.main) =
          some (.copyKeys 0 (chavesOf [charKey 97, charKey 98])) := by decide +kernel
    have hcount : (run Skel.step oneList
        (askRun opPut 98 ++ (keysCall :: workRound ++ .getKeys :: []) ++ [.copyKeys anyMem])).map
          (fun s => (s.messages.cell 0).map MessageT.nKeys) = some (some 1) := by decide +kernel
    obtain ⟨s, hr, hpc⟩ := Option.map_eq_some_iff.mp hmain
    obtain ⟨s₀, s₁, hr₀, hl⟩ := looks_of_run hr (by decide)
    refine ⟨s₀, s₁, s, hr₀, hl, ?_⟩
    rintro ⟨chaves, s', hpc', hs, ⟨-, msg, hc, hn, -⟩, -⟩
    rw [hpc] at hpc'
    cases hpc'
    rw [storedKeys_chavesOf] at hn
    simp only [run_append _ _ [SkelStep.copyKeys anyMem], hr, Option.bind_some, run, hs,
      Option.map_some, hc, Option.some.injEq] at hcount
    rw [hcount] at hn
    cases hn
  · have hdefined : (run Skel.step oneList
        (askRun opDel 97 ++ (keysCall :: [] ++ .getKeys :: workRound))).isSome := by decide +kernel
    have hstuck : (run Skel.step oneList
        (askRun opDel 97 ++ (keysCall :: [] ++ .getKeys :: workRound) ++
          [.copyKeys anyMem])).isNone := by decide +kernel
    obtain ⟨s, hr⟩ := Option.isSome_iff_exists.mp hdefined
    obtain ⟨s₀, s₁, hr₀, hl⟩ := looks_of_run hr (by decide)
    refine ⟨s₀, s₁, s, hr₀, hl, ?_⟩
    rintro ⟨chaves, s', -, hs, -⟩
    rw [run_append, hr, Option.bind_some, run, hs] at hstuck
    cases hstuck

end HashMapStorage
