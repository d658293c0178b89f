import HashMapStorage.Delivery
import HashMapStorage.Lookup

/-!
# Copying a value (`data_dup`)

The copy goes over the structure that `data_create` returned, which has 16
bytes; and as many bytes are read as the size says, whatever the block of the
value holds. The size of a value put by a client is a field of its message that
nothing compares with the string.
-/

namespace HashMapStorage

open Machine

-- ---------------------------------------------------------------------------
-- Where the copy goes
-- ---------------------------------------------------------------------------

structure DataT.CopiedTo (d copy : DataT) : Prop where
  datasize : copy.datasize = d.datasize
  block : ∃ block, copy.data = some block ∧ d.datasize.toNat ≤ block.length ∧
    block.take d.datasize.toNat = d.bytes

/-- `data_dup` copies the value, and so do `table_put`, which goes on with the
copy, and `table_get` of an entry that has the value. -/
structure DataT.Copies (d : DataT) : Prop where
  dup : ∀ m, ∃ copy, dataDup (some d) m = .ok (some copy) ∧ d.CopiedTo copy
  put : ∀ (table : TableT) key m, table.countLists ≠ 0 → ∃ copy,
    tablePut table (some key) (some d) m = tableAddEntry table ⟨key, copy⟩ m.node ∧
      d.CopiedTo copy
  get : ∀ table key m entry, tableFind table key = .ok (some entry) → entry.value = d → ∃ copy,
    tableGet table (some key) m = .ok (some copy) ∧ d.CopiedTo copy

theorem DataT.Valid.copiedTo {d : DataT} (hd : d.Valid) (m : DataMem) :
    d.CopiedTo (d.copied m) := by
  obtain ⟨-, block, hb, hlen⟩ := hd.copied m
  refine ⟨rfl, block, hb, hlen, ?_⟩
  have hbytes := hd.copied_bytes m
  rwa [DataT.bytes, hb, Option.getD_some] at hbytes

/-- A value is copied exactly if it fits the structure. -/
theorem copies_iff_fits {d : DataT} (hd : d.Valid) : d.Copies ↔ d.datasize ≤ sizeofDataT := by
  constructor
  · intro h
    obtain ⟨copy, hdup, -⟩ := h.dup .zero
    rcases dataDup_ok hdup with hnone | ⟨-, hfits, -⟩
    · cases hnone
    · exact hfits
  · intro hs
    have hdup := dataDup_fits hd hs
    refine ⟨fun m => ⟨_, hdup m, hd.copiedTo m⟩, fun table key m hn => ?_,
      fun table key m entry hfind hvalue => ?_⟩
    · exact ⟨_, by rw [tablePut_eq hn, hdup, ok_bind, tableAddCopy], hd.copiedTo m.data⟩
    · refine ⟨_, ?_, hd.copiedTo m⟩
      rw [tableGet_find, hfind, ok_bind, dupFound, hvalue, hdup]

def zeros (n : Nat) : DataT := ⟨n, some (List.replicate n 0)⟩

theorem copies_iff_fits_sixteen : (zeros 16).Copies :=
  (copies_iff_fits (by decide)).mpr (by decide)

/-- One byte more is written behind the structure. -/
theorem seventeen_overflows :
    (zeros 17).Valid ∧ ¬ (zeros 17).Copies ∧
      dataDup (some (zeros 17)) .zero = .error .outOfBounds := by
  have hdup : dataDup (some (zeros 17)) .zero = .error .outOfBounds := by decide +kernel
  refine ⟨by decide, fun h => ?_, hdup⟩
  obtain ⟨copy, hcopy, -⟩ := h.dup .zero
  rw [hdup] at hcopy
  nomatch hcopy

-- ---------------------------------------------------------------------------
-- What a put reads
-- ---------------------------------------------------------------------------

def taskValue (strings : Strings) (task : TaskT) : Exec (Option DataT) := do
  let data ← blockOrNull strings task.data
  pure (dataCreate2 task.datasize data)

theorem executeTask_put (hop : task.op ≠ 0) :
    executeTask table strings task m = (do
      let key ← strOrNull strings task.key
      let value ← taskValue strings task
      let (_, table) ← tablePut table key value m
      pure table) := by
  simp only [executeTask, taskValue, if_neg hop, bind_assoc, pure_bind]

/-- Every byte that `data_dup` reads, if it is called, lies in the string sent or
is its NUL. -/
def TaskT.ReadsInside (task : TaskT) (strings : Strings) (sent : Option CStr) : Prop :=
  ∃ value, taskValue strings task = .ok value ∧ (task.key ≠ none → ∀ d ∈ value,
    ∃ block string, d.data = some block ∧ readStr block = .ok string ∧ sent = some string ∧
      d.datasize.toNat ≤ string.block.length)

/-- `table_put` refuses the value, or its size is that of the string at most,
with the NUL. -/
def Storable (key data : Option CStr) (dataSize : Int) : Prop :=
  key = none ∨ dataSize ≤ 0 ∨ ∀ string ∈ data, dataSize ≤ string.bytes.length + 1

theorem strOrNull_null {h : Strings} (hs : strOrNull h p = .ok s) : p = none ↔ s = none := by
  cases p with
  | none =>
    cases hs
    simp
  | some a =>
    obtain ⟨string, -, hs⟩ := seq_ok hs
    cases hs
    simp

theorem taskValue_block {task : TaskT} (hp : task.data = some a)
    (hc : strings.cell a = some block) :
    taskValue strings task =
      .ok (if task.datasize ≤ 0 then none else some ⟨task.datasize, some block⟩) := by
  simp [taskValue, hp, blockOrNull, Heap.load_some hc, dataCreate2]

theorem executeTask_overreads {task : TaskT} {table : TableT} (hop : task.op ≠ 0)
    (hkey : strOrNull strings task.key = .ok (some key)) (hp : task.data = some a)
    (hc : strings.cell a = some block) (hpos : 0 < task.datasize)
    (hlen : block.length < task.datasize.toNat) (hn : table.countLists ≠ 0) (m : PutMem) :
    executeTask table strings task m = .error .outOfBounds := by
  have hvalue := taskValue_block hp hc
  rw [if_neg (Int.not_le.mpr hpos)] at hvalue
  rw [executeTask_put hop, hkey, ok_bind, hvalue, ok_bind, tablePut_eq hn,
    dataDup_overflows hpos rfl fun h => absurd h.2 (Nat.not_le.mpr hlen)]
  rfl

theorem readsInside_none {task : TaskT} (hvalue : taskValue strings task = .ok none) :
    task.ReadsInside strings sent := ⟨none, hvalue, by simp⟩

theorem readsInside_some {task : TaskT} (hvalue : taskValue strings task =
    .ok (some ⟨task.datasize, some block⟩)) (hread : readStr block = .ok string) :
    task.ReadsInside strings (some string) ↔
      (task.key ≠ none → task.datasize.toNat ≤ string.block.length) := by
  constructor
  · rintro ⟨value, hv, hin⟩ hk
    rw [hvalue] at hv
    cases hv
    obtain ⟨block', string', -, -, hsent, hlen⟩ := hin hk _ rfl
    cases hsent
    exact hlen
  · intro h
    refine ⟨_, hvalue, fun hk d hd => ?_⟩
    cases hd
    exact ⟨block, string, rfl, hread, rfl, h hk⟩

theorem readsInside_iff {task : TaskT} (hkey : strOrNull strings task.key = .ok key)
    (hdata : strOrNull strings task.data = .ok data) :
    task.ReadsInside strings data ↔ Storable key data task.datasize := by
  have hnull := strOrNull_null hkey
  cases hp : task.data with
  | none =>
    rw [hp] at hdata
    cases hdata
    have hvalue : taskValue strings task = .ok none := by
      simp [taskValue, hp, blockOrNull, dataCreate2]
    exact iff_of_true (readsInside_none hvalue) (.inr (.inr (by simp)))
  | some a =>
    rw [hp] at hdata
    obtain ⟨string, hstring, hdata⟩ := seq_ok hdata
    cases hdata
    obtain ⟨b, block, hb, hc, hread⟩ := strAt_ok hstring
    cases hb
    have hvalue := taskValue_block hp hc
    by_cases hpos : task.datasize ≤ 0
    · rw [if_pos hpos] at hvalue
      exact iff_of_true (readsInside_none hvalue) (.inr (.inl hpos))
    · rw [if_neg hpos] at hvalue
      rw [readsInside_some hvalue hread, CStr.block_length, Storable, ← hnull]
      have hfits : task.datasize.toNat ≤ string.bytes.length + 1 ↔
          ∀ s ∈ some string, task.datasize ≤ s.bytes.length + 1 := by
        simp only [Option.mem_def, Option.some.injEq, forall_eq']
        omega
      rw [← hfits]
      by_cases hk : task.key = none <;> simp [hk, hpos]

/-- A message made by `to_message` is put in the queue, and its strings are as
they were when the worker executes the task: what is stored has been sent
exactly if `data_size` does not exceed the string. -/
theorem put_reads_inside {messageT message : MessageT} (hsent : messageT.Says mem f)
    (hm : toMessage mem (some messageT) m = .ok (some message, mem'))
    (hkept : ∀ a, message.key = some a ∨ message.data = some a →
      strings.cell a = mem'.strings.cell a) (junk : TaskT) (number : Int) :
    (newTask junk number true message).ReadsInside strings (nonEmpty f.data) ↔
      Storable (nonEmpty f.key) (nonEmpty f.data) f.dataSize := by
  obtain ⟨message', mem'', hm', hmessage, -⟩ := toMessage_says hsent m
  rw [hm] at hm'
  cases hm'
  have hkey : strOrNull strings message.key = .ok (nonEmpty f.key) := by
    rw [strOrNull_frame fun a ha => hkept a (.inl ha)]
    exact hmessage.key
  have hdata : strOrNull strings message.data = .ok (nonEmpty f.data) := by
    rw [strOrNull_frame fun a ha => hkept a (.inr ha)]
    exact hmessage.data
  rw [readsInside_iff hkey hdata]
  exact iff_of_eq (congrArg _ hmessage.dataSize)

theorem Server.AppliesAsSent.reads_inside {s : Server} (h : s.AppliesAsSent)
    (hpc : s.worker = .execute a) (hc : s.tasks.cell a = some task) (hop : task.op ≠ 0) :
    ∃ (i : Nat) (w : Write), task.opN = i ∧ s.writes[i]? = some w ∧
      (task.ReadsInside s.mem.strings w.request.data ↔
        Storable w.request.key w.request.data w.request.dataSize) := by
  obtain ⟨i, w, hi, hw, hcarried, hintact⟩ := h a task hpc hc
  have hput : w.request.opcode = opPut := by
    by_contra hne
    exact hop (by rw [hcarried.op, if_neg hne])
  obtain ⟨hdata, hsize⟩ := hcarried.value hput
  refine ⟨i, w, hi, hw, ?_⟩
  rw [← hsize]
  exact readsInside_iff (hcarried.key ▸ hintact.key) (hdata ▸ hintact.data)

def shortPut (dataSize : Int) : Fields :=
  ⟨opPut, ctEntry, dataSize, some (.ofBytes [97]), some (.ofBytes [97]), [], []⟩

def shortMessageT (dataSize : Int) : MessageT :=
  ⟨⟨none⟩, opPut, ctEntry, dataSize, some 0, some 0, 0, none⟩

def shortMem : Mem := ⟨Heap.empty.set 0 (some [97, 0]), .empty⟩

theorem shortMessageT_sent (dataSize : Int) :
    (shortMessageT dataSize).Says shortMem (shortPut dataSize) := by
  refine ⟨?_, ?_, rfl, rfl, rfl, rfl, rfl⟩ <;> rfl

def shortMessage (dataSize : Int) : MessageT :=
  ⟨⟨none⟩, opPut, ctEntry, dataSize, some 1, some 2, 0, none⟩

def shortTask (dataSize : Int) : TaskT :=
  newTask ⟨0, 0, none, none, none, 0⟩ 0 true (shortMessage dataSize)

theorem shortMessage_made (dataSize : Int) : ∃ mem',
    toMessage shortMem (some (shortMessageT dataSize)) anyMem =
        .ok (some (shortMessage dataSize), mem') ∧
      strOrNull mem'.strings (shortTask dataSize).key = .ok (some (.ofBytes [97])) ∧
      strOrNull mem'.strings (shortTask dataSize).data = .ok (some (.ofBytes [97])) ∧
      mem'.strings.cell 1 = some [97, 0] :=
  ⟨_, rfl, rfl, rfl, rfl⟩

theorem put_reads_inside_two : ∃ mem',
    toMessage shortMem (some (shortMessageT 2)) anyMem = .ok (some (shortMessage 2), mem') ∧
      (shortTask 2).ReadsInside mem'.strings (some (.ofBytes [97])) := by
  obtain ⟨mem', hm, -⟩ := shortMessage_made 2
  refine ⟨mem', hm, (put_reads_inside (shortMessageT_sent 2) hm (fun _ _ => rfl) _ _).mpr ?_⟩
  exact .inr (.inr fun string hs => by cases hs; decide)

/-- Sixteen bytes are read of a block that has two, whatever is in the table. -/
theorem sixteen_read_outside : ∃ mem',
    toMessage shortMem (some (shortMessageT 16)) anyMem = .ok (some (shortMessage 16), mem') ∧
      ¬ (shortTask 16).ReadsInside mem'.strings (some (.ofBytes [97])) ∧
      ∀ (table : TableT) m, table.countLists ≠ 0 →
        executeTask table mem'.strings (shortTask 16) m = .error .outOfBounds := by
  obtain ⟨mem', hm, hkey, hdata, hc⟩ := shortMessage_made 16
  refine ⟨mem', hm, fun h => ?_, fun table m hn => ?_⟩
  · rcases (readsInside_iff hkey hdata).mp h with hnull | hsize | hfits
    · cases hnull
    · exact absurd hsize (by decide)
    · exact absurd (hfits _ rfl) (by decide)
  · exact executeTask_overreads (by decide) hkey rfl hc (by decide) (by decide) hn m

end HashMapStorage
