import HashMapStorage.ListContract
import HashMapStorage.MessageLaws
import HashMapStorage.TableKeys

/-!
# Arrays of keys in memory (`list.c`)

`list_get_keys` with its array and the copies of the keys, and `list_free_keys`,
which releases what it finds up to the NULL. The array of an empty list has one
slot that is not written, so what ends it is whatever `malloc` left there.
-/

namespace HashMapStorage

open Machine

/-- What `malloc` decides in one `list_get_keys`: where the copies and the array
go, and what the array holds before. -/
structure KeysMem where
  string : Malloc (List UInt8)
  array : Malloc (List Ptr)
  slots : Nat → Ptr

def KeysMem.zero : KeysMem := ⟨mallocTop [], mallocTop [], fun _ => none⟩

def mallocSlots (mem : Mem) (n : Nat) (m : KeysMem) : Nat × Mem :=
  let (rt, arrays) := mem.arrays.alloc m.array
  (rt, { mem with arrays := arrays.set rt (some ((List.range n).map m.slots)) })

def copyKeysInto (nodes : Heap NodeT) (m : KeysMem) (rt : Ptr) :
    (fuel : Nat) → (node : Ptr) → (i : Nat) → Mem → Exec Mem
  | 0, _, _, _ => throw .diverges
  | _ + 1, none, i, mem => do
    let arrays ← setSlot mem.arrays rt i none
    pure { mem with arrays }
  | fuel + 1, some a, i, mem => do
    let node ← nodes.load (some a)
    let (key, strings) := newStr mem.strings m.string node.entrada.key
    let arrays ← setSlot mem.arrays rt i key
    copyKeysInto nodes m rt fuel node.proximo (i + 1) ⟨strings, arrays⟩

/-- `list_get_keys`. Nine bytes are allocated for an empty list. -/
def listGetKeysArray (nodes : Heap NodeT) (list : ListT) (mem : Mem) (m : KeysMem) :
    Exec (Ptr × Mem) :=
  if list.size = 0 then
    let (rt, mem) := mallocSlots mem 1 m
    pure (some rt, mem)
  else do
    let slots ← checkInt (list.size + 1)
    let (rt, mem) := mallocSlots mem slots.toNat m
    let mem ← copyKeysInto nodes m (some rt) (nodes.top + 1) list.head 0 mem
    pure (some rt, mem)

/-- The loop of `list_free_keys`; an array without a NULL is read past its end. -/
def freeKeysUntilNull (keys : Ptr) : (fuel i : Nat) → Mem → Exec Mem
  | 0, _, _ => throw .diverges
  | fuel + 1, i, mem => do
    match ← slotAt mem.arrays keys i with
    | none => pure mem
    | some a =>
      let strings ← mem.strings.free (some a)
      freeKeysUntilNull keys fuel (i + 1) { mem with strings }

def listFreeKeys (mem : Mem) (keys : Ptr) : Exec Mem := do
  let slots ← mem.arrays.load keys
  let mem ← freeKeysUntilNull keys (slots.length + 1) 0 mem
  let arrays ← mem.arrays.free keys
  pure { mem with arrays }

-- ---------------------------------------------------------------------------
-- Copies
-- ---------------------------------------------------------------------------

structure CopiesOf (h h' : Strings) (copies : List Nat) (keys : List CStr) : Prop where
  gains : h.Gains h' copies
  only : ∀ a ∉ copies, h'.cell a = h.cell a
  strs : strsAt h' (copies.map some) = .ok keys

theorem CopiesOf.nil (h : Strings) : CopiesOf h h [] [] := ⟨.refl h, fun _ _ => rfl, rfl⟩

theorem CopiesOf.cons {h h' : Strings} {m : Malloc (List UInt8)} {s : CStr}
    (hc : CopiesOf (newStr h m s).2 h' copies keys) :
    CopiesOf h h' (m.addr h :: copies) (s :: keys) := by
  have hnew := newStr_gains h m s
  obtain ⟨hg, hblock⟩ := newStr_spec h m s
  refine ⟨hnew.trans hc.gains, fun a ha => ?_, ?_⟩
  · obtain ⟨hne, hnot⟩ := not_or.mp (mt List.mem_cons.mpr ha)
    rw [hc.only a hnot, newStr, Heap.alloc]
    dsimp only
    rw [Heap.set_set, Heap.set_cell_ne _ _ hne]
  · have hs : strAt (newStr h m s).2 (some (m.addr h)) = .ok s := strAt_block hblock
    rw [List.map_cons, strsAt, strAt_grows hc.gains.grows hs, ok_bind, hc.strs]
    rfl

structure ArrayIn (arrays arrays' : Heap (List Ptr)) (rt : Nat) (slots : List Ptr) : Prop where
  cell : arrays'.cell rt = some slots
  only : ∀ a, a ≠ rt → arrays'.cell a = arrays.cell a

theorem ArrayIn.setSlot (ha : ArrayIn arrays arrays' rt (before ++ s :: after))
    (hi : before.length = i) (p : Ptr) :
    ∃ arrays'', setSlot arrays' (some rt) i p = .ok arrays'' ∧
      ArrayIn arrays arrays'' rt (before ++ p :: after) := by
  have hroom : i < (before ++ s :: after).length := by simp [← hi]
  have hset : (before ++ s :: after).set i p = before ++ p :: after := by simp [← hi]
  refine ⟨arrays'.set rt (some (before ++ p :: after)), ?_, Heap.set_cell .., fun a hne => ?_⟩
  · rw [HashMapStorage.setSlot, Heap.load_some ha.cell, ok_bind, if_pos hroom,
      Heap.store_some ha.cell, hset]
  · rw [Heap.set_cell_ne _ _ hne, ha.only a hne]

theorem copyKeysInto_linked (m : KeysMem) {before after : List Ptr}
    (hl : Linked nodeShape nodes p xs none) (hf : xs.length < fuel)
    (ha : ArrayIn arrays mem.arrays rt (before ++ after)) (hi : before.length = i)
    (hr : after.length = xs.length + 1) :
    ∃ mem' copies, copyKeysInto nodes m (some rt) fuel p i mem = .ok mem' ∧
      ArrayIn arrays mem'.arrays rt (before ++ copies.map some ++ [none]) ∧
      CopiesOf mem.strings mem'.strings copies (xs.map fun x => x.2.key) := by
  induction xs generalizing p fuel before after i mem with
  | nil =>
    cases hl
    obtain ⟨fuel, rfl⟩ := Nat.exists_eq_add_one_of_ne_zero (Nat.ne_zero_of_lt hf)
    obtain ⟨s, rfl⟩ := List.length_eq_one_iff.mp hr
    obtain ⟨arrays', hset, ha'⟩ := ha.setSlot hi none
    refine ⟨{ mem with arrays := arrays' }, [], ?_, by simpa using ha', .nil _⟩
    rw [copyKeysInto, hset, ok_bind, pure_eq_ok]
  | cons x xs ih =>
    obtain ⟨rfl, node, hc, hitem, hl⟩ := hl
    have hitem : node.entrada = x.2 := hitem
    obtain ⟨fuel, rfl⟩ := Nat.exists_eq_add_one_of_ne_zero (Nat.ne_zero_of_lt hf)
    obtain ⟨s, after, rfl⟩ := List.exists_cons_of_length_eq_add_one hr
    obtain ⟨arrays', hset, ha'⟩ := ha.setSlot hi (newStr mem.strings m.string x.2.key).1
    have hkey : (newStr mem.strings m.string x.2.key).1 = some (m.string.addr mem.strings) := rfl
    let copied : Mem := ⟨(newStr mem.strings m.string x.2.key).2, arrays'⟩
    have hcopied : ArrayIn arrays copied.arrays rt
        ((before ++ [some (m.string.addr mem.strings)]) ++ after) := by
      rw [hkey] at ha'
      simpa [copied] using ha'
    have hnext : (before ++ [some (m.string.addr mem.strings)]).length = i + 1 := by simp [hi]
    obtain ⟨mem', copies, hrun, harray, hcopies⟩ := ih hl (by simpa using hf) hcopied hnext
      (by simpa using hr)
    refine ⟨mem', m.string.addr mem.strings :: copies, ?_, by simpa using harray, hcopies.cons⟩
    rw [copyKeysInto, Heap.load_some hc, ok_bind, hitem]
    simp only [hset, ok_bind]
    exact hrun

-- ---------------------------------------------------------------------------
-- The release
-- ---------------------------------------------------------------------------

theorem freeKeysUntilNull_copies {before : List Ptr} {strings : Strings}
    (hs : strings.Has copies)
    (ha : arrays.cell rt = some (before ++ copies.map some ++ [none])) (hi : before.length = i)
    (hf : copies.length < fuel) :
    ∃ strings', freeKeysUntilNull (some rt) fuel i ⟨strings, arrays⟩ = .ok ⟨strings', arrays⟩ ∧
      ∀ a, strings'.cell a = if a ∈ copies then none else strings.cell a := by
  induction copies generalizing before i fuel strings with
  | nil =>
    obtain ⟨fuel, rfl⟩ := Nat.exists_eq_add_one_of_ne_zero (Nat.ne_zero_of_lt hf)
    have hslot : slotAt arrays (some rt) i = .ok none := slotAt_of ⟨rt, rfl, ha⟩ (by simp [← hi])
    exact ⟨strings, by rw [freeKeysUntilNull, hslot, ok_bind, pure_eq_ok], by simp⟩
  | cons b copies ih =>
    obtain ⟨fuel, rfl⟩ := Nat.exists_eq_add_one_of_ne_zero (Nat.ne_zero_of_lt hf)
    have hslot : slotAt arrays (some rt) i = .ok (some b) :=
      slotAt_of ⟨rt, rfl, ha⟩ (by simp [← hi])
    obtain ⟨hnot, hnodup⟩ := List.nodup_cons.mp hs.nodup
    obtain ⟨v, hv⟩ := hs.allocated b (List.mem_cons_self ..)
    have hne : ∀ a ∈ copies, a ≠ b := fun a hin e => hnot (e ▸ hin)
    have hrest : (strings.set b none).Has copies := by
      refine ⟨fun a hin => ?_, hnodup⟩
      rw [Heap.set_cell_ne _ _ (hne a hin)]
      exact hs.allocated a (List.mem_cons_of_mem _ hin)
    have harray : arrays.cell rt = some ((before ++ [some b]) ++ copies.map some ++ [none]) := by
      simpa using ha
    have hnext : (before ++ [some b]).length = i + 1 := by simp [hi]
    obtain ⟨strings', hrun, hcells⟩ := ih hrest harray hnext (Nat.lt_of_succ_lt_succ hf)
    refine ⟨strings', ?_, fun a => ?_⟩
    · rw [freeKeysUntilNull, hslot, ok_bind]
      simp only [Heap.free_some hv, ok_bind]
      exact hrun
    · rw [hcells a]
      by_cases hab : a = b
      · simp [hab, hnot]
      · simp [hab, Heap.set_cell_ne]

theorem listFreeKeys_copies {mem mem' : Mem} (hfree : mem.arrays.cell rt = none)
    (ha : ArrayIn mem.arrays mem'.arrays rt (copies.map some ++ [none]))
    (hc : CopiesOf mem.strings mem'.strings copies keys) :
    ∃ mem'', listFreeKeys mem' (some rt) = .ok mem'' ∧
      (∀ a, mem''.strings.cell a = mem.strings.cell a) ∧
      ∀ a, mem''.arrays.cell a = mem.arrays.cell a := by
  have harray : mem'.arrays.cell rt = some ([] ++ copies.map some ++ [none]) := ha.cell
  have hempty : ([] : List Ptr).length = 0 := rfl
  have hfuel : copies.length < (copies.map some ++ [none]).length + 1 := by
    simp only [List.length_append, List.length_map]
    omega
  obtain ⟨strings', hrun, hcells⟩ :=
    freeKeysUntilNull_copies (.of_gains hc.gains) harray hempty hfuel
  refine ⟨⟨strings', mem'.arrays.set rt none⟩, ?_, fun a => ?_, fun a => ?_⟩
  · rw [listFreeKeys, Heap.load_some ha.cell, ok_bind, hrun, ok_bind, Heap.free_some ha.cell]
    rfl
  · rw [hcells a]
    by_cases hin : a ∈ copies
    · rw [if_pos hin, hc.gains.fresh a hin]
    · rw [if_neg hin, hc.only a hin]
  · by_cases hrt : a = rt
    · rw [hrt, hfree]
      exact Heap.set_cell ..
    · exact (Heap.set_cell_ne _ _ hrt).trans (ha.only a hrt)

-- ---------------------------------------------------------------------------
-- The array ends in NULL
-- ---------------------------------------------------------------------------

/-- Whatever memory holds, `list_get_keys` returns the keys in order and NULL
behind them, and `list_free_keys` ends and releases what it allocated. -/
def KeysTerminated (nodes : Heap NodeT) (list : ListT) (xs : Nodes) : Prop :=
  ∀ (mem : Mem) (m : KeysMem), ∃ rt mem' copies mem'',
    listGetKeysArray nodes list mem m = .ok (some rt, mem') ∧
      mem'.arrays.cell rt = some (copies.map some ++ [none]) ∧
      CopiesOf mem.strings mem'.strings copies (xs.map fun x => x.2.key) ∧
      listFreeKeys mem' (some rt) = .ok mem'' ∧
      (∀ a, mem''.strings.cell a = mem.strings.cell a) ∧
      ∀ a, mem''.arrays.cell a = mem.arrays.cell a

theorem mallocSlots_array (mem : Mem) (n : Nat) (m : KeysMem) :
    mem.arrays.cell (mallocSlots mem n m).1 = none ∧
      ArrayIn mem.arrays (mallocSlots mem n m).2.arrays (mallocSlots mem n m).1
        ((List.range n).map m.slots) ∧ (mallocSlots mem n m).2.strings = mem.strings := by
  refine ⟨m.array.fresh _, ⟨Heap.set_cell .., fun a hne => ?_⟩, rfl⟩
  simp only [mallocSlots, Heap.alloc] at hne ⊢
  rw [Heap.set_set, Heap.set_cell_ne _ _ hne]

theorem empty_unterminated (hsize : list.size = 0) : ¬ KeysTerminated nodes list xs := by
  intro h
  obtain ⟨rt, mem', copies, mem'', hrun, hcell, -⟩ :=
    h ⟨.empty, .empty⟩ ⟨mallocTop [], mallocTop [], fun _ => some 0⟩
  rw [listGetKeysArray, if_pos hsize] at hrun
  cases hrun
  have hjunk : some [some 0] = some (copies.map some ++ [none]) := hcell
  have hlast := congrArg List.getLast? (Option.some.inj hjunk)
  simp at hlast

theorem keys_terminated (hl : ListT.WellFormed nodes list xs) (hne : xs ≠ [])
    (hint : IsInt (list.size + 1)) : KeysTerminated nodes list xs := by
  intro mem m
  have hsize : ¬ list.size = 0 := by
    have := List.length_pos_iff.mpr hne
    have := hl.size
    omega
  have hroom : (list.size + 1).toNat = xs.length + 1 := by
    rw [hl.size]
    omega
  obtain ⟨hfree, harray, hstrings⟩ := mallocSlots_array mem (xs.length + 1) m
  have hempty : ([] : List Ptr).length = 0 := rfl
  obtain ⟨mem', copies, hrun, harray', hcopies⟩ := copyKeysInto_linked m hl.chain
    (Nat.lt_succ_of_le hl.chain.length_le_top) harray hempty (by simp)
  rw [hstrings] at hcopies
  obtain ⟨mem'', hrelease, hstr, harr⟩ := listFreeKeys_copies hfree harray' hcopies
  refine ⟨_, mem', copies, mem'', ?_, harray'.cell, hcopies, hrelease, hstr, harr⟩
  rw [listGetKeysArray, if_neg hsize, checkInt_of_isInt hint, ok_bind, hroom]
  simp only [hrun, ok_bind, pure_eq_ok]

def slotsOf (h : Strings) : List Ptr → Exec (List Slot)
  | [] => pure []
  | none :: ps => do
    let slots ← slotsOf h ps
    pure (.null :: slots)
  | some a :: ps => do
    let s ← strAt h (some a)
    let slots ← slotsOf h ps
    pure (.str s :: slots)

theorem slotsOf_copies {h : Strings} {copies : List Nat}
    (hs : strsAt h (copies.map some) = .ok keys) :
    slotsOf h (copies.map some ++ [none]) = .ok (keys.map .str ++ [.null]) := by
  induction copies generalizing keys with
  | nil =>
    cases hs
    rfl
  | cons a copies ih =>
    obtain ⟨s, keys', rfl, ha, hrest⟩ := strsAt_cons hs
    simp only [List.map_cons, List.cons_append, slotsOf, ha, ih hrest, ok_bind, pure_eq_ok]

theorem listGetKeysArray_reads (hl : ListT.WellFormed nodes list xs) (hne : xs ≠ [])
    (hint : IsInt (list.size + 1)) (mem : Mem) (m : KeysMem) :
    ∃ rt mem' slots, listGetKeysArray nodes list mem m = .ok (some rt, mem') ∧
      mem'.arrays.cell rt = some slots ∧ slotsOf mem'.strings slots = listGetKeys nodes list := by
  obtain ⟨rt, mem', copies, mem'', hrun, hcell, hcopies, -⟩ := keys_terminated hl hne hint mem m
  refine ⟨rt, mem', _, hrun, hcell, ?_⟩
  rw [slotsOf_copies hcopies.strs, listGetKeys_counts ⟨hl.chain, hl.size⟩ hint, if_neg hne,
    keySlots, List.map_map]
  rfl

theorem keysTerminated_iff (hl : ListT.WellFormed nodes list xs) :
    KeysTerminated nodes list xs ↔ xs ≠ [] ∧ IsInt (list.size + 1) := by
  refine ⟨fun h => ?_, fun ⟨hne, hint⟩ => keys_terminated hl hne hint⟩
  have hsize : ¬ list.size = 0 := fun hzero => empty_unterminated hzero h
  obtain ⟨rt, mem', copies, mem'', hrun, -⟩ := h ⟨.empty, .empty⟩ .zero
  rw [listGetKeysArray, if_neg hsize] at hrun
  obtain ⟨slots, hslots, -⟩ := seq_ok hrun
  refine ⟨?_, (checkInt_ok hslots).1⟩
  rintro rfl
  exact hsize hl.size

theorem keysTerminated_iff_three : KeysTerminated threeHeap threeList threeNodes :=
  (keysTerminated_iff threeList_wellFormed).mpr ⟨by simp [threeNodes], (by decide : IsInt 4)⟩

/-- A slot that is not NULL: it is taken for a key, and the next one is behind
the end of the array. -/
theorem emptyKeys_unterminated :
    ListT.WellFormed .empty listCreate [] ∧ ¬ KeysTerminated .empty listCreate [] ∧
      (listGetKeysArray .empty listCreate ⟨.empty, .empty⟩
        ⟨mallocTop [], mallocTop [], fun _ => some 7⟩ >>= fun r => listFreeKeys r.2 r.1) =
          .error .dangling :=
  ⟨⟨rfl, rfl, (by decide : IsInt 0), .inl rfl⟩, empty_unterminated rfl, rfl⟩

end HashMapStorage
