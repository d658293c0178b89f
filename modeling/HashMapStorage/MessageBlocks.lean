import HashMapStorage.Machine.Ledger
import HashMapStorage.Ownership

/-!
# The blocks of a message in service

What `free_message` releases, beside all the other blocks. A message owns its
two strings and, unless they have been copied or replaced since, the strings
its array leads to: `to_messageT` puts copies in their places, so the strings
that were there are released by nobody.
-/

namespace HashMapStorage

open Machine

/-- The message, with the strings `ps` of its array, beside all other blocks. -/
structure MessageT.Beside (message : MessageT) (mem : Mem) (ps : List Ptr)
    (strings arrays : Multiset Nat) : Prop where
  strings : Blocks mem.strings
    (message.data.block + (message.key.block + (blocksOf ps + strings)))
  arrays : Blocks mem.arrays (message.keys.block + arrays)
  keys : message.keys = none ∧ ps = [] ∨ message.nKeys ≠ 0 ∧ ps.length = message.nKeys ∧
    ∃ rest, ArrayAt mem.arrays message.keys (ps ++ rest)

structure MessageT.Bare (message : MessageT) (mem : Mem) (strings arrays : Multiset Nat) :
    Prop where
  strings : Blocks mem.strings (message.data.block + (message.key.block + strings))
  arrays : Blocks mem.arrays (message.keys.block + arrays)
  count : message.keys ≠ none → message.nKeys ≠ 0

variable {strings arrays : Multiset Nat}

-- ---------------------------------------------------------------------------
-- Releasing
-- ---------------------------------------------------------------------------

theorem freeKeysLoop_blocks {mem mem' : Mem} (h : freeKeysLoop array left i mem = .ok mem')
    (ha : ArrayAt mem.arrays array (before ++ (ps ++ rest))) (hi : before.length = i)
    (hl : ps.length = left) (hb : Blocks mem.strings (blocksOf ps + strings)) :
    mem'.arrays = mem.arrays ∧ Blocks mem'.strings strings := by
  induction ps generalizing left i mem before with
  | nil =>
    cases hl
    cases h
    exact ⟨rfl, by simpa using hb⟩
  | cons p ps ih =>
    cases hl
    have hslot : (before ++ (p :: ps ++ rest))[i]? = some p := by simp [← hi]
    obtain ⟨key, hkey, hrest⟩ := seq_ok h
    rw [slotAt_of ha hslot] at hkey
    obtain rfl : p = key := Except.ok.inj hkey
    obtain ⟨strings', hfree, hrest⟩ := seq_ok hrest
    rw [blocksOf_cons, add_assoc] at hb
    have ha' : ArrayAt mem.arrays array (before ++ [p] ++ (ps ++ rest)) := by simpa using ha
    obtain ⟨hsame, hblocks⟩ := ih hrest ha' (by simp [hi]) rfl (hb.free hfree)
    exact ⟨hsame, hblocks⟩

theorem MessageT.Beside.freeMessage {message : MessageT}
    (hm : message.Beside mem ps strings arrays) (h : freeMessage mem message = .ok mem') :
    Blocks mem'.strings strings ∧ Blocks mem'.arrays arrays := by
  obtain ⟨hstrings, harrays, hkeys⟩ := hm
  obtain ⟨strings₁, hdata, h⟩ := seq_ok h
  obtain ⟨strings₂, hkey, h⟩ := seq_ok h
  have hleft := (hstrings.free hdata).free hkey
  dsimp only at h
  rcases hkeys with ⟨hnull, rfl⟩ | ⟨hcount, hlen, rest, harray⟩
  · simp only [hnull, ne_eq, not_true_eq_false, and_false, ↓reduceIte] at h
    cases h
    rw [hnull] at harrays
    exact ⟨by simpa using hleft, by simpa using harrays⟩
  · have hsome : message.keys ≠ none := by
      obtain ⟨a, ha, -⟩ := harray
      simp [ha]
    simp only [hcount, hsome, ne_eq, not_false_eq_true, and_self, ↓reduceIte] at h
    obtain ⟨mem₁, hloop, h⟩ := seq_ok h
    obtain ⟨arrays', hfree, h⟩ := seq_ok h
    cases h
    have harray' : ArrayAt mem.arrays message.keys ([] ++ (ps ++ rest)) := harray
    obtain ⟨hsame, hstrings⟩ := freeKeysLoop_blocks hloop harray' rfl hlen hleft
    rw [hsame] at hfree
    exact ⟨hstrings, harrays.free hfree⟩

theorem MessageT.Beside.release {message : MessageT}
    (hm : message.Beside mem ps strings arrays) (hc : messages.cell p = some message)
    (h : releaseMessage messages mem (some p) = .ok (messages', mem')) :
    Blocks mem'.strings strings ∧ Blocks mem'.arrays arrays := by
  obtain ⟨message', hl, h⟩ := seq_ok h
  rw [Heap.load_some hc] at hl
  cases hl
  obtain ⟨mem₁, hfree, h⟩ := seq_ok h
  obtain ⟨messages₁, -, h⟩ := seq_ok h
  cases h
  exact hm.freeMessage hfree

-- ---------------------------------------------------------------------------
-- Receiving
-- ---------------------------------------------------------------------------

theorem newStr_blocks {h : Strings} (hb : Blocks h strings) (m : Malloc (List UInt8)) (s : CStr) :
    Blocks (newStr h m s).2 ((newStr h m s).1.block + strings) := by
  rw [newStr, Heap.alloc]
  dsimp only
  rw [Heap.set_set]
  exact hb.alloc (m.fresh h) _

theorem dupNonEmpty_blocks {h h' : Strings} (hb : Blocks h strings)
    (hd : dupNonEmpty h p m = .ok (q, h')) : Blocks h' (q.block + strings) := by
  obtain ⟨s, -, hd⟩ := seq_ok hd
  cases s with
  | none =>
    cases hd
    simpa using hb
  | some s =>
    dsimp only at hd
    split at hd
    · cases hd
      simpa using hb
    · obtain ⟨t, -, hd⟩ := seq_ok hd
      cases hd
      exact newStr_blocks hb m t

theorem placeStr_blocks {h : Strings} (hb : Blocks h strings) (m : Malloc (List UInt8))
    (s : Option CStr) :
    Blocks (placeStr h m s).2 ((placeStr h m s).1.block + strings) ∧
      (placeStr h m s).1.isSome = s.isSome := by
  cases s with
  | none => exact ⟨by simpa [placeStr] using hb, rfl⟩
  | some s => exact ⟨newStr_blocks hb m s, rfl⟩

theorem newStrs_blocks {h : Strings} (hb : Blocks h strings) (m : Malloc (List UInt8))
    (ss : List CStr) :
    Blocks (newStrs m h ss).2 (blocksOf (newStrs m h ss).1 + strings) ∧
      (newStrs m h ss).1.length = ss.length ∧
      (blocksOf (newStrs m h ss).1).card = ss.length := by
  induction ss generalizing h strings with
  | nil => exact ⟨by simpa [newStrs] using hb, rfl, rfl⟩
  | cons s ss ih =>
    obtain ⟨hrest, hlen, hcard⟩ := ih (newStr_blocks hb m s)
    have hone : (newStr h m s).1.block.card = 1 := rfl
    refine ⟨?_, by simp [newStrs, hlen], ?_⟩
    · simp only [newStrs, blocksOf_cons]
      rwa [add_assoc, add_left_comm]
    · simp only [newStrs, blocksOf_cons, Multiset.card_add, hone, hcard, List.length_cons]
      omega

theorem placeMessage_beside {mem : Mem} (hs : Blocks mem.strings strings)
    (ha : Blocks mem.arrays arrays) (f : Fields) (m : MessageMem) :
    ∃ ps, (placeMessage mem f m).1.Beside (placeMessage mem f m).2 ps strings arrays ∧
      (blocksOf ps).card = f.keys.length ∧
      (placeMessage mem f m).1.data.isSome = f.data.isSome ∧
      ((placeMessage mem f m).1.keys.isSome ↔ f.keys ≠ []) := by
  obtain ⟨hdata, hsome⟩ := placeStr_blocks hs m.string f.data
  obtain ⟨hkey, -⟩ := placeStr_blocks hdata m.string f.key
  rw [add_left_comm] at hkey
  unfold placeMessage
  dsimp only
  split
  · rename_i hnil
    exact ⟨[], ⟨by simpa using hkey, by simpa using ha, .inl ⟨rfl, rfl⟩⟩, by simp [hnil], hsome,
      by simp [hnil]⟩
  · rename_i hne
    obtain ⟨hkeys, hlen, hcard⟩ := newStrs_blocks hkey m.string f.keys
    refine ⟨_, ⟨?_, ?_, .inr ⟨?_, hlen, [none], _, rfl, Heap.set_cell ..⟩⟩, hcard, hsome, ?_⟩
    · rwa [add_left_comm, add_left_comm (blocksOf _) (Ptr.block _)] at hkeys
    · simp only [Heap.alloc, Heap.set_set]
      exact ha.alloc (m.array.fresh _) _
    · simpa using hne
    · simp [hne]

-- ---------------------------------------------------------------------------
-- Answering
-- ---------------------------------------------------------------------------

theorem dupKeysLoop_blocks {mem mem' : Mem}
    (h : dupKeysLoop m (some t) (some t) left i mem = .ok mem')
    (ht : mem.arrays.cell t = some (before ++ room)) (hi : before.length = i)
    (hs : Blocks mem.strings strings) (ha : Blocks mem.arrays arrays) :
    ∃ copies rest, copies.length = left ∧ mem'.arrays.cell t = some (before ++ (copies ++ rest)) ∧
      Blocks mem'.strings (blocksOf copies + strings) ∧ Blocks mem'.arrays arrays := by
  induction left generalizing i before room mem strings with
  | zero =>
    cases h
    exact ⟨[], room, rfl, ht, by simpa using hs, ha⟩
  | succ left ih =>
    obtain ⟨key, hkey, h₁⟩ := seq_ok h
    obtain ⟨⟨copy, strings'⟩, hdup, h₂⟩ := seq_ok h₁
    obtain ⟨arrays', hset, hrest⟩ := seq_ok h₂
    obtain ⟨s, -, hmade⟩ := seq_ok hdup
    have hnew : newStr mem.strings m s = (copy, strings') := Except.ok.inj hmade
    have hs₁ := newStr_blocks hs m s
    rw [hnew] at hs₁
    rw [slotAt, Heap.load_some ht, ok_bind] at hkey
    cases room with
    | nil =>
      rw [List.append_nil, List.getElem?_eq_none (Nat.le_of_eq hi)] at hkey
      cases hkey
    | cons r room =>
      have hin : i < (before ++ r :: room).length := by simp [← hi]
      rw [setSlot, Heap.load_some ht, ok_bind, if_pos hin, Heap.store_some ht] at hset
      obtain rfl := Except.ok.inj hset
      have hslots : (before ++ r :: room).set i copy = before ++ [copy] ++ room := by simp [← hi]
      rw [hslots] at hrest
      obtain ⟨copies, rest, hlen, hcell, hs', ha'⟩ :=
        ih hrest (Heap.set_cell ..) (by simp [hi]) hs₁ (ha.write ht _)
      refine ⟨copy :: copies, rest, by simp [hlen], by simpa using hcell, ?_, ha'⟩
      rwa [blocksOf_cons, add_assoc, add_left_comm]

theorem MessageT.Bare.toMessageT {message messageT : MessageT}
    (hm : message.Bare mem strings arrays) (h : toMessageT mem message m = .ok (messageT, mem')) :
    ∃ ps, message.Beside mem' ps strings arrays := by
  obtain ⟨hstrings, harrays, hcount⟩ := hm
  unfold HashMapStorage.toMessageT at h
  dsimp only at h
  split at h
  · rename_i hsome
    obtain ⟨mem₁, hloop, h⟩ := seq_ok h
    cases h
    have hpos := hcount hsome
    obtain ⟨t, slots, ht, hcell⟩ : ∃ t slots, message.keys = some t ∧
        mem.arrays.cell t = some slots := by
      obtain ⟨n, hn⟩ := Nat.exists_eq_succ_of_ne_zero hpos
      rw [hn] at hloop
      obtain ⟨key, hkey, -⟩ := seq_ok hloop
      obtain ⟨slots, ⟨t, ht, hcell⟩, -⟩ := slotAt_ok hkey
      exact ⟨t, slots, ht, hcell⟩
    rw [ht] at hloop
    have hcell₀ : mem.arrays.cell t = some ([] ++ slots) := hcell
    obtain ⟨copies, rest, hlen, hcell', hs', ha'⟩ :=
      dupKeysLoop_blocks hloop hcell₀ rfl hstrings harrays
    refine ⟨copies, ?_, ha', .inr ⟨hpos, hlen, rest, t, ht, hcell'⟩⟩
    rwa [add_left_comm, add_left_comm (blocksOf _) (Ptr.block _)] at hs'
  · rename_i hnull
    cases h
    have hnone : message.keys = none := not_not.mp hnull
    exact ⟨[], by simpa using hstrings, harrays, .inl ⟨hnone, rfl⟩⟩

theorem MessageT.Beside.bare {message : MessageT} (hm : message.Beside mem ps strings arrays) :
    message.Bare mem (blocksOf ps + strings) arrays := by
  refine ⟨hm.strings, hm.arrays, fun hsome => ?_⟩
  rcases hm.keys with ⟨hnull, -⟩ | ⟨hcount, -⟩
  · exact absurd hnull hsome
  · exact hcount

theorem MessageT.Bare.dropKeys {message : MessageT} (hm : message.Bare mem strings arrays) :
    { message with keys := none }.Bare mem strings (message.keys.block + arrays) :=
  ⟨hm.strings, by simpa using hm.arrays, fun h => absurd rfl h⟩

theorem placeBlock_blocks {h : Strings} (hb : Blocks h strings) (m : Malloc (List UInt8))
    (block : Option (List UInt8)) :
    Blocks (placeBlock h m block).2 ((placeBlock h m block).1.block + strings) := by
  cases block with
  | none => simpa [placeBlock] using hb
  | some block =>
    simp only [placeBlock, Heap.alloc, Heap.set_set]
    exact hb.alloc (m.fresh h) _

theorem MessageT.Bare.invokeGet {message message' : MessageT} {mem mem' : Mem}
    (hm : message.Bare mem strings arrays)
    (h : invokeGet table mem message found string = .ok (message', mem')) :
    message'.Bare mem' (message.data.block + strings) arrays := by
  obtain ⟨hstrings, harrays, hcount⟩ := hm
  rw [add_left_comm] at hstrings
  obtain ⟨key, -, h⟩ := seq_ok h
  obtain ⟨d, -, h⟩ := seq_ok h
  cases d with
  | none =>
    cases h
    exact ⟨by simpa using hstrings, harrays, hcount⟩
  | some d =>
    cases h
    exact ⟨placeBlock_blocks hstrings string d.data, harrays, hcount⟩

theorem setSlot_blocks {a a' : Heap (List Ptr)} (hb : Blocks a arrays)
    (h : setSlot a array i p = .ok a') : Blocks a' arrays := by
  obtain ⟨slots, hl, h⟩ := seq_ok h
  obtain ⟨t, rfl, hc⟩ := Heap.load_ok hl
  split at h
  · rw [Heap.store_some hc] at h
    cases h
    exact hb.write hc _
  · cases h

def keyCount : List Slot → Nat
  | .str _ :: chaves => keyCount chaves + 1
  | _ => 0

theorem copyChavesLoop_blocks {mem mem' : Mem}
    (h : copyChavesLoop string keys chaves i mem = .ok mem')
    (hs : Blocks mem.strings strings) (ha : Blocks mem.arrays arrays) :
    ∃ copies, copies.card = keyCount chaves ∧ Blocks mem'.strings (copies + strings) ∧
      Blocks mem'.arrays arrays := by
  induction chaves generalizing i mem strings with
  | nil => cases h
  | cons slot chaves ih =>
    cases slot with
    | unset => cases h
    | null =>
      cases h
      exact ⟨0, rfl, by simpa using hs, ha⟩
    | str key =>
      obtain ⟨arrays', hset, hrest⟩ := seq_ok h
      obtain ⟨copies, hcard, hs', ha'⟩ := ih hrest (newStr_blocks hs string key)
        (setSlot_blocks ha hset)
      refine ⟨(newStr mem.strings string key).1.block + copies, ?_, ?_, ha'⟩
      · simp [keyCount, hcard, newStr]
      · rwa [add_assoc, add_left_comm]

theorem invokeKeys_bare {message message' : MessageT} {mem mem' : Mem}
    (hm : { message with keys := none }.Bare mem strings arrays) (hcount : message.nKeys ≠ 0)
    (h : invokeKeys table mem message chaves m = .ok (message', mem')) :
    ∃ copies, copies.card = keyCount chaves ∧ message'.Bare mem' (copies + strings) arrays := by
  obtain ⟨hstrings, harrays, -⟩ := hm
  obtain ⟨mem₁, hloop, h⟩ := seq_ok h
  cases h
  simp only [Heap.set_set] at hloop
  have hplaced := harrays.alloc (m.array.fresh mem.arrays)
    ((List.range (tableSize table).toNat).map m.slots)
  obtain ⟨copies, hcard, hs', ha'⟩ := copyChavesLoop_blocks hloop hstrings hplaced
  refine ⟨copies, hcard, ?_, ?_, fun _ => hcount⟩
  · rwa [add_left_comm, add_left_comm copies] at hs'
  · simpa using ha'

end HashMapStorage
