import HashMapStorage.Ownership
import HashMapStorage.Protobuf

/-!
# What a received message shares (`network_receive`)

`network_receive` unpacks a message, copies it with `to_message` and has the
unpacked one released. The strings and the array are copied into fresh blocks;
the base is copied as it is, with its pointer to the unknown fields.
-/

namespace HashMapStorage

open Machine

-- ---------------------------------------------------------------------------
-- The blocks of a copy
-- ---------------------------------------------------------------------------

/-- What `to_message` has made: its strings and its array are new, the array has a
slot for each key and the NULL. -/
structure MessageT.Fresh (mem : Mem) (message : MessageT) (keys : List Nat) (mem' : Mem) :
    Prop where
  strings : mem.strings.Gains mem'.strings (message.data.toList ++ message.key.toList ++ keys)
  arrays : mem.arrays.Grows mem'.arrays
  count : keys.length = message.nKeys
  array : message.keys = none ∧ keys = [] ∨
    ∃ a, message.keys = some a ∧ mem.arrays.cell a = none ∧
      mem'.arrays.cell a = some (keys.map some ++ [none])

theorem dupNonEmpty_gains (hd : dupNonEmpty h p m = .ok (q, h')) : h.Gains h' q.toList := by
  obtain ⟨s, -, hd⟩ := seq_ok hd
  cases s with
  | none =>
    cases hd
    exact .refl h
  | some s =>
    dsimp only at hd
    split at hd
    · cases hd
      exact .refl h
    · obtain ⟨a, rfl, hg⟩ := strdup_gains hd
      exact hg

theorem dupKeysLoop_gains (h : dupKeysLoop m source (some t) left i mem = .ok mem')
    (ht : mem.arrays.cell t = some (before ++ room)) (hi : before.length = i)
    (hr : left ≤ room.length) :
    ∃ new : List Nat, new.length = left ∧ mem.strings.Gains mem'.strings new ∧
      mem'.arrays.cell t = some (before ++ new.map some ++ room.drop left) ∧
      ∀ b, b ≠ t → mem'.arrays.cell b = mem.arrays.cell b := by
  induction left generalizing i before room mem with
  | zero =>
    cases h
    exact ⟨[], rfl, .refl _, by simpa using ht, fun _ _ => rfl⟩
  | succ left ih =>
    obtain ⟨key, -, h⟩ := seq_ok h
    obtain ⟨⟨copy, strings⟩, hdup, h⟩ := seq_ok h
    obtain ⟨arrays, hset, h⟩ := seq_ok h
    obtain ⟨a, rfl, hg⟩ := strdup_gains hdup
    obtain ⟨r, room', rfl⟩ := List.exists_cons_of_length_pos (show 0 < room.length by omega)
    have hslot : arrays = mem.arrays.set t (some (before ++ [some a] ++ room')) := by
      have hin : i < (before ++ r :: room').length := by simp [← hi]
      rw [setSlot, Heap.load_some ht, ok_bind, if_pos hin, Heap.store_some ht] at hset
      cases hset
      simp [← hi]
    subst hslot
    obtain ⟨new, hlen, hg', hcell, hothers⟩ := ih h (Heap.set_cell ..) (by simp [hi])
      (Nat.le_of_succ_le_succ hr)
    refine ⟨a :: new, by simp [hlen], hg.trans hg', by simpa using hcell, fun b hb => ?_⟩
    rw [hothers b hb, Heap.set_cell_ne _ _ hb]

theorem toMessage_fresh {messageT : MessageT}
    (hn : messageT.keys = none → messageT.nKeys = 0)
    (h : toMessage mem (some messageT) m = .ok (some message, mem')) :
    message.base = messageT.base ∧ ∃ keys, message.Fresh mem keys mem' := by
  obtain ⟨⟨data, strings₁⟩, hdata, h⟩ := seq_ok h
  obtain ⟨⟨key, strings₂⟩, hkey, h⟩ := seq_ok h
  have hg := (dupNonEmpty_gains hdata).trans (dupNonEmpty_gains hkey)
  dsimp only at h
  split at h
  · -- an array, and a copy for each of its keys
    obtain ⟨mem₁, hloop, h⟩ := seq_ok h
    obtain ⟨arrays, hset, h⟩ := seq_ok h
    cases h
    have hnew := m.array.fresh mem.arrays
    obtain ⟨new, hlen, hg', hcell, hothers⟩ := dupKeysLoop_gains hloop
      (Heap.set_cell ..) List.length_nil (by simp)
    obtain ⟨r, hlast⟩ : ∃ r, ((List.range (messageT.nKeys + 1)).map m.slots).drop
        messageT.nKeys = [r] := by
      rw [← List.length_eq_one_iff]
      simp
    rw [hlast, List.nil_append] at hcell
    have hin : messageT.nKeys < (new.map some ++ [r]).length := by simp [hlen]
    have hset' : (new.map some ++ [r]).set messageT.nKeys none = new.map some ++ [none] := by
      rw [← hlen]
      simp
    simp only [setSlot, Heap.alloc] at hset hcell
    rw [Heap.load_some hcell, ok_bind, if_pos hin, Heap.store_some hcell, hset'] at hset
    cases hset
    refine ⟨rfl, new, hg.trans hg', fun b v hb => ?_, hlen, .inr ⟨_, rfl, hnew, Heap.set_cell ..⟩⟩
    have hne := Heap.ne_of_free hb hnew
    rw [Heap.set_cell_ne _ _ hne, hothers b hne]
    dsimp only [Heap.alloc]
    rw [Heap.set_cell_ne _ _ hne, Heap.set_cell_ne _ _ hne, hb]
  · rename_i hnull
    cases h
    have hzero := hn (by simpa using hnull)
    refine ⟨rfl, [], by simpa using hg, .refl _, hzero.symm, .inl ⟨?_, rfl⟩⟩
    simp [hzero]

-- ---------------------------------------------------------------------------
-- What packing reads, and what is released
-- ---------------------------------------------------------------------------

inductive Block
  | string (a : Nat)
  | array (a : Nat)

def Mem.Allocated (mem : Mem) : Block → Prop
  | .string a => ∃ v, mem.strings.cell a = some v
  | .array a => ∃ v, mem.arrays.cell a = some v

/-- The strings that `message_t__get_packed_size` and `message_t__pack` read; the
unknown fields are among them. -/
def MessageT.stringBlocks (mem : Mem) (message : MessageT) : List Nat :=
  message.data.toList ++ message.key.toList ++ message.base.unknownFields.toList ++
    (((message.keys.bind mem.arrays.cell).getD []).take message.nKeys).filterMap id

def MessageT.Reaches (mem : Mem) (message : MessageT) : Block → Prop
  | .string a => a ∈ message.stringBlocks mem
  | .array a => message.keys = some a

/-- The two functions of protobuf-c that `network_receive` calls. What is unpacked
can be read, and has a NULL array where it has no keys; released are the blocks
of the message, its unknown fields included, and no others. -/
structure Unpacker where
  unpack : Mem → List UInt8 → Option (MessageT × Mem)
  freeUnpacked : Mem → MessageT → Mem
  readable : ∀ mem buf messageT mem', unpack mem buf = some (messageT, mem') →
    (∃ f, messageT.Says mem' f) ∧ (messageT.nKeys = 0 → messageT.keys = none)
  releases : ∀ mem messageT b, messageT.Reaches mem b → ¬ (freeUnpacked mem messageT).Allocated b
  keepsStrings : ∀ mem messageT a, ¬ messageT.Reaches mem (.string a) →
    (freeUnpacked mem messageT).strings.cell a = mem.strings.cell a
  keepsArrays : ∀ mem messageT a, ¬ messageT.Reaches mem (.array a) →
    (freeUnpacked mem messageT).arrays.cell a = mem.arrays.cell a

/-- `network_receive` once the bytes are read. -/
def networkReceive (pb : Unpacker) (mem : Mem) (buf : List UInt8) (m : MessageMem) :
    Exec (Option MessageT × Mem) :=
  match pb.unpack mem buf with
  | none => pure (none, mem)
  | some (recv_msg, mem) => do
    let (message, mem) ← toMessage mem (some recv_msg) m
    match message with
    | none => pure (none, mem)
    | some message => pure (some message, pb.freeUnpacked mem recv_msg)

theorem strsAt_allocated {h : Strings} (hs : strsAt h ps = .ok ss) (ha : some a ∈ ps) :
    ∃ v, h.cell a = some v := by
  induction ps generalizing ss with
  | nil => cases ha
  | cons p ps ih =>
    obtain ⟨s, ss', -, hp, hps⟩ := strsAt_cons hs
    rcases List.mem_cons.mp ha with rfl | ha
    · obtain ⟨b, block, hb, hc, -⟩ := strAt_ok hp
      cases hb
      exact ⟨block, hc⟩
    · exact ih hps ha

theorem strOrNull_allocated {h : Strings} (hs : strOrNull h (some a) = .ok s) :
    ∃ v, h.cell a = some v := by
  obtain ⟨t, ht, -⟩ := seq_ok hs
  obtain ⟨b, block, hb, hc, -⟩ := strAt_ok ht
  cases hb
  exact ⟨block, hc⟩

theorem unpacked_allocated {messageT : MessageT} (hs : messageT.Says mem f)
    (hn : messageT.nKeys = 0 → messageT.keys = none) (hg : mem.arrays.Grows mem'.arrays)
    (hr : messageT.Reaches mem' b) : mem.Allocated b := by
  obtain ⟨-, hkeys⟩ := keyStrs_ok hs.keys
  cases b with
  | array a =>
    have ha : messageT.keys = some a := hr
    have hne : messageT.nKeys ≠ 0 := fun hz => by rw [hn hz] at ha; cases ha
    obtain ⟨slots, ⟨c, hc, hcell⟩, -⟩ := hkeys hne
    rw [ha] at hc
    cases hc
    exact ⟨slots, hcell⟩
  | string a =>
    simp only [MessageT.Reaches, MessageT.stringBlocks, List.mem_append, Option.mem_toList,
      List.mem_filterMap, id_eq, exists_eq_right] at hr
    rcases hr with ((hd | hk) | hu) | hslot
    · exact strOrNull_allocated (hd ▸ hs.data)
    · exact strOrNull_allocated (hk ▸ hs.key)
    · have hload := hs.unknown
      have hu : messageT.base.unknownFields = some a := hu
      rw [MessageT.unknown, hu, if_neg (Option.some_ne_none a)] at hload
      obtain ⟨c, hc, hcell⟩ := Heap.load_ok hload
      cases hc
      exact ⟨_, hcell⟩
    · have hne : messageT.nKeys ≠ 0 := by
        intro hz
        rw [hz, List.take_zero] at hslot
        cases hslot
      obtain ⟨slots, ⟨c, hc, hcell⟩, -, hread⟩ := hkeys hne
      have hcell' : mem'.arrays.cell c = some slots := hg c slots hcell
      rw [hc, Option.bind_some, hcell', Option.getD_some] at hslot
      exact strsAt_allocated hread hslot

theorem MessageT.Fresh.reached (hf : MessageT.Fresh mem message copies mem')
    (hu : message.base.unknownFields = none) (hr : message.Reaches mem' b) :
    ¬ mem.Allocated b ∧ mem'.Allocated b := by
  cases b with
  | array a =>
    have ha : message.keys = some a := hr
    rcases hf.array with ⟨hnull, -⟩ | ⟨c, hc, hnew, hcell⟩
    · rw [ha] at hnull
      cases hnull
    · rw [ha] at hc
      cases hc
      refine ⟨?_, _, hcell⟩
      rintro ⟨v, hv⟩
      rw [hnew] at hv
      cases hv
  | string a =>
    have hmem : a ∈ message.data.toList ++ message.key.toList ++ copies := by
      simp only [Reaches, stringBlocks, hu, Option.toList_none, List.append_nil, List.mem_append,
        List.mem_filterMap, id_eq, exists_eq_right] at hr ⊢
      refine hr.imp_right fun hslot => ?_
      rcases hf.array with ⟨hnull, -⟩ | ⟨c, hc, -, hcell⟩
      · simp [hnull] at hslot
      · have hlen : message.nKeys = (copies.map some).length := by simp [hf.count]
        rw [hc, Option.bind_some, hcell, Option.getD_some, hlen, List.take_left] at hslot
        simpa using hslot
    refine ⟨?_, hf.strings.allocated a hmem⟩
    rintro ⟨v, hv⟩
    rw [hf.strings.fresh a hmem] at hv
    cases hv

/-- Whatever is received, all that the message reaches is still allocated behind
`message_t__free_unpacked` exactly if there were no unknown fields. -/
theorem received_owns_iff (pb : Unpacker) (hu : pb.unpack mem buf = some (messageT, mem₁))
    (m : MessageMem) :
    ∃ message mem', networkReceive pb mem buf m = .ok (some message, mem') ∧
      ((∀ b, message.Reaches mem' b → mem'.Allocated b) ↔
        messageT.base.unknownFields = none) := by
  obtain ⟨⟨f, hs⟩, hn⟩ := pb.readable _ _ _ _ hu
  obtain ⟨message, mem₂, hmake, -, -, -, -, harray⟩ := toMessage_says hs m
  obtain ⟨hbase, keys, hfresh⟩ := toMessage_fresh (keyStrs_null hs.keys) hmake
  refine ⟨message, pb.freeUnpacked mem₂ messageT, by simp [networkReceive, hu, hmake], ?_⟩
  constructor
  · intro hall
    by_contra hne
    obtain ⟨a, ha⟩ := Option.ne_none_iff_exists'.mp hne
    have hreached : ∀ (message : MessageT) (mem : Mem), message.base.unknownFields = some a →
        message.Reaches mem (.string a) := fun message mem ha => by
      simp [MessageT.Reaches, MessageT.stringBlocks, ha]
    exact pb.releases mem₂ messageT (.string a) (hreached _ _ ha)
      (hall _ (hreached _ _ (hbase ▸ ha)))
  · intro hnone b hr
    have hold : ∀ c, messageT.Reaches mem₂ c → mem₁.Allocated c := fun c hc =>
      unpacked_allocated hs hn hfresh.arrays hc
    have hunknown : message.base.unknownFields = none := hbase ▸ hnone
    -- the array of the copy is kept, so the message reaches what it reached before
    have hkept : ∀ c, message.Reaches mem₂ c → ¬ messageT.Reaches mem₂ c := fun c hc hc' =>
      (hfresh.reached hunknown hc).1 (hold c hc')
    have hsame : message.Reaches mem₂ b := by
      cases b with
      | array a => exact hr
      | string a =>
        have hslots : message.keys.bind (pb.freeUnpacked mem₂ messageT).arrays.cell =
            message.keys.bind mem₂.arrays.cell := by
          cases hk : message.keys with
          | none => rfl
          | some c => exact pb.keepsArrays _ _ _ (hkept (.array c) hk)
        simpa only [MessageT.Reaches, MessageT.stringBlocks, hslots] using hr
    have hthere := (hfresh.reached hunknown hsame).2
    have hnot := hkept b hsame
    cases b with
    | string a =>
      obtain ⟨v, hv⟩ := hthere
      exact ⟨v, (pb.keepsStrings _ _ _ hnot).trans hv⟩
    | array a =>
      obtain ⟨v, hv⟩ := hthere
      exact ⟨v, (pb.keepsArrays _ _ _ hnot).trans hv⟩

-- ---------------------------------------------------------------------------
-- A message received
-- ---------------------------------------------------------------------------

/-- The strings are blocks of their own with nothing behind the NUL, and the array
has the keys and the NULL. -/
structure MessageT.Received (mem : Mem) (message : MessageT) (f : Fields) (copies : List Nat) :
    Prop where
  data : blockOrNull mem.strings message.data = .ok (f.data.map CStr.block)
  strings : mem.strings.Has (message.data.toList ++ (message.key.toList ++ copies))
  keys : strsAt mem.strings (copies.map some) = .ok f.keys
  count : copies.length = message.nKeys
  array : message.keys = none ∧ copies = [] ∨
    ArrayAt mem.arrays message.keys (copies.map some ++ [none])
  opcode : message.opcode = f.opcode
  dataSize : message.dataSize = f.dataSize

theorem MessageT.Fresh.received (hf : MessageT.Fresh mem message copies mem')
    (hs : message.Says mem' f)
    (hd : blockOrNull mem'.strings message.data = .ok (f.data.map CStr.block)) :
    message.Received mem' f copies := by
  have harray : message.keys = none ∧ copies = [] ∨
      ArrayAt mem'.arrays message.keys (copies.map some ++ [none]) := by
    refine hf.array.imp_right ?_
    rintro ⟨a, ha, -, hcell⟩
    exact ⟨a, ha, hcell⟩
  obtain ⟨hlen, hread⟩ := keyStrs_ok hs.keys
  refine ⟨hd, by simpa using Heap.Has.of_gains hf.strings, ?_, hf.count, harray, hs.opcode,
    hs.dataSize⟩
  rcases harray with ⟨-, rfl⟩ | harray
  · have hnil : f.keys = [] := List.length_eq_zero_iff.mp (hlen.trans hf.count.symm)
    rw [hnil]
    rfl
  · by_cases hzero : message.nKeys = 0
    · have hnil : f.keys = [] := List.length_eq_zero_iff.mp (hlen.trans hzero)
      have hnone : copies = [] := List.length_eq_zero_iff.mp (hf.count.trans hzero)
      rw [hnil, hnone]
      rfl
    · obtain ⟨slots, hslots, -, hkeys⟩ := hread hzero
      have hcount : message.nKeys = (copies.map some).length := by simp [hf.count]
      rwa [hslots.unique harray, hcount, List.take_left] at hkeys

theorem MessageT.Received.frame {message : MessageT} (h : message.Received mem f copies)
    (hf : ∀ a ∈ message.data.toList ++ (message.key.toList ++ copies),
      mem'.strings.cell a = mem.strings.cell a)
    (ha : ∀ a, message.keys = some a → mem'.arrays.cell a = mem.arrays.cell a) :
    message.Received mem' f copies := by
  refine ⟨?_, h.strings.frame hf, ?_, h.count, h.array.imp_right ?_, h.opcode, h.dataSize⟩
  · rw [blockOrNull_frame fun a hp => hf a (by simp [hp]), h.data]
  · rw [strsAt_frame fun a hp => hf a ?_, h.keys]
    simp only [List.mem_map, Option.some.injEq, exists_eq_right] at hp
    simp [hp]
  · rintro ⟨a, hkeys, hcell⟩
    exact ⟨a, hkeys, (ha a hkeys).trans hcell⟩

/-- What `network_receive` returns is such a message, and says what was unpacked:
nothing of it is released with the unpacked one, its unknown fields apart.
`network_send_receive` ends with the same calls. -/
theorem networkReceive_received (pb : Unpacker) (hu : pb.unpack mem buf = some (messageT, mem₁))
    (hs : messageT.Says mem₁ f) (m : MessageMem) :
    ∃ message mem' copies, networkReceive pb mem buf m = .ok (some message, mem') ∧
      message.Received mem' f.noEmpty copies ∧
      strOrNull mem'.strings message.key = .ok f.noEmpty.key ∧ message.cType = f.cType := by
  obtain ⟨-, hn⟩ := pb.readable _ _ _ _ hu
  obtain ⟨message, mem₂, hmake, hsays, hblock, -⟩ := toMessage_says hs m
  obtain ⟨-, copies, hfresh⟩ := toMessage_fresh (keyStrs_null hs.keys) hmake
  have hmade := hfresh.received hsays hblock
  have hstring : ∀ a ∈ message.data.toList ++ (message.key.toList ++ copies),
      (pb.freeUnpacked mem₂ messageT).strings.cell a = mem₂.strings.cell a := by
    intro a ha
    refine pb.keepsStrings _ _ _ fun hr => ?_
    obtain ⟨v, hv⟩ := unpacked_allocated hs hn hfresh.arrays hr
    rw [hfresh.strings.fresh a (by simpa using ha)] at hv
    cases hv
  have harray : ∀ a, message.keys = some a →
      (pb.freeUnpacked mem₂ messageT).arrays.cell a = mem₂.arrays.cell a := by
    intro a ha
    refine pb.keepsArrays _ _ _ fun hr => ?_
    obtain ⟨v, hv⟩ := unpacked_allocated hs hn hfresh.arrays hr
    rcases hfresh.array with ⟨hnull, -⟩ | ⟨b, hb, hnew, -⟩
    · rw [ha] at hnull
      cases hnull
    · rw [Option.some.inj (ha.symm.trans hb), hnew] at hv
      cases hv
  have hkey : strOrNull (pb.freeUnpacked mem₂ messageT).strings message.key =
      .ok f.noEmpty.key := by
    rw [strOrNull_frame fun a ha => hstring a (by simp [ha]), hsays.key]
  refine ⟨message, pb.freeUnpacked mem₂ messageT, copies, ?_, hmade.frame hstring harray, hkey,
    hsays.cType⟩
  simp [networkReceive, hu, hmake]

theorem freeKeysLoop_has {strings : Strings} (hs : strings.Has copies)
    (ha : ArrayAt arrays array (before ++ copies.map some ++ rest)) (hi : before.length = i) :
    ∃ strings', freeKeysLoop array copies.length i ⟨strings, arrays⟩ =
      .ok ⟨strings', arrays⟩ := by
  induction copies generalizing before i strings with
  | nil => exact ⟨strings, rfl⟩
  | cons a copies ih =>
    have hslot : slotAt arrays array i = .ok (some a) := slotAt_of ha (by simp [← hi])
    obtain ⟨strings₁, hfree, hs₁⟩ := Heap.Has.free (p := some a) hs
    have hrest : before ++ (a :: copies).map some ++ rest =
        (before ++ [some a]) ++ copies.map some ++ rest := by simp
    rw [hrest] at ha
    obtain ⟨strings', hrun⟩ := ih hs₁ ha (i := i + 1) (by simp [hi])
    refine ⟨strings', ?_⟩
    rw [List.length_cons, freeKeysLoop, hslot, ok_bind, hfree, ok_bind, hrun]

theorem MessageT.Received.freed (h : MessageT.Received mem message f copies) :
    ∃ mem', freeMessage mem message = .ok mem' := by
  obtain ⟨strings₁, hdata, hs₁⟩ := h.strings.free
  obtain ⟨strings₂, hkey, hs₂⟩ := hs₁.free
  unfold freeMessage
  rw [hdata, ok_bind, hkey, ok_bind]
  dsimp only
  split
  case isFalse => exact ⟨_, rfl⟩
  case isTrue hkeys =>
    rcases h.array with ⟨hnull, -⟩ | ⟨a, ha, hcell⟩
    · exact absurd hnull hkeys.2
    · have harray : ArrayAt mem.arrays message.keys ([] ++ copies.map some ++ [none]) :=
        ⟨a, ha, hcell⟩
      obtain ⟨strings', hrun⟩ := freeKeysLoop_has hs₂ harray List.length_nil
      rw [h.count] at hrun
      rw [hrun, ok_bind, ha, Heap.free_some hcell]
      exact ⟨_, rfl⟩

-- ---------------------------------------------------------------------------
-- Messages with and without unknown fields
-- ---------------------------------------------------------------------------

theorem merge_strs (h : Fields.merge f r = some f') (hd : f.data.isSome) (hk : f.key.isSome) :
    f'.data.isSome ∧ f'.key.isSome := by
  unfold Fields.merge at h
  split at h
  case h_7 =>
    split at h
    · cases h
    · cases h
      exact ⟨hd, hk⟩
  all_goals
    cases h
    first
      | exact ⟨hd, hk⟩
      | exact ⟨rfl, hk⟩
      | exact ⟨hd, rfl⟩

theorem mergeAll_strs {rs : List WireRecord} {f f' : Fields}
    (h : rs.foldlM Fields.merge f = some f') (hd : f.data.isSome) (hk : f.key.isSome) :
    f'.data.isSome ∧ f'.key.isSome := by
  induction rs generalizing f with
  | nil =>
    cases h
    exact ⟨hd, hk⟩
  | cons r rs ih =>
    rw [List.foldlM_cons] at h
    obtain ⟨f₁, h₁, h⟩ := Option.bind_eq_some_iff.mp h
    obtain ⟨hd₁, hk₁⟩ := merge_strs h₁ hd hk
    exact ih h hd₁ hk₁

theorem protobufUnpack_readable (h : protobufUnpack mem buf = some (messageT, mem')) :
    (∃ f, messageT.Says mem' f) ∧ (messageT.nKeys = 0 → messageT.keys = none) := by
  obtain ⟨rs, -, h⟩ := Option.bind_eq_some_iff.mp h
  obtain ⟨f, hf, h⟩ := Option.bind_eq_some_iff.mp h
  obtain ⟨hd, hk⟩ := mergeAll_strs hf rfl rfl
  obtain ⟨data, hd⟩ := Option.isSome_iff_exists.mp hd
  obtain ⟨key, hk⟩ := Option.isSome_iff_exists.mp hk
  have hsays := place_content f mem hd hk
  cases h
  refine ⟨⟨f, hsays⟩, fun hz => ?_⟩
  have hnil : f.keys = [] := List.length_eq_zero_iff.mp hz
  simp [hnil]

def withoutBlocks (h : Heap α) (blocks : List Nat) : Heap α where
  cell a := if a ∈ blocks then none else h.cell a
  top := h.top
  unused a ha := by
    split
    · rfl
    · exact h.unused a ha

def freeUnpacked (mem : Mem) (messageT : MessageT) : Mem :=
  ⟨withoutBlocks mem.strings (messageT.stringBlocks mem),
    withoutBlocks mem.arrays messageT.keys.toList⟩

def wireUnpacker : Unpacker where
  unpack := protobufUnpack
  freeUnpacked := freeUnpacked
  readable _ _ _ _ h := protobufUnpack_readable h
  releases mem messageT b hr := by
    cases b with
    | string a =>
      have hnone : (freeUnpacked mem messageT).strings.cell a = none := if_pos hr
      rintro ⟨v, hv⟩
      rw [hnone] at hv
      cases hv
    | array a =>
      have hnone : (freeUnpacked mem messageT).arrays.cell a = none :=
        if_pos (Option.mem_toList.mpr hr)
      rintro ⟨v, hv⟩
      rw [hnone] at hv
      cases hv
  keepsStrings _ _ _ hr := if_neg hr
  keepsArrays _ _ _ hr := if_neg fun ha => hr (Option.mem_toList.mp ha)

def getBytes : List UInt8 := [8, 30, 16, 10, 42, 1, 107]

theorem received_owns_iff_get : ∃ message mem',
    networkReceive wireUnpacker ⟨.empty, .empty⟩ getBytes anyMem = .ok (some message, mem') ∧
      ∀ b, message.Reaches mem' b → mem'.Allocated b := by
  have hview : (protobufUnpack ⟨.empty, .empty⟩ getBytes).map
      (fun r => r.1.base.unknownFields) = some none := by decide +kernel
  obtain ⟨⟨messageT, mem₁⟩, hunpack, hnone⟩ := Option.map_eq_some_iff.mp hview
  have hu : wireUnpacker.unpack ⟨.empty, .empty⟩ getBytes = some (messageT, mem₁) := hunpack
  obtain ⟨message, mem', hrun, howns⟩ := received_owns_iff wireUnpacker hu anyMem
  exact ⟨message, mem', hrun, howns.mpr hnone⟩

/-- With the number 1 in a seventh field the message has a pointer to a released
block, and packing follows it. -/
theorem unknown_field_dangles : ∃ message mem',
    networkReceive wireUnpacker ⟨.empty, .empty⟩ (getBytes ++ [56, 1]) anyMem =
        .ok (some message, mem') ∧
      ¬ (∀ b, message.Reaches mem' b → mem'.Allocated b) ∧
      message.fields mem' = .error .dangling := by
  have hview : (networkReceive wireUnpacker ⟨.empty, .empty⟩ (getBytes ++ [56, 1])
      anyMem).toOption.map (fun r => r.1.map fun message =>
        (message.base.unknownFields, r.2.strings.cell 2, message.fields r.2)) =
      some (some (some 2, none, .error .dangling)) := by
    decide +kernel
  obtain ⟨⟨received, mem'⟩, hrun, hview⟩ := Option.map_eq_some_iff.mp hview
  obtain ⟨message, rfl, hview⟩ := Option.map_eq_some_iff.mp hview
  simp only [Prod.mk.injEq] at hview
  obtain ⟨hunknown, hnone, hfields⟩ := hview
  refine ⟨message, mem', toOption_some.mp hrun, fun hall => ?_, hfields⟩
  have hreached : message.Reaches mem' (.string 2) := by
    simp [MessageT.Reaches, MessageT.stringBlocks, hunknown]
  obtain ⟨v, hv⟩ := hall _ hreached
  rw [hnone] at hv
  cases hv

end HashMapStorage
