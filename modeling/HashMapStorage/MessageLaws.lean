import HashMapStorage.Message

/-!
# A message survives the trip

What `to_message` makes of an unpacked message says what the message before
packing said, where its strings are not empty; and the copies `to_messageT`
puts in a message's own array say what the keys said before.
-/

namespace HashMapStorage

open Machine

def ArrayAt (arrays : Heap (List Ptr)) (array : Ptr) (slots : List Ptr) : Prop :=
  ∃ a, array = some a ∧ arrays.cell a = some slots

theorem ArrayAt.unique {arrays : Heap (List Ptr)} (h : ArrayAt arrays array slots)
    (h' : ArrayAt arrays array slots') : slots = slots' := by
  obtain ⟨a, rfl, hc⟩ := h
  obtain ⟨b, hb, hc'⟩ := h'
  cases hb
  rw [hc] at hc'
  exact Option.some.inj hc'

theorem drop_cons {l : List α} (h : (l.drop i).take (n + 1) = x :: xs) :
    l[i]? = some x ∧ (l.drop (i + 1)).take n = xs := by
  have hget : l[i]? = (l.drop i)[0]? := by rw [List.getElem?_drop, Nat.add_zero]
  rw [hget, ← List.tail_drop]
  cases hd : l.drop i with
  | nil => simp [hd] at h
  | cons y ys => simpa [hd] using h

theorem slotAt_of {arrays : Heap (List Ptr)} (ha : ArrayAt arrays array slots)
    (hi : slots[i]? = some p) : slotAt arrays array i = .ok p := by
  obtain ⟨a, rfl, hc⟩ := ha
  rw [slotAt, Heap.load_some hc, ok_bind, hi]
  rfl

theorem setSlot_of {arrays : Heap (List Ptr)} (ha : ArrayAt arrays array slots)
    (hi : i < slots.length) (p : Ptr) :
    ∃ arrays', setSlot arrays array i p = .ok arrays' ∧ ArrayAt arrays' array (slots.set i p) ∧
      ∀ other slots', other ≠ array → ArrayAt arrays other slots' →
        ArrayAt arrays' other slots' := by
  obtain ⟨a, rfl, hc⟩ := ha
  refine ⟨arrays.set a (some (slots.set i p)), ?_, ⟨a, rfl, Heap.set_cell ..⟩, ?_⟩
  · rw [setSlot, Heap.load_some hc, ok_bind, if_pos hi, Heap.store_some hc]
  · rintro _ slots' hne ⟨b, rfl, hb⟩
    have hba : b ≠ a := fun e => hne (congrArg some e)
    exact ⟨b, rfl, by rw [Heap.set_cell_ne _ _ hba, hb]⟩

theorem dupKeysLoop_copies (m : Malloc (List UInt8)) (mem : Mem) (before : List Ptr)
    (hs : ArrayAt mem.arrays source slots) (hl : (slots.drop i).take left = ps)
    (hn : ps.length = left) (hk : strsAt mem.strings ps = .ok keys)
    (ht : ArrayAt mem.arrays target (before ++ room)) (hi : before.length = i)
    (hr : left ≤ room.length) :
    ∃ mem' copies, dupKeysLoop m source target left i mem = .ok mem' ∧
      ArrayAt mem'.arrays target (before ++ copies ++ room.drop left) ∧
      strsAt mem'.strings copies = .ok keys ∧ mem.strings.Grows mem'.strings := by
  induction left generalizing mem i ps keys before room slots with
  | zero =>
    rw [List.length_eq_zero_iff] at hn
    subst hn
    cases hk
    exact ⟨mem, [], rfl, by simpa using ht, rfl, .refl _⟩
  | succ left ih =>
    cases ps with
    | nil => nomatch hn
    | cons p ps =>
      obtain ⟨key, keys', rfl, hp, hps⟩ := strsAt_cons hk
      obtain ⟨copy, strings, hdup, hg, hblock⟩ := strdup_spec hp m
      have hcopy := strAt_block hblock
      obtain ⟨r, room', rfl⟩ := List.exists_cons_of_length_pos (show 0 < room.length by omega)
      obtain ⟨hget, htail⟩ := drop_cons hl
      have hroom : i < (before ++ r :: room').length := by simp [← hi]
      obtain ⟨arrays, hset, htarget, hother⟩ := setSlot_of ht hroom copy
      have hwritten : (before ++ r :: room').set i copy = before ++ [copy] ++ room' := by
        simp [← hi]
      rw [hwritten] at htarget
      -- what is still to be copied is not written, not even in the same array
      obtain ⟨slots', hsource, htail'⟩ : ∃ slots', ArrayAt arrays source slots' ∧
          (slots'.drop (i + 1)).take left = ps := by
        by_cases he : source = target
        · subst he
          refine ⟨_, htarget, ?_⟩
          rw [← hwritten, List.drop_set_of_lt (Nat.lt_succ_self i), ← hs.unique ht, htail]
        · exact ⟨slots, hother _ _ he hs, htail⟩
      obtain ⟨mem', copies, hrun, hfinal, hcopies, hg'⟩ := ih ⟨strings, arrays⟩
        (before ++ [copy]) hsource htail' (Nat.succ.inj hn) (strsAt_grows hg hps) htarget
        (by simp [hi]) (Nat.le_of_succ_le_succ hr)
      refine ⟨mem', copy :: copies, ?_, by simpa using hfinal, ?_, hg.trans hg'⟩
      · simp [dupKeysLoop, slotAt_of hs hget, hdup, hset, hrun]
      · simp [strsAt, strAt_grows hg' hcopy, hcopies]

-- ---------------------------------------------------------------------------
-- What the converters keep
-- ---------------------------------------------------------------------------

/-- The message can be read, and says this. -/
structure MessageT.Says (mem : Mem) (message : MessageT) (f : Fields) : Prop where
  data : strOrNull mem.strings message.data = .ok f.data
  key : strOrNull mem.strings message.key = .ok f.key
  keys : message.keyStrs mem = .ok f.keys
  unknown : message.unknown mem = .ok f.unknown
  opcode : message.opcode = f.opcode
  cType : message.cType = f.cType
  dataSize : message.dataSize = f.dataSize

theorem fields_ok {message : MessageT} : message.fields mem = .ok f ↔ message.Says mem f := by
  constructor
  · intro h
    obtain ⟨data, hd, h⟩ := seq_ok h
    obtain ⟨key, hk, h⟩ := seq_ok h
    obtain ⟨keys, hks, h⟩ := seq_ok h
    obtain ⟨unknown, hu, h⟩ := seq_ok h
    cases h
    exact ⟨hd, hk, hks, hu, rfl, rfl, rfl⟩
  · rintro ⟨hd, hk, hks, hu, ho, hc, hs⟩
    simp [MessageT.fields, hd, hk, hks, hu, ho, hc, hs]

theorem keyStrs_ok {message : MessageT} (h : message.keyStrs mem = .ok keys) :
    keys.length = message.nKeys ∧ (message.nKeys ≠ 0 → ∃ slots,
      ArrayAt mem.arrays message.keys slots ∧ message.nKeys ≤ slots.length ∧
      strsAt mem.strings (slots.take message.nKeys) = .ok keys) := by
  unfold MessageT.keyStrs at h
  split at h
  · rename_i hn
    cases h
    exact ⟨hn.symm, fun hne => absurd hn hne⟩
  · obtain ⟨slots, hload, h⟩ := seq_ok h
    obtain ⟨a, ha, hc⟩ := Heap.load_ok hload
    split at h
    · rename_i hle
      refine ⟨?_, fun _ => ⟨slots, ⟨a, ha, hc⟩, hle, h⟩⟩
      rw [strsAt_length h, List.length_take]
      omega
    · cases h

theorem keyStrs_null {message : MessageT} (h : message.keyStrs mem = .ok keys)
    (hnull : message.keys = none) : message.nKeys = 0 := by
  by_contra hne
  obtain ⟨slots, ⟨a, ha, -⟩, -⟩ := (keyStrs_ok h).2 hne
  rw [hnull] at ha
  cases ha

theorem keyStrs_of {message : MessageT} (ha : ArrayAt mem.arrays message.keys (ps ++ rest))
    (hn : message.nKeys = ps.length) (hs : strsAt mem.strings ps = .ok keys) :
    message.keyStrs mem = .ok keys := by
  obtain ⟨a, hp, hc⟩ := ha
  unfold MessageT.keyStrs
  cases ps with
  | nil =>
    cases hs
    simp [hn]
  | cons p ps => simp [hn, hp, Heap.load_some hc, hs]

theorem keyStrs_grows {message : MessageT} {strings strings' : Strings}
    (hg : strings.Grows strings') (h : message.keyStrs ⟨strings, arrays⟩ = .ok keys) :
    message.keyStrs ⟨strings', arrays⟩ = .ok keys := by
  unfold MessageT.keyStrs at h ⊢
  by_cases hn : message.nKeys = 0
  · rw [if_pos hn] at h ⊢
    exact h
  · rw [if_neg hn] at h ⊢
    obtain ⟨slots, hload, h⟩ := seq_ok h
    dsimp only at hload ⊢
    rw [hload, ok_bind]
    split at h
    · rename_i hle
      rw [if_pos hle, strsAt_grows hg h]
    · cases h

theorem unknown_grows {message : MessageT} (hg : mem.strings.Grows mem'.strings)
    (h : message.unknown mem = .ok bytes) : message.unknown mem' = .ok bytes := by
  unfold MessageT.unknown at h ⊢
  by_cases hn : message.base.unknownFields = none
  · rw [if_pos hn] at h ⊢
    exact h
  · rw [if_neg hn] at h ⊢
    obtain ⟨a, ha, hc⟩ := Heap.load_ok h
    rw [ha, Heap.load_some (hg a bytes hc)]

theorem toMessageT_says {message : MessageT} (h : message.Says mem f) (m : Malloc (List UInt8)) :
    ∃ mem', toMessageT mem message m = .ok (message, mem') ∧ message.Says mem' f ∧
      mem.strings.Grows mem'.strings := by
  by_cases hnull : message.keys = none
  · exact ⟨mem, by simp [toMessageT, hnull], h, .refl _⟩
  by_cases hzero : message.nKeys = 0
  · exact ⟨mem, by simp [toMessageT, hnull, hzero, dupKeysLoop], h, .refl _⟩
  obtain ⟨hlen, hkeys⟩ := keyStrs_ok h.keys
  obtain ⟨slots, ha, hle, hs⟩ := hkeys hzero
  obtain ⟨mem', copies, hrun, ha', hs', hg⟩ := dupKeysLoop_copies (i := 0) m mem [] ha rfl
    (by simpa using hle) hs ha rfl hle
  have hcount : message.nKeys = copies.length := by
    rw [← hlen, strsAt_length hs']
  refine ⟨mem', by simp [toMessageT, hnull, hrun], ⟨strOrNull_grows hg h.data,
    strOrNull_grows hg h.key, keyStrs_of ha' hcount hs', unknown_grows hg h.unknown, h.opcode,
    h.cType, h.dataSize⟩, hg⟩

theorem dupNonEmpty_spec {h : Strings} (hs : strOrNull h p = .ok s) (m : Malloc (List UInt8)) :
    ∃ q h', dupNonEmpty h p m = .ok (q, h') ∧ h.Grows h' ∧
      blockOrNull h' q = .ok ((nonEmpty s).map CStr.block) := by
  cases s with
  | none => exact ⟨none, h, by simp [dupNonEmpty, hs], .refl h, rfl⟩
  | some s =>
    by_cases he : s = .empty
    · exact ⟨none, h, by simp [dupNonEmpty, hs, he], .refl h, by simp [nonEmpty, he, blockOrNull]⟩
    · have hp : strAt h p = .ok s := by
        cases p with
        | none => cases hs
        | some a =>
          obtain ⟨t, ht, hs⟩ := seq_ok hs
          cases hs
          exact ht
      obtain ⟨q, h', hdup, hg, hq⟩ := strdup_spec hp m
      obtain ⟨a, rfl, -⟩ := Heap.load_ok hq
      exact ⟨some a, h', by simp [dupNonEmpty, hs, he, hdup], hg,
        by simp [nonEmpty, he, blockOrNull, hq]⟩

theorem dupKeysLoop_fresh {messageT : MessageT} (m : Malloc (List UInt8))
    (alloc : Malloc (List Ptr)) (hk : messageT.keyStrs mem = .ok keys)
    (hr : room.length = messageT.nKeys + 1) :
    let a := alloc.addr mem.arrays
    let arrays := (mem.arrays.set a (some (alloc.junk mem.arrays))).set a (some room)
    ∃ mem' copies r, dupKeysLoop m messageT.keys (some a) messageT.nKeys 0 ⟨mem.strings, arrays⟩ =
        .ok mem' ∧ ArrayAt mem'.arrays (some a) (copies ++ [r]) ∧ copies.length = messageT.nKeys ∧
      strsAt mem'.strings copies = .ok keys ∧ mem.strings.Grows mem'.strings := by
  intro a arrays
  have htarget : ArrayAt arrays (some a) ([] ++ room) := ⟨a, rfl, Heap.set_cell ..⟩
  obtain ⟨hlen, hkeys⟩ := keyStrs_ok hk
  obtain ⟨r, hlast⟩ : ∃ r, room.drop messageT.nKeys = [r] := by
    rw [← List.length_eq_one_iff, List.length_drop]
    omega
  by_cases hzero : messageT.nKeys = 0
  · rw [hzero, List.length_eq_zero_iff] at hlen
    subst hlen
    rw [hzero, List.drop_zero] at hlast
    rw [List.nil_append, hlast] at htarget
    exact ⟨⟨mem.strings, arrays⟩, [], r, by rw [hzero, dupKeysLoop, pure_eq_ok], htarget,
      hzero.symm, rfl, .refl _⟩
  · obtain ⟨slots, ⟨b, hb, hc⟩, hle, hs⟩ := hkeys hzero
    have hba : b ≠ a := Heap.ne_of_free hc (alloc.fresh mem.arrays)
    have hsource : ArrayAt arrays messageT.keys slots :=
      ⟨b, hb, by rw [Heap.set_cell_ne _ _ hba, Heap.set_cell_ne _ _ hba, hc]⟩
    obtain ⟨mem', copies, hrun, hfinal, hcopies, hg⟩ := dupKeysLoop_copies (i := 0) m
      ⟨mem.strings, arrays⟩ [] hsource rfl (by simpa using hle) hs htarget rfl (by omega)
    rw [List.nil_append, hlast] at hfinal
    exact ⟨mem', copies, r, hrun, hfinal, by rw [← strsAt_length hcopies, hlen], hcopies, hg⟩

/-- The message `to_message` makes: the same but for empty strings, and with a
NULL behind its keys. -/
theorem toMessage_says {messageT : MessageT} (h : messageT.Says mem f) (m : MessageMem) :
    ∃ message mem', toMessage mem (some messageT) m = .ok (some message, mem') ∧
      message.Says mem' f.noEmpty ∧
      blockOrNull mem'.strings message.data = .ok ((nonEmpty f.data).map CStr.block) ∧
      message.nKeys = messageT.nKeys ∧ (messageT.keys = none → message.keys = none) ∧
      (messageT.keys ≠ none → ∃ slots, ArrayAt mem'.arrays message.keys (slots ++ [none]) ∧
        slots.length = message.nKeys) := by
  obtain ⟨data, strings₁, hdata, hg₁, hd⟩ := dupNonEmpty_spec h.data m.string
  obtain ⟨key, strings₂, hkey, hg₂, hk⟩ := dupNonEmpty_spec (strOrNull_grows hg₁ h.key) m.string
  have hg := hg₁.trans hg₂
  have hd' := blockOrNull_grows hg₂ hd
  by_cases hnull : messageT.keys = none
  · obtain ⟨hlen, -⟩ := keyStrs_ok h.keys
    have hzero := keyStrs_null h.keys hnull
    have hnone : f.keys = [] := by rwa [← List.length_eq_zero_iff, hlen]
    refine ⟨{ messageT with data, key, nKeys := 0, keys := none }, ⟨strings₂, mem.arrays⟩, ?_,
      ⟨strOrNull_block hd', strOrNull_block hk, ?_, unknown_grows hg h.unknown, h.opcode, h.cType,
        h.dataSize⟩, hd', hzero.symm, fun _ => rfl, fun hne => absurd hnull hne⟩
    · simp [toMessage, hdata, hkey, hnull, hzero]
    · simp [MessageT.keyStrs, hnone, Fields.noEmpty]
  · have hroom : ((List.range (messageT.nKeys + 1)).map m.slots).length = messageT.nKeys + 1 := by
      simp
    have hkeys : messageT.keyStrs ⟨strings₂, mem.arrays⟩ = .ok f.keys := keyStrs_grows hg h.keys
    obtain ⟨mem', copies, r, hrun, ha, hlen, hs, hg'⟩ :=
      dupKeysLoop_fresh m.string m.array hkeys hroom
    obtain ⟨arrays, hset, ha', -⟩ := setSlot_of ha (i := messageT.nKeys) (by simp [hlen]) none
    have hlast : (copies ++ [r]).set messageT.nKeys none = copies ++ [none] := by
      rw [← hlen]
      simp
    rw [hlast] at ha'
    refine ⟨{ messageT with data, key, keys := some (m.array.addr mem.arrays) },
      ⟨mem'.strings, arrays⟩, ?_, ⟨strOrNull_block (blockOrNull_grows hg' hd'),
        strOrNull_block (blockOrNull_grows hg' hk), keyStrs_of ha' hlen.symm hs,
        unknown_grows (hg.trans hg') h.unknown, h.opcode, h.cType, h.dataSize⟩,
      blockOrNull_grows hg' hd', rfl, fun hn => absurd hn hnull, fun _ => ⟨copies, ha', hlen⟩⟩
    simp only [toMessage, hdata, hkey, ok_bind, Heap.alloc, hnull, ne_eq, not_false_eq_true,
      ↓reduceIte]
    rw [hrun]
    simp [hset]

-- ---------------------------------------------------------------------------
-- The round trip
-- ---------------------------------------------------------------------------

theorem transfer_says (pb : ProtobufC) {message : MessageT} (h : message.Says mem f) (hf : f.Fits)
    (copies : Malloc (List UInt8)) (there : Mem) (m : MessageMem) :
    ∃ mem' message' there', transfer pb mem message copies there m =
        .ok (mem', some message', there') ∧ message.Says mem' f ∧
      message'.Says there' f.noEmpty ∧
      blockOrNull there'.strings message'.data = .ok ((nonEmpty f.data).map CStr.block) ∧
      message'.nKeys = message.nKeys ∧ (f.keys = [] → message'.keys = none) ∧
      (f.keys ≠ [] → ∃ slots, ArrayAt there'.arrays message'.keys (slots ++ [none]) ∧
        slots.length = message'.nKeys) := by
  obtain ⟨mem', hto, hsays, -⟩ := toMessageT_says h copies
  obtain ⟨received, there₁, hunpack, hreceived, hn, hnull⟩ := pb.unpack_pack there f hf
  obtain ⟨message', there', hmake, hsays', hdata, hn', hnone, harray⟩ :=
    toMessage_says (fields_ok.mp hreceived) m
  obtain ⟨hlen, hkeys⟩ := keyStrs_ok h.keys
  have hempty : ∀ s : Option CStr, nonEmpty (some (s.getD .empty)) = nonEmpty s := by
    intro s
    cases s with
    | none => rfl
    | some s => rfl
  refine ⟨mem', message', there', ?_, hsays, ?_, ?_, by omega, fun hk => hnone (hnull hk),
    fun hk => ?_⟩
  · simp [transfer, hto, fields_ok.mpr hsays, hunpack, hmake]
  · simpa [Fields.restored, Fields.noEmpty, hempty] using hsays'
  · simpa [Fields.restored, hempty] using hdata
  · refine harray fun hr => hk ?_
    rw [← List.length_eq_zero_iff, ← hn]
    exact keyStrs_null (fields_ok.mp hreceived).keys hr

/-- A message whose strings are not empty arrives as it was sent: the same
numbers, strings and keys, and the NULL behind the keys. Sending it leaves its
own strings as they were. -/
theorem message_round_trip (pb : ProtobufC) {message : MessageT}
    (hm : message.fields mem = .ok f) (hf : f.Fits) (hd : f.data ≠ some .empty)
    (hk : f.key ≠ some .empty) (copies : Malloc (List UInt8)) (there : Mem) (m : MessageMem) :
    ∃ mem' message' there', transfer pb mem message copies there m =
        .ok (mem', some message', there') ∧
      message'.fields there' = .ok f ∧ message'.nKeys = message.nKeys ∧
      (message.nKeys = 0 → message'.keys = none) ∧
      (message.nKeys ≠ 0 → ∃ slots, ArrayAt there'.arrays message'.keys (slots ++ [none]) ∧
        slots.length = message.nKeys) ∧
      message.fields mem' = .ok f := by
  have hsays := fields_ok.mp hm
  obtain ⟨mem', message', there', hrun, hleft, hsays', -, hn, hnone, harray⟩ :=
    transfer_says pb hsays hf copies there m
  obtain ⟨hlen, -⟩ := keyStrs_ok hsays.keys
  simp only [Fields.noEmpty, nonEmpty, hd, hk, ↓reduceIte] at hsays'
  refine ⟨mem', message', there', hrun, fields_ok.mpr hsays', hn, fun hz => ?_, fun hz => ?_,
    fields_ok.mpr hleft⟩
  · exact hnone (List.length_eq_zero_iff.mp (hlen.trans hz))
  · rw [← hn]
    exact harray fun he => hz (by rw [← hlen, he, List.length_nil])

end HashMapStorage
