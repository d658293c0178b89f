import HashMapStorage.MessageLaws
import HashMapStorage.Server

/-!
# What a message owns

The blocks `free_message` releases together with a message: its two strings
and those its array leads to. A message just received owns fresh blocks only,
and the copies `to_messageT` makes are fresh.
-/

namespace HashMapStorage

open Machine

def MessageT.Owns (mem : Mem) (message : MessageT) (a : Nat) : Prop :=
  message.data = some a ∨ message.key = some a ∨
    ∃ slots, ArrayAt mem.arrays message.keys slots ∧ some a ∈ slots

theorem slotAt_ok {arrays : Heap (List Ptr)} (h : slotAt arrays array i = .ok p) :
    ∃ slots, ArrayAt arrays array slots ∧ p ∈ slots := by
  obtain ⟨slots, hl, h⟩ := seq_ok h
  obtain ⟨a, ha, hc⟩ := Heap.load_ok hl
  refine ⟨slots, ⟨a, ha, hc⟩, ?_⟩
  cases hi : slots[i]? with
  | none =>
    rw [hi] at h
    nomatch h
  | some q =>
    rw [hi] at h
    cases h
    exact List.mem_of_getElem? hi

theorem setSlot_ok {arrays : Heap (List Ptr)} (h : setSlot arrays array i p = .ok arrays') :
    ∃ slots, ArrayAt arrays array slots ∧ ArrayAt arrays' array (slots.set i p) := by
  obtain ⟨slots, hl, h⟩ := seq_ok h
  obtain ⟨a, rfl, hc⟩ := Heap.load_ok hl
  split at h
  · rw [Heap.store_some hc] at h
    cases h
    exact ⟨slots, ⟨a, rfl, hc⟩, a, rfl, Heap.set_cell ..⟩
  · nomatch h

theorem placeStr_spec (h : Strings) (m : Malloc (List UInt8)) (s : Option CStr) :
    h.Grows (placeStr h m s).2 ∧ strOrNull (placeStr h m s).2 (placeStr h m s).1 = .ok s ∧
      ∀ a, (placeStr h m s).1 = some a → h.cell a = none := by
  cases s with
  | none => exact ⟨.refl h, rfl, nofun⟩
  | some s =>
    obtain ⟨hg, hs⟩ := newStr_spec h m s
    exact ⟨hg, strOrNull_of (strAt_block hs), fun a ha => newStr_fresh h m s ha⟩

-- ---------------------------------------------------------------------------
-- Releasing and copying
-- ---------------------------------------------------------------------------

theorem freeKeysLoop_frame (h : freeKeysLoop array left i mem = .ok mem') :
    mem'.arrays = mem.arrays ∧ ∀ a, (∀ slots, ArrayAt mem.arrays array slots → some a ∉ slots) →
      mem'.strings.cell a = mem.strings.cell a := by
  induction left generalizing i mem with
  | zero =>
    cases h
    exact ⟨rfl, fun _ _ => rfl⟩
  | succ left ih =>
    obtain ⟨key, hkey, h⟩ := seq_ok h
    obtain ⟨strings, hfree, h⟩ := seq_ok h
    obtain ⟨slots, hslots, hmem⟩ := slotAt_ok hkey
    obtain ⟨harrays, hrest⟩ := ih h
    refine ⟨harrays, fun a ha => ?_⟩
    rw [hrest a ha]
    refine Heap.free_frame hfree ?_
    rintro rfl
    exact ha slots hslots hmem

theorem freeMessage_frame {message : MessageT} (h : freeMessage mem message = .ok mem')
    (ha : ¬ message.Owns mem a) : mem'.strings.cell a = mem.strings.cell a := by
  simp only [MessageT.Owns, not_or, not_exists, not_and] at ha
  obtain ⟨hdata, hkey, hkeys⟩ := ha
  obtain ⟨strings₁, hfree₁, h⟩ := seq_ok h
  obtain ⟨strings₂, hfree₂, h⟩ := seq_ok h
  have hstrings : strings₂.cell a = mem.strings.cell a := by
    rw [Heap.free_frame hfree₂ hkey, Heap.free_frame hfree₁ hdata]
  dsimp only at h
  split at h
  · obtain ⟨mem₁, hloop, h⟩ := seq_ok h
    obtain ⟨arrays, -, h⟩ := seq_ok h
    cases h
    rw [← hstrings]
    exact (freeKeysLoop_frame hloop).2 a hkeys
  · cases h
    exact hstrings

theorem releaseMessage_ok (h : releaseMessage messages mem (some p) = .ok (messages', mem')) :
    ∃ message, messages.cell p = some message ∧ messages' = messages.set p none ∧
      ∀ a, ¬ message.Owns mem a → mem'.strings.cell a = mem.strings.cell a := by
  obtain ⟨message, hl, h⟩ := seq_ok h
  obtain ⟨mem₁, hmem, h⟩ := seq_ok h
  obtain ⟨messages₁, hfree, h⟩ := seq_ok h
  obtain ⟨b, hb, hc⟩ := Heap.load_ok hl
  cases hb
  obtain ⟨-, rfl⟩ := Heap.free_ok hfree
  cases h
  exact ⟨message, hc, rfl, fun a ha => freeMessage_frame hmem ha⟩

theorem dupKeysLoop_inPlace {array : Ptr} {mem mem' : Mem}
    (h : dupKeysLoop m array array left i mem = .ok mem') :
    mem.strings.Grows mem'.strings ∧ ∀ slots', ArrayAt mem'.arrays array slots' →
      ∀ a, some a ∈ slots' →
        (∃ slots, ArrayAt mem.arrays array slots ∧ some a ∈ slots) ∨ mem.strings.cell a = none := by
  induction left generalizing i mem with
  | zero =>
    cases h
    exact ⟨.refl _, fun slots' hs a ha => .inl ⟨slots', hs, ha⟩⟩
  | succ left ih =>
    obtain ⟨key, -, h⟩ := seq_ok h
    obtain ⟨⟨copy, strings⟩, hdup, h⟩ := seq_ok h
    obtain ⟨arrays, hset, h⟩ := seq_ok h
    obtain ⟨hg, hfresh⟩ := strdup_fresh hdup
    obtain ⟨slots, hslots, hslots'⟩ := setSlot_ok hset
    obtain ⟨hg', hrest⟩ := ih h
    refine ⟨hg.trans hg', fun slots' hs a ha => ?_⟩
    rcases hrest slots' hs a ha with ⟨slots₁, hs₁, ha⟩ | hnone
    · rw [hs₁.unique hslots'] at ha
      rcases List.mem_or_eq_of_mem_set ha with ha | ha
      · exact .inl ⟨slots, hslots, ha⟩
      · exact .inr (hfresh a ha.symm)
    · exact .inr (hg.unused hnone)

theorem toMessageT_fresh {message : MessageT}
    (h : toMessageT mem message m = .ok (messageT, mem')) :
    mem.strings.Grows mem'.strings ∧
      ∀ a, message.Owns mem' a → message.Owns mem a ∨ mem.strings.cell a = none := by
  unfold toMessageT at h
  dsimp only at h
  split at h
  · obtain ⟨mem₁, hloop, h⟩ := seq_ok h
    cases h
    obtain ⟨hg, hfresh⟩ := dupKeysLoop_inPlace hloop
    refine ⟨hg, fun a ha => ?_⟩
    rcases ha with hd | hk | ⟨slots, hslots, ha⟩
    · exact .inl (.inl hd)
    · exact .inl (.inr (.inl hk))
    · rcases hfresh slots hslots a ha with hold | hnew
      · exact .inl (.inr (.inr hold))
      · exact .inr hnew
  · cases h
    exact ⟨.refl _, fun a ha => .inl ha⟩

theorem placeMessage_spec (mem : Mem) (f : Fields) (m : MessageMem) :
    let message := (placeMessage mem f m).1
    let mem' := (placeMessage mem f m).2
    mem.strings.Grows mem'.strings ∧ (∀ a, message.Owns mem' a → mem.strings.cell a = none) ∧
      strOrNull mem'.strings message.data = .ok f.data ∧
      strOrNull mem'.strings message.key = .ok f.key ∧
      message.opcode = f.opcode ∧ message.dataSize = f.dataSize := by
  obtain ⟨hg₁, hs₁, hf₁⟩ := placeStr_spec mem.strings m.string f.data
  obtain ⟨hg₂, hs₂, hf₂⟩ := placeStr_spec (placeStr mem.strings m.string f.data).2 m.string f.key
  have hkey : ∀ a, _ → mem.strings.cell a = none := fun a ha => hg₁.unused (hf₂ a ha)
  unfold placeMessage
  dsimp only
  split
  · refine ⟨hg₁.trans hg₂, fun a ha => ?_, strOrNull_grows hg₂ hs₁, hs₂, rfl, rfl⟩
    rcases ha with ha | ha | ⟨slots, ⟨array, harray, -⟩, -⟩
    · exact hf₁ a ha
    · exact hkey a ha
    · nomatch harray
  · obtain ⟨hg₃, -⟩ := newStrs_spec m.string
      (placeStr (placeStr mem.strings m.string f.data).2 m.string f.key).2 f.keys
    refine ⟨(hg₁.trans hg₂).trans hg₃, fun a ha => ?_,
      strOrNull_grows hg₃ (strOrNull_grows hg₂ hs₁), strOrNull_grows hg₃ hs₂, rfl, rfl⟩
    rcases ha with ha | ha | ⟨slots, ⟨array, harray, hslots⟩, ha⟩
    · exact hf₁ a ha
    · exact hkey a ha
    · cases harray
      simp only [Heap.set_cell, Option.some.injEq] at hslots
      subst hslots
      have hin : some a ∈ (newStrs m.string
          (placeStr (placeStr mem.strings m.string f.data).2 m.string f.key).2 f.keys).1 := by
        simpa using ha
      exact (hg₁.trans hg₂).unused (newStrs_fresh _ _ _ hin)

end HashMapStorage
