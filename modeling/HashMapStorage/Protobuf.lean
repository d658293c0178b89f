import HashMapStorage.Machine.Wire
import HashMapStorage.MessageLaws

/-!
# The message format (`sdmessage.proto`)

The proto3 encoding of `message_t`: numbers that are zero and strings that are
empty or missing are left out. It is a runtime as `ProtobufC` asks for.
-/

namespace HashMapStorage

open Machine

-- ---------------------------------------------------------------------------
-- Numbers
-- ---------------------------------------------------------------------------

def wireInt (x : Int) : Nat := (x % 2 ^ 64).toNat

/-- Only the low 32 bits of a number are kept. -/
def intOfWire (n : Nat) : Int :=
  if n % 2 ^ 32 < 2 ^ 31 then (n % 2 ^ 32 : Nat) else (n % 2 ^ 32 : Nat) - 2 ^ 32

def zigzag (x : Int) : Nat := if 0 ≤ x then (2 * x).toNat else (-2 * x - 1).toNat

def unzigzag (n : Nat) : Int := if n % 2 = 0 then (n / 2 : Nat) else -(n / 2 : Nat) - 1

theorem intOfWire_wireInt (h : IsInt x) : intOfWire (wireInt x) = x := by
  obtain ⟨lo, hi⟩ := h
  simp only [intMin, intMax] at lo hi
  simp only [intOfWire, wireInt]
  omega

theorem wireInt_eq_zero (h : IsInt x) : wireInt x = 0 ↔ x = 0 := by
  obtain ⟨lo, hi⟩ := h
  simp only [intMin, intMax] at lo hi
  simp only [wireInt]
  omega

theorem unzigzag_zigzag (x : Int) : unzigzag (zigzag x) = x := by
  unfold unzigzag zigzag
  by_cases hx : 0 ≤ x
  · rw [if_pos hx]
    omega
  · rw [if_neg hx]
    omega

theorem zigzag_eq_zero : zigzag x = 0 ↔ x = 0 := by
  unfold zigzag
  split <;> omega

-- ---------------------------------------------------------------------------
-- Packing
-- ---------------------------------------------------------------------------

def numberRecord (field n : Nat) : List WireRecord :=
  if n = 0 then [] else [(field, .number n)]

def strRecord (field : Nat) (s : Option CStr) : List WireRecord :=
  match nonEmpty s with
  | none => []
  | some s => [(field, .bytes s.bytes)]

def Fields.records (f : Fields) : List WireRecord :=
  numberRecord 1 (wireInt f.opcode) ++ numberRecord 2 (wireInt f.cType) ++
    numberRecord 3 (zigzag f.dataSize) ++ strRecord 4 f.data ++ strRecord 5 f.key ++
    f.keys.map fun key => (6, .bytes key.bytes)

-- ---------------------------------------------------------------------------
-- Unpacking
-- ---------------------------------------------------------------------------

def Fields.init : Fields := ⟨opBad, ctBad, 0, some .empty, some .empty, [], []⟩

def Fields.merge (f : Fields) : WireRecord → Option Fields
  | (1, .number n) => some { f with opcode := intOfWire n }
  | (2, .number n) => some { f with cType := intOfWire n }
  | (3, .number n) => some { f with dataSize := unzigzag n }
  | (4, .bytes b) => some { f with data := some (.ofBytes b) }
  | (5, .bytes b) => some { f with key := some (.ofBytes b) }
  | (6, .bytes b) => some { f with keys := f.keys ++ [.ofBytes b] }
  | r => if 1 ≤ r.1 ∧ r.1 ≤ 6 then none else some { f with unknown := f.unknown ++ r.encode }

def Fields.place (f : Fields) (mem : Mem) : MessageT × Mem :=
  let (data, strings) := newStr mem.strings (mallocTop []) (f.data.getD .empty)
  let (key, strings) := newStr strings (mallocTop []) (f.key.getD .empty)
  let (ps, strings) := newStrs (mallocTop []) strings f.keys
  let (array, arrays) := mem.arrays.alloc (mallocTop [])
  let arrays := arrays.set array (some ps)
  let keys := if f.keys = [] then none else some array
  let (block, filled) := strings.alloc (mallocTop f.unknown)
  let unknownFields := if f.unknown = [] then none else some block
  (⟨⟨unknownFields⟩, f.opcode, f.cType, f.dataSize, data, key, f.keys.length, keys⟩,
    ⟨filled, arrays⟩)

def protobufUnpack (mem : Mem) (buf : List UInt8) : Option (MessageT × Mem) := do
  let rs ← readRecords buf
  let f ← rs.foldlM Fields.merge .init
  some (f.place mem)

theorem place_content (f : Fields) (mem : Mem) (hd : f.data = some data) (hk : f.key = some key) :
    (f.place mem).1.Says (f.place mem).2 f := by
  obtain ⟨hg₁, hdata⟩ := newStr_spec mem.strings (mallocTop []) data
  simp only [Fields.place, hd, hk, Option.getD_some]
  generalize newStr mem.strings (mallocTop []) data = r₁ at hg₁ hdata
  obtain ⟨hg₂, hkey⟩ := newStr_spec r₁.2 (mallocTop []) key
  generalize newStr r₁.2 (mallocTop []) key = r₂ at hg₂ hkey
  obtain ⟨hg₃, hkeys⟩ := newStrs_spec (mallocTop []) r₂.2 f.keys
  generalize newStrs (mallocTop []) r₂.2 f.keys = r₃ at hg₃ hkeys
  have hg₄ := Heap.Grows.set_fresh ((mallocTop f.unknown).fresh r₃.2)
    (some ((mallocTop f.unknown).junk r₃.2))
  refine ⟨?_, ?_, ?_, ?_, rfl, rfl, rfl⟩
  · rw [hd]
    exact strOrNull_of (strAt_grows ((hg₂.trans hg₃).trans hg₄) (strAt_block hdata))
  · rw [hk]
    exact strOrNull_of (strAt_grows (hg₃.trans hg₄) (strAt_block hkey))
  · by_cases hn : f.keys = []
    · simp [MessageT.keyStrs, hn]
    · have hlen := strsAt_length hkeys
      let arrays := mem.arrays.alloc (mallocTop [])
      have ha : ArrayAt (arrays.2.set arrays.1 (some r₃.1))
          (if f.keys = [] then none else some arrays.1) (r₃.1 ++ []) :=
        ⟨arrays.1, if_neg hn, by simp⟩
      exact keyStrs_of ha hlen (strsAt_grows hg₄ hkeys)
  · by_cases hn : f.unknown = []
    · simp [MessageT.unknown, hn]
    · simp [MessageT.unknown, hn, Heap.alloc, Heap.load, mallocTop]

theorem merge_number (hf : Fields.merge f (field, .number n) = some f') (hz : n = 0 → f' = f) :
    (numberRecord field n).foldlM Fields.merge f = some f' := by
  unfold numberRecord
  split
  · rename_i h
    rw [hz h]
    rfl
  · simp [hf]

theorem merge_str (put : CStr → Fields)
    (hf : ∀ b, Fields.merge f (field, .bytes b) = some (put (.ofBytes b))) (hz : put .empty = f) :
    (strRecord field s).foldlM Fields.merge f = some (put (s.getD .empty)) := by
  unfold strRecord nonEmpty
  cases s with
  | none => simp [hz]
  | some s =>
    by_cases he : s = .empty
    · simp [he, hz]
    · simp [he, hf, CStr.ofBytes_bytes]

theorem merge_keys (keys : List CStr) (f : Fields) :
    (keys.map fun key => ((6, .bytes key.bytes) : WireRecord)).foldlM Fields.merge f =
      some { f with keys := f.keys ++ keys } := by
  induction keys generalizing f with
  | nil => simp
  | cons key keys ih =>
    simp [Fields.merge, ih, CStr.ofBytes_bytes]

theorem merge_records {f : Fields} (hf : f.Fits) :
    f.records.foldlM Fields.merge .init = some f.restored := by
  obtain ⟨ho, hc, hs, hu⟩ := hf
  let f₁ : Fields := { Fields.init with opcode := f.opcode }
  let f₂ : Fields := { f₁ with cType := f.cType }
  let f₃ : Fields := { f₂ with dataSize := f.dataSize }
  let f₄ : Fields := { f₃ with data := some (f.data.getD .empty) }
  let f₅ : Fields := { f₄ with key := some (f.key.getD .empty) }
  have h₁ : (numberRecord 1 (wireInt f.opcode)).foldlM Fields.merge .init = some f₁ := by
    refine merge_number (by simp [Fields.merge, intOfWire_wireInt ho, f₁]) fun hz => ?_
    simp [f₁, (wireInt_eq_zero ho).mp hz, Fields.init, opBad]
  have h₂ : (numberRecord 2 (wireInt f.cType)).foldlM Fields.merge f₁ = some f₂ := by
    refine merge_number (by simp [Fields.merge, intOfWire_wireInt hc, f₂]) fun hz => ?_
    simp [f₂, f₁, (wireInt_eq_zero hc).mp hz, Fields.init, ctBad]
  have h₃ : (numberRecord 3 (zigzag f.dataSize)).foldlM Fields.merge f₂ = some f₃ := by
    refine merge_number (by simp [Fields.merge, unzigzag_zigzag, f₃]) fun hz => ?_
    simp [f₃, f₂, f₁, zigzag_eq_zero.mp hz, Fields.init]
  have h₄ : (strRecord 4 f.data).foldlM Fields.merge f₃ = some f₄ :=
    merge_str (fun s => { f₃ with data := some s }) (fun _ => rfl) rfl
  have h₅ : (strRecord 5 f.key).foldlM Fields.merge f₄ = some f₅ :=
    merge_str (fun s => { f₄ with key := some s }) (fun _ => rfl) rfl
  simp only [Fields.records, List.foldlM_append, h₁, h₂, h₃, h₄, h₅, merge_keys,
    Option.bind_eq_bind, Option.bind_some]
  simp [f₅, f₄, f₃, f₂, f₁, Fields.init, Fields.restored, hu]

def protobufWire : ProtobufC where
  pack f := encodeRecords f.records
  unpack := protobufUnpack
  unpack_pack mem f hf := by
    refine ⟨(f.restored.place mem).1, (f.restored.place mem).2, ?_,
      fields_ok.mpr (place_content f.restored mem rfl rfl), rfl, fun hk => ?_⟩
    · simp [protobufUnpack, readRecords_encode, merge_records hf]
    · simp [Fields.place, Fields.restored, hk]

-- ---------------------------------------------------------------------------
-- A message with two keys, the second one empty
-- ---------------------------------------------------------------------------

def twoKeysMem : Mem where
  strings := ((Heap.empty.set 1 (some [104, 105, 0])).set 2 (some [97, 0])).set 3 (some [0])
  arrays := Heap.empty.set 1 (some [some 2, some 3, none])

def twoKeys : MessageT := ⟨⟨none⟩, opPut, ctEntry, -1, some 1, none, 2, some 1⟩

def twoKeysFields : Fields :=
  ⟨opPut, ctEntry, -1, some ⟨[104, 105], by decide⟩, none, [⟨[97], by decide⟩, .empty], []⟩

theorem message_round_trip_twoKeys :
    ∃ mem' message' there',
      transfer protobufWire twoKeysMem twoKeys (mallocTop []) ⟨.empty, .empty⟩ anyMem =
        .ok (mem', some message', there') ∧
      message'.fields there' = .ok twoKeysFields ∧ message'.nKeys = twoKeys.nKeys ∧
      (twoKeys.nKeys = 0 → message'.keys = none) ∧
      (twoKeys.nKeys ≠ 0 → ∃ slots, ArrayAt there'.arrays message'.keys (slots ++ [none]) ∧
        slots.length = twoKeys.nKeys) ∧
      twoKeys.fields mem' = .ok twoKeysFields :=
  message_round_trip protobufWire rfl (by decide) (by decide) (by decide) (mallocTop [])
    ⟨.empty, .empty⟩ anyMem

end HashMapStorage
