import HashMapStorage.Copying
import HashMapStorage.Serialization

/-!
# What the decoders read

`buffer_to_data` takes the size it finds at its word. `buffer_to_entry` then
copies as many bytes for the key as twice that size and four, whatever the size
of the key says: `espaco`, which leads to it, is added to the wrong number.
-/

namespace HashMapStorage

open Machine

-- ---------------------------------------------------------------------------
-- Buffers whose sizes fit
-- ---------------------------------------------------------------------------

def DataFits (buf : List UInt8) : Prop := Inside buf 0 4 ∧ Inside buf 4 (intAt buf 0)

def keyOffset (buf : List UInt8) : Int := 4 + intAt buf 0

def EntryFits (buf : List UInt8) : Prop :=
  DataFits buf ∧ Inside buf (keyOffset buf) 4 ∧
    Inside buf (keyOffset buf + 4) (intAt buf (keyOffset buf))

instance (buf : List UInt8) : Decidable (DataFits buf) := inferInstanceAs (Decidable (_ ∧ _))

instance (buf : List UInt8) : Decidable (EntryFits buf) :=
  inferInstanceAs (Decidable (_ ∧ _ ∧ _))

def valueIn (buf : List UInt8) : DataT :=
  ⟨intAt buf 0, some ((buf.drop 4).take (intAt buf 0).toNat)⟩

theorem valueIn_valid (hf : DataFits buf) (hp : 0 < intAt buf 0) : (valueIn buf).Valid := by
  refine ⟨hp, _, rfl, ?_⟩
  have hin := hf.2
  simp only [valueIn, Inside, List.length_take, List.length_drop] at hin ⊢
  omega

/-- What `buffer_to_entry` copies as the key: it lies inside the buffer. -/
def KeyCopyFits (buf : List UInt8) : Prop :=
  Inside buf (keyOffset buf + 4) (intAt buf 0 + keyOffset buf)

instance (buf : List UInt8) : Decidable (KeyCopyFits buf) :=
  inferInstanceAs (Decidable (Inside _ _ _))

-- ---------------------------------------------------------------------------
-- The decoders
-- ---------------------------------------------------------------------------

theorem bufferToData_fits (hf : DataFits buf) (hs : 0 < size) :
    bufferToData (some buf) size =
      .ok (if intAt buf 0 ≤ 0 then none else some (valueIn buf)) := by
  have hcopy : readAt buf sizeofInt (intAt buf 0) = _ := readAt_inside hf.2
  simp only [bufferToData, if_neg (Int.not_le.mpr hs), readInt_inside hf.1, ok_bind, hcopy]
  simp [dataCreate2, valueIn, sizeofInt]

theorem bufferToData_unfit (hf : ¬ DataFits buf) (hs : 0 < size) :
    bufferToData (some buf) size = .error .outOfBounds := by
  simp only [bufferToData, if_neg (Int.not_le.mpr hs)]
  by_cases hin : Inside buf 0 4
  · have hcopy : readAt buf sizeofInt (intAt buf 0) = _ := readAt_outside fun h => hf ⟨hin, h⟩
    rw [readInt_inside hin, ok_bind, hcopy, error_bind]
  · rw [readInt_outside hin, error_bind]

theorem bufferToEntry_unfit (hf : ¬ DataFits buf) (hs : 0 < size) (m : DataMem) :
    bufferToEntry (some buf) size m = .error .outOfBounds := by
  simp only [bufferToEntry, if_neg (Int.not_le.mpr hs), bufferToData_unfit hf hs, error_bind]

theorem bufferToEntry_zero (hf : DataFits buf) (hz : intAt buf 0 = 0) (hs : 0 < size)
    (m : DataMem) : bufferToEntry (some buf) size m = .ok none := by
  simp only [bufferToEntry, if_neg (Int.not_le.mpr hs), bufferToData_fits hf hs, hz]
  rfl

theorem bufferToEntry_large (hf : DataFits buf) (hl : sizeofDataT < intAt buf 0) (hs : 0 < size)
    (m : DataMem) : bufferToEntry (some buf) size m = .error .outOfBounds := by
  have hpos : 0 < intAt buf 0 := by omega
  have hdup : dataDup (some (valueIn buf)) m = .error .outOfBounds :=
    dataDup_overflows hpos rfl (fun hfit => by simp only [valueIn] at hfit; omega) m
  simp only [bufferToEntry, if_neg (Int.not_le.mpr hs), bufferToData_fits hf hs,
    if_neg (Int.not_le.mpr hpos), ok_bind, hdup, error_bind]

theorem bufferToEntry_small (hf : DataFits buf) (hp : 0 < intAt buf 0)
    (hl : intAt buf 0 ≤ sizeofDataT) (hs : 0 < size) (m : DataMem) :
    bufferToEntry (some buf) size m = (do
      let key ← readAt buf (keyOffset buf + 4) (intAt buf 0 + keyOffset buf)
      pure (some ⟨key, (valueIn buf).copied m⟩)) := by
  have hdup := dataDup_fits (valueIn_valid hf hp) hl m
  have hsize : ((valueIn buf).copied m).datasize = intAt buf 0 := rfl
  have hespaco : toInt (sizeofInt + intAt buf 0) = keyOffset buf := by
    refine toInt_of_isInt ?_
    simp only [IsInt, intMin, intMax, sizeofInt, sizeofDataT] at hl ⊢
    omega
  have htam : checkInt (intAt buf 0 + keyOffset buf) = .ok (intAt buf 0 + keyOffset buf) := by
    refine checkInt_of_isInt ?_
    simp only [IsInt, intMin, intMax, keyOffset, sizeofDataT] at hl ⊢
    omega
  simp only [bufferToEntry, if_neg (Int.not_le.mpr hs), bufferToData_fits hf hs,
    if_neg (Int.not_le.mpr hp), ok_bind, hdup, hsize, hespaco, readInt_inside hf.1, htam]
  rfl

-- ---------------------------------------------------------------------------
-- Any buffer
-- ---------------------------------------------------------------------------

/-- Given the length of the buffer `buffer_to_data` is defined: no byte behind it
is read and no negative size copied. It returns NULL where the size does not fit. -/
def DataRespects (buf : List UInt8) : Prop :=
  ∃ data, bufferToData (some buf) buf.length = .ok data ∧ (¬ DataFits buf → data = none)

def EntryRespects (buf : List UInt8) : Prop :=
  ∀ m, ∃ entry, bufferToEntry (some buf) buf.length m = .ok entry ∧
    (¬ EntryFits buf → entry = none)

theorem length_pos {buf : List UInt8} (h : buf ≠ []) : (0 : Int) < buf.length := by
  have := List.length_pos_iff.mpr h
  omega

theorem dataRespects_iff (buf : List UInt8) : DataRespects buf ↔ buf = [] ∨ DataFits buf := by
  by_cases hnil : buf = []
  · subst hnil
    exact iff_of_true ⟨none, rfl, fun _ => rfl⟩ (.inl rfl)
  · have hs := length_pos hnil
    constructor
    · rintro ⟨data, hrun, -⟩
      by_contra hnot
      rw [bufferToData_unfit (fun hf => hnot (.inr hf)) hs] at hrun
      cases hrun
    · intro h
      have hf := h.resolve_left hnil
      exact ⟨_, bufferToData_fits hf hs, fun hnot => absurd hf hnot⟩

theorem entryRespects_iff (buf : List UInt8) : EntryRespects buf ↔
    buf = [] ∨ DataFits buf ∧ (intAt buf 0 = 0 ∨
      intAt buf 0 ≤ sizeofDataT ∧ KeyCopyFits buf ∧ EntryFits buf) := by
  by_cases hnil : buf = []
  · subst hnil
    exact iff_of_true (fun m => ⟨none, rfl, fun _ => rfl⟩) (.inl rfl)
  have hs := length_pos hnil
  by_cases hf : DataFits buf
  · simp only [hnil, hf, false_or, true_and]
    by_cases hz : intAt buf 0 = 0
    · exact iff_of_true (fun m => ⟨none, bufferToEntry_zero hf hz hs m, fun _ => rfl⟩) (.inl hz)
    · have hp : 0 < intAt buf 0 := lt_of_le_of_ne hf.2.2.1 (Ne.symm hz)
      simp only [hz, false_or]
      by_cases hl : intAt buf 0 ≤ sizeofDataT
      · simp only [hl, true_and, EntryRespects, bufferToEntry_small hf hp hl hs]
        by_cases hk : KeyCopyFits buf
        · simp only [hk, true_and, readAt_inside hk, ok_bind, pure_eq_ok, Except.ok.injEq,
            exists_eq_left', reduceCtorEq]
          exact ⟨fun h => Classical.byContradiction (h .zero), fun h _ hnot => hnot h⟩
        · simp only [hk, false_and, iff_false, readAt_outside hk, error_bind]
          intro h
          obtain ⟨entry, hrun, -⟩ := h .zero
          cases hrun
      · refine iff_of_false (fun h => ?_) fun h => hl h.1
        obtain ⟨entry, hrun, -⟩ := h .zero
        rw [bufferToEntry_large hf (by omega) hs] at hrun
        cases hrun
  · refine iff_of_false (fun h => ?_) fun h => h.elim hnil fun h => hf h.1
    obtain ⟨entry, hrun, -⟩ := h .zero
    rw [bufferToEntry_unfit hf hs] at hrun
    cases hrun

theorem decoders_respect_iff (buf : List UInt8) :
    (DataRespects buf ↔ buf = [] ∨ DataFits buf) ∧
      (EntryRespects buf ↔ buf = [] ∨ DataFits buf ∧ (intAt buf 0 = 0 ∨
        intAt buf 0 ≤ sizeofDataT ∧ KeyCopyFits buf ∧ EntryFits buf)) :=
  ⟨dataRespects_iff buf, entryRespects_iff buf⟩

/-- One byte of a value is announced and none is there; a size is negative; the
value is there and the key is not; the value is there and the size of the key is
negative. -/
theorem decoders_overread :
    bufferToData (some [1, 0, 0, 0]) 4 = .error .outOfBounds ∧
      ¬ DataRespects [1, 0, 0, 0] ∧ ¬ DataRespects [255, 255, 255, 255] ∧
      ¬ EntryRespects [1, 0, 0, 0, 118] ∧
      ¬ EntryRespects ([1, 0, 0, 0, 118] ++ [255, 255, 255, 255] ++ List.replicate 6 107) := by
  refine ⟨by decide, ?_, ?_, ?_, ?_⟩
  · exact fun h => absurd ((dataRespects_iff _).mp h) (by decide)
  · exact fun h => absurd ((dataRespects_iff _).mp h) (by decide)
  · exact fun h => absurd ((entryRespects_iff _).mp h) (by decide)
  · exact fun h => absurd ((entryRespects_iff _).mp h) (by decide)

-- ---------------------------------------------------------------------------
-- The round trip of a value
-- ---------------------------------------------------------------------------

def DataT.encoded (d : DataT) : List UInt8 := intBytes d.datasize ++ d.bytes

theorem DataT.encoded_length {d : DataT} (hv : d.Valid) :
    (d.encoded.length : Int) = d.datasize + 4 := by
  have hpos := hv.positive
  simp only [encoded, List.length_append, intBytes_length, hv.bytes_length]
  omega

theorem dataToBuffer_valid {d : DataT} (hv : d.Valid) (hs : IsInt (d.datasize + 4))
    (fill : Nat → UInt8) :
    dataToBuffer (some d) (some fill) =
      .ok (d.datasize + 4, some d.encoded) := by
  obtain ⟨block, hb, hlen⟩ := hv.block
  have hpos := hv.positive
  have hbytes : d.bytes = block.take d.datasize.toNat := by rw [DataT.bytes, hb, Option.getD_some]
  let junk := (List.range (d.datasize + 4).toNat).map fill
  have hmalloc : mallocBytes (d.datasize + 4) (some fill) = some junk := by
    simp [mallocBytes, junk, show ¬ d.datasize + 4 < 0 by omega]
  have hjunk : junk.length = 4 + d.bytes.length := by
    simp only [junk, List.length_map, List.length_range, hv.bytes_length]
    omega
  have hstart : (([] : List UInt8).length : Int) = 0 := rfl
  obtain ⟨buf, hsize, hwrite⟩ : ∃ buf, writeAt junk 0 (intBytes d.datasize) = .ok buf ∧
      writeAt buf 4 d.bytes = .ok (intBytes d.datasize ++ d.bytes) :=
    writeAt_sized hstart hjunk d.datasize
  have hread : readAt block 0 d.datasize = .ok d.bytes := by
    rw [readAt_inside ⟨Int.le_refl _, by omega, by omega⟩, hbytes]
    rfl
  simp only [dataToBuffer, sizeofInt, toInt_of_isInt hs, hmalloc, hsize, ok_bind, hb, hread,
    hwrite, pure_eq_ok, DataT.encoded]

section
variable {d : DataT} (hs : IsInt d.datasize) (behind : List UInt8)
include hs

theorem data_intAt : intAt (d.encoded ++ behind) 0 = d.datasize := by
  have hat : intAt ([] ++ intBytes d.datasize ++ (d.bytes ++ behind)) 0 = d.datasize :=
    intAt_append hs rfl
  simpa [DataT.encoded] using hat

variable (hv : d.Valid)
include hv

theorem data_dataFits : DataFits (d.encoded ++ behind) := by
  have hlen := DataT.encoded_length hv
  have hpos := hv.positive
  simp only [DataFits, Inside, data_intAt hs behind, List.length_append]
  omega

theorem data_valueIn : valueIn (d.encoded ++ behind) = ⟨d.datasize, some d.bytes⟩ := by
  have hbytes : ((d.encoded ++ behind).drop 4).take d.datasize.toNat = d.bytes :=
    take_drop_append (intBytes_length _) hv.bytes_length
  rw [valueIn, data_intAt hs behind, hbytes]

theorem bufferToData_encoded (hsize : 0 < size) :
    bufferToData (some (d.encoded ++ behind)) size = .ok (some ⟨d.datasize, some d.bytes⟩) := by
  rw [bufferToData_fits (data_dataFits hs behind hv) hsize, data_intAt hs behind,
    if_neg (Int.not_le.mpr hv.positive), data_valueIn hs behind hv]

end

theorem encoded_start {d e : DataT} (hd : d.Valid) (hds : IsInt d.datasize) (he : e.Valid)
    (hes : IsInt e.datasize) (hstart : d.encoded <+: e.encoded) :
    d.datasize = e.datasize ∧ d.bytes = e.bytes := by
  obtain ⟨behind, hsplit⟩ := hstart
  have hfirst := bufferToData_encoded hds behind hd (Int.one_pos)
  have hsecond := bufferToData_encoded hes [] he (Int.one_pos)
  rw [List.append_nil, ← hsplit, hfirst] at hsecond
  simpa using hsecond

/-- What follows the buffer of `data_to_buffer` is not read by `buffer_to_data`:
with nothing behind it the size and the bytes come back, and with anything. -/
theorem data_round_trips {d : DataT} (hv : d.Valid) (hs : d.datasize ≤ 2 ^ 31 - 5) :
    (∀ fill, ∃ buf, dataToBuffer (some d) (some fill) = .ok (d.datasize + 4, some buf) ∧
      buf.length = d.datasize + 4 ∧ ∀ behind size, 0 < size →
        bufferToData (some (buf ++ behind)) size = .ok (some ⟨d.datasize, some d.bytes⟩)) ∧
    ∀ (e : DataT) (fill fill' : Nat → UInt8) n n' buf buf', e.Valid → e.datasize ≤ 2 ^ 31 - 5 →
      dataToBuffer (some d) (some fill) = .ok (n, some buf) →
      dataToBuffer (some e) (some fill') = .ok (n', some buf') → buf <+: buf' →
      d.datasize = e.datasize ∧ d.bytes = e.bytes := by
  have hints : ∀ d : DataT, d.Valid → d.datasize ≤ 2 ^ 31 - 5 →
      IsInt d.datasize ∧ IsInt (d.datasize + 4) := by
    intro d hd hle
    have := hd.positive
    simp only [IsInt, intMin, intMax]
    omega
  obtain ⟨hint, hsum⟩ := hints d hv hs
  refine ⟨fun fill => ⟨d.encoded, dataToBuffer_valid hv hsum fill, DataT.encoded_length hv,
    fun behind size hsize => bufferToData_encoded hint behind hv hsize⟩, ?_⟩
  intro e fill fill' n n' buf buf' he hes hd hd' hstart
  obtain ⟨hint', hsum'⟩ := hints e he hes
  rw [dataToBuffer_valid hv hsum] at hd
  rw [dataToBuffer_valid he hsum'] at hd'
  cases hd
  cases hd'
  exact encoded_start hv hint he hint' hstart

theorem data_round_trips_byte :
    (∀ fill, ∃ buf, dataToBuffer (some ⟨1, some [118]⟩) (some fill) = .ok (5, some buf) ∧
      buf.length = (5 : Int) ∧ ∀ behind size, 0 < size →
        bufferToData (some (buf ++ behind)) size = .ok (some ⟨1, some [118]⟩)) ∧
    ¬ DataT.encoded ⟨1, some [118]⟩ <+: DataT.encoded ⟨2, some [118, 118]⟩ := by
  obtain ⟨htrip, hstart⟩ := data_round_trips (by decide : DataT.Valid ⟨1, some [118]⟩) (by decide)
  refine ⟨htrip, fun h => ?_⟩
  have hone := hstart ⟨2, some [118, 118]⟩ (fun _ => 0) (fun _ => 0) _ _ _ _ (by decide)
    (by decide) (dataToBuffer_valid (by decide) (by decide) _)
    (dataToBuffer_valid (by decide) (by decide) _) h
  exact absurd hone (by decide)

-- ---------------------------------------------------------------------------
-- The round trip of an entry
-- ---------------------------------------------------------------------------

def EntryT.encoded (entry : EntryT) : List UInt8 :=
  intBytes entry.value.datasize ++ entry.value.bytes ++
    intBytes (entry.key.bytes.length + 1) ++ entry.key.block

theorem EntryT.encoded_length {entry : EntryT} (hv : entry.value.Valid) :
    (entry.encoded.length : Int) = entry.value.datasize + entry.key.bytes.length + 9 := by
  have hpos := hv.positive
  simp only [encoded, List.length_append, intBytes_length, hv.bytes_length, CStr.block_length]
  omega

theorem entryToBuffer_valid {entry : EntryT} (hv : entry.value.Valid)
    (hs : IsInt (entry.value.datasize + entry.key.bytes.length + 9)) (fill more : Nat → UInt8) :
    entryToBuffer (some entry) (some fill) (.inPlace more) =
      .ok (entry.encoded.length, some entry.encoded) := by
  have hpos := hv.positive
  obtain ⟨-, hmax⟩ := hs
  have hint : ∀ n : Int, 0 ≤ n → n ≤ entry.value.datasize + entry.key.bytes.length + 9 →
      IsInt n := by
    intro n hn hle
    simp only [IsInt, intMin, intMax] at hmax ⊢
    omega
  have hdata := dataToBuffer_valid hv (hint _ (by omega) (by omega)) fill
  have hkey := toInt_of_isInt (hint (entry.key.bytes.length + 1) (by omega) (by omega))
  have hnot : ¬ entry.value.datasize + 4 < 0 := by omega
  have hvalue := DataT.encoded_length hv
  -- what `realloc` adds holds the size of the key and the key
  let grown := (List.range ((entry.value.datasize + 4 + (entry.key.bytes.length + 1) + 4).toNat -
    entry.value.encoded.length)).map more
  have hgrown : grown.length = 4 + entry.key.block.length := by
    simp only [grown, List.length_map, List.length_range, CStr.block_length]
    omega
  obtain ⟨buf, hsize, hwrite⟩ := writeAt_sized hvalue hgrown (entry.key.bytes.length + 1)
  have hread : readAt entry.key.block 0 (entry.key.bytes.length + 1) = .ok entry.key.block := by
    rw [readAt_inside ⟨Int.le_refl _, by omega, by simp⟩]
    have hall : ((entry.key.bytes.length : Int) + 1).toNat = entry.key.block.length := by
      rw [CStr.block_length]
      omega
    rw [hall]
    simp
  have htotal : entry.value.datasize + 4 + (entry.key.bytes.length + 1) + 4 =
      entry.encoded.length := by
    rw [EntryT.encoded_length hv]
    omega
  have hlen : toInt entry.encoded.length = entry.encoded.length :=
    toInt_of_isInt (hint _ (by omega) (by rw [EntryT.encoded_length hv]))
  simp only [entryToBuffer, hdata, ok_bind, if_neg hnot, hkey, sizeofInt]
  rw [hsize, ok_bind, hread, ok_bind, hwrite, ok_bind, htotal, hlen, pure_eq_ok]
  rfl

theorem EntryT.encoded_eq (entry : EntryT) : entry.encoded =
    entry.value.encoded ++ (intBytes (entry.key.bytes.length + 1) ++ entry.key.block) := by
  simp [encoded, DataT.encoded]

theorem encoded_intAt {entry : EntryT} (hs : IsInt entry.value.datasize) :
    intAt entry.encoded 0 = entry.value.datasize := by
  rw [EntryT.encoded_eq, data_intAt hs]

section
variable {entry : EntryT} (hv : entry.value.Valid)
include hv

theorem encoded_dataFits (hs : IsInt entry.value.datasize) : DataFits entry.encoded := by
  rw [EntryT.encoded_eq]
  exact data_dataFits hs _ hv

theorem encoded_valueIn (hs : IsInt entry.value.datasize) :
    valueIn entry.encoded = ⟨entry.value.datasize, some entry.value.bytes⟩ := by
  rw [EntryT.encoded_eq, data_valueIn hs _ hv]

theorem encoded_key (hs : IsInt entry.value.datasize) :
    entry.encoded.drop (keyOffset entry.encoded + 4).toNat = entry.key.block := by
  have hpos := hv.positive
  have hlen := hv.bytes_length
  rw [keyOffset, encoded_intAt hs, EntryT.encoded]
  refine List.drop_left' ?_
  simp only [List.length_append, intBytes_length, hlen]
  omega

end

/-- What `buffer_to_entry` makes of the buffer of `entry_to_buffer`: the same key
and the same value. -/
def RoundTrips (entry : EntryT) : Prop :=
  ∀ fill more m, ∃ size buf decoded,
    entryToBuffer (some entry) (some fill) (.inPlace more) = .ok (size, some buf) ∧
      bufferToEntry (some buf) size m = .ok (some decoded) ∧
      readStr decoded.key = .ok entry.key ∧ decoded.value.datasize = entry.value.datasize ∧
      decoded.value.bytes = entry.value.bytes

/-- A copy of the first bytes of a string's block has the string exactly if it
goes up to the NUL. -/
theorem readStr_take_block (s : CStr) (n : Nat) :
    readStr (s.block.take n) = .ok s ↔ s.bytes.length < n := by
  constructor
  · intro hread
    obtain ⟨rest, hsplit⟩ := readStr_ok hread
    have hlen := congrArg List.length hsplit
    simp only [List.length_take, List.length_append, List.length_cons] at hlen
    omega
  · intro hn
    rw [List.take_of_length_le (by rw [CStr.block_length]; omega), readStr_block]

/-- An entry comes back exactly if its value fits the structure it is copied over
and its key is three bytes longer than twice the value. -/
theorem entry_round_trips_iff {entry : EntryT} (hv : entry.value.Valid)
    (hs : IsInt (entry.value.datasize + entry.key.bytes.length + 9)) :
    RoundTrips entry ↔ entry.value.datasize ≤ sizeofDataT ∧
      entry.key.bytes.length = 2 * entry.value.datasize + 3 := by
  have hpos := hv.positive
  have hint : IsInt entry.value.datasize := by
    simp only [IsInt, intMin, intMax] at hs ⊢
    omega
  have hat := encoded_intAt hint
  have hf := encoded_dataFits hv hint
  have hlen := EntryT.encoded_length hv
  have hsize : (0 : Int) < entry.encoded.length := by omega
  have hkeyfits : KeyCopyFits entry.encoded ↔
      2 * entry.value.datasize + 3 ≤ entry.key.bytes.length := by
    simp only [KeyCopyFits, Inside, keyOffset, hat]
    omega
  have hkey := encoded_key hv hint
  have hkeysize : (intAt entry.encoded 0 + keyOffset entry.encoded).toNat =
      2 * entry.value.datasize.toNat + 4 := by
    simp only [keyOffset, hat]
    omega
  constructor
  · intro h
    obtain ⟨size, buf, decoded, hencode, hdecode, hread, -, -⟩ :=
      h (fun _ => 0) (fun _ => 0) .zero
    rw [entryToBuffer_valid hv hs] at hencode
    cases hencode
    by_cases hl : entry.value.datasize ≤ sizeofDataT
    · rw [bufferToEntry_small hf (hat ▸ hpos) (hat ▸ hl) hsize] at hdecode
      by_cases hk : KeyCopyFits entry.encoded
      · rw [readAt_inside hk, hkey, hkeysize] at hdecode
        cases hdecode
        have hnul := (readStr_take_block _ _).mp hread
        have hcopy := hkeyfits.mp hk
        exact ⟨hl, by omega⟩
      · rw [readAt_outside hk] at hdecode
        cases hdecode
    · rw [bufferToEntry_large hf (by omega) hsize] at hdecode
      cases hdecode
  · rintro ⟨hl, heq⟩ fill more m
    have hk := hkeyfits.mpr (Int.le_of_eq heq.symm)
    have hdecode := bufferToEntry_small hf (hat ▸ hpos) (hat ▸ hl) hsize m
    rw [readAt_inside hk, hkey, hkeysize, ok_bind, pure_eq_ok] at hdecode
    have hvalid := valueIn_valid hf (hat ▸ hpos)
    refine ⟨_, _, _, entryToBuffer_valid hv hs fill more, hdecode, ?_, hat, ?_⟩
    · exact (readStr_take_block _ _).mpr (by omega)
    · rw [hvalid.copied_bytes m, encoded_valueIn hv hint, DataT.bytes, Option.getD_some]
      exact List.take_of_length_le (Nat.le_of_eq hv.bytes_length)

theorem entry_round_trips_iff_five :
    RoundTrips ⟨.ofBytes [107, 107, 107, 107, 107], ⟨1, some [118]⟩⟩ :=
  (entry_round_trips_iff (by decide) (by decide)).mpr (by decide)

/-- With a key of one byte the copy reads behind the buffer. -/
theorem short_key_overread :
    ¬ RoundTrips ⟨.ofBytes [107], ⟨1, some [118]⟩⟩ ∧
      (entryToBuffer (some ⟨.ofBytes [107], ⟨1, some [118]⟩⟩) (some fun _ => 0)
        (.inPlace fun _ => 0) >>= fun r => bufferToEntry r.2 r.1 .zero) = .error .outOfBounds := by
  have hrun : (entryToBuffer (some ⟨.ofBytes [107], ⟨1, some [118]⟩⟩) (some fun _ => 0)
      (.inPlace fun _ => 0) >>= fun r => bufferToEntry r.2 r.1 .zero) = .error .outOfBounds := by
    decide +kernel
  refine ⟨fun h => ?_, hrun⟩
  obtain ⟨size, buf, decoded, hencode, hdecode, -⟩ := h (fun _ => 0) (fun _ => 0) .zero
  rw [hencode, ok_bind, hdecode] at hrun
  cases hrun

end HashMapStorage
