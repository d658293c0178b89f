import HashMapStorage.RoundTrip
import HashMapStorage.Snapshot

/-!
# The answer to a GET (`invoke`)

A value is stored by its size and answered as a string. What `table_get`
returns lies over the structure that describes the copy, so the string goes on
behind the value unless the next byte of that structure is a zero: of the size
(always), of the padding (as `malloc` left it) or of the address of the block.
-/

namespace HashMapStorage

open Machine

-- ---------------------------------------------------------------------------
-- The byte behind the value
-- ---------------------------------------------------------------------------

theorem image_size (d : DataT) (m : DataMem) (hi : i < 4) :
    (d.image m)[i]? = (intBytes d.datasize)[i]? := by
  rw [DataT.image, List.append_assoc, List.getElem?_append_left (by simpa using hi)]

theorem image_block (d : DataT) (m : DataMem) (i : Nat) :
    (d.image m)[8 + i]? = (natBytes 8 m.block)[i]? := by
  rw [DataT.image, List.getElem?_append_right (by simp [m.pad_length])]
  simp [m.pad_length]

/-- Addresses of user space leave the two high bytes zero. -/
theorem image_high (d : DataT) (m : DataMem) (hi : i = 14 ∨ i = 15) :
    (d.image m)[i]? = some 0 := by
  have hlow := m.block_lt
  rcases hi with rfl | rfl
  · rw [image_block d m 6, natBytes_getElem? (by decide)]
    rw [Nat.div_eq_of_lt (by omega)]
    rfl
  · rw [image_block d m 7, natBytes_getElem? (by decide)]
    rw [Nat.div_eq_of_lt (by omega)]
    rfl

def DataMem.ones : DataMem := ⟨[1, 1, 1, 1], rfl, fun _ => 1, 0x010101010110, by decide⟩

theorem image_ones (d : DataT) (hlow : 4 ≤ i) (hhigh : i < 14) :
    (d.image .ones)[i]? ≠ some 0 := by
  have hbytes : ∀ j < 10, (DataMem.ones.pad ++ natBytes 8 DataMem.ones.block)[j]? ≠ some 0 := by
    decide
  rw [DataT.image, List.append_assoc, List.getElem?_append_right (by simpa using hlow)]
  exact hbytes _ (by simp; omega)

theorem image_zero_iff {d : DataT} (hp : 0 < d.datasize) :
    (∀ m, (d.image m)[d.datasize.toNat]? = some 0) ↔
      d.datasize ≤ 3 ∨ d.datasize = 14 ∨ d.datasize = 15 := by
  obtain ⟨n, hn⟩ : ∃ n : Nat, d.datasize = n := ⟨d.datasize.toNat, by omega⟩
  simp only [hn, Int.toNat_natCast]
  constructor
  · intro h
    have hz := h .ones
    have hlen : n < 16 := by
      by_contra hlong
      rw [List.getElem?_eq_none (by simp [sizeofDataT]; omega)] at hz
      cases hz
    by_contra hother
    exact image_ones d (by omega) (by omega) hz
  · intro hsize m
    by_cases hthree : n ≤ 3
    · rw [image_size d m (by omega), hn]
      have hcases : n = 1 ∨ n = 2 ∨ n = 3 := by omega
      rcases hcases with rfl | rfl | rfl <;> rfl
    · exact image_high d m (by omega)

-- ---------------------------------------------------------------------------
-- The call
-- ---------------------------------------------------------------------------

namespace Skel

variable {s : Skel}

/-- `invoke` is called on a GET that it does not reject, of a key under which
these bytes are stored, none of them a NUL. -/
structure CalledForValue (s : Skel) (p : Nat) (msg : MessageT) (d : DataT) : Prop where
  idle : s.main = .idle
  cell : s.messages.cell p = some msg
  opcode : msg.opcode = opGet
  cType : ¬ outOfRange msg.opcode msg.cType
  stored : ∃ table key entry, s.table = some table ∧
    strAt s.mem.strings msg.key = .ok key ∧ tableFind table key = .ok (some entry) ∧
    entry.value = d
  valid : d.Valid
  nulFree : 0 ∉ d.bytes

/-- The message is the answer with these bytes: their number is its `data_size`,
and they are its `data` read as a string. -/
structure AnswersValue (s : Skel) (p : Nat) (bytes : List UInt8) : Prop where
  returned : s.main = .returned (some p) 0
  message : ∃ msg string, s.messages.cell p = some msg ∧ msg.opcode = opGet + 1 ∧
    msg.dataSize = bytes.length ∧ strAt s.mem.strings msg.data = .ok string ∧
    string.bytes = bytes

theorem invoke_get {table : TableT} (s : Skel) (p : Nat) (hop : msg.opcode = opGet)
    (hct : ¬ outOfRange msg.opcode msg.cType) (data : DataMem) (string : Malloc (List UInt8)) :
    s.invoke table p msg data string = (do
      let (msg, mem) ← invokeGet table s.mem msg data string
      pure ({ s with messageServer := some p }.answer p msg mem)) := by
  have hother : opGet ≠ opSize ∧ opGet ≠ opDel := by decide
  rw [invoke, if_neg hct]
  simp only [hop, hother.1, hother.2, ↓reduceIte]

theorem CalledForValue.step (h : s.CalledForValue p msg d) (data : DataMem)
    (string : Malloc (List UInt8)) :
    s.step (.invoke (some p) data string) = (do
      let copy ← (dataDup (some d) data).toOption
      let t : Skel := { s with request := some msg, given := [], messageServer := some p }
      let answer := { msg with opcode := opGet + 1, cType := ctValue }
      match copy with
      | none => some (t.answer p { answer with dataSize := 0, data := none } s.mem)
      | some copy =>
        let (block, strings) := placeBlock s.mem.strings string copy.data
        some (t.answer p { answer with dataSize := copy.datasize, data := block }
          { s.mem with strings })) := by
  obtain ⟨hidle, hc, hop, hct, ⟨table, key, entry, ht, hkey, hfind, hvalue⟩, -, -⟩ := h
  have hstep : s.step (.invoke (some p) data string) =
      ({ s with request := some msg, given := [] }.invoke table p msg data string).toOption := by
    simp only [Skel.step, mainStep, hidle, ht, hc]
    exact Option.or_none
  rw [hstep, invoke_get _ _ hop hct, invokeGet, strOrNull_of hkey, ok_bind, tableGet_find, hfind,
    ok_bind, dupFound, hvalue]
  cases dataDup (some d) data with
  | error e => rfl
  | ok copy => cases copy <;> rfl

theorem CalledForValue.answers_iff (h : s.CalledForValue p msg d) (data : DataMem)
    (string : Malloc (List UInt8)) :
    (∃ s', s.step (.invoke (some p) data string) = some s' ∧ s'.AnswersValue p d.bytes) ↔
      (d.image data)[d.datasize.toNat]? = some 0 := by
  have hstep := h.step data string
  have hlen := h.valid.bytes_length
  have hpos := h.valid.positive
  by_cases hs : d.datasize ≤ sizeofDataT
  · rw [dataDup_fits h.valid hs] at hstep
    obtain ⟨q, strings, hplace, -, hload⟩ := placeBlock_spec s.mem.strings string
      (d.bytes ++ (d.image data).drop d.datasize.toNat)
    have hread := readStr_append_iff h.nulFree ((d.image data).drop d.datasize.toNat)
    rw [List.head?_drop] at hread
    rw [← hread]
    simp only [Except.toOption, Option.bind_eq_bind, Option.bind_some, DataT.copied, hplace]
      at hstep
    have hstr : strAt strings q = readStr (d.bytes ++ (d.image data).drop d.datasize.toNat) := by
      rw [strAt, hload, ok_bind]
    constructor
    · rintro ⟨s', hs', -, msg', string', hc, -, -, hstring, hbytes⟩
      rw [hstep] at hs'
      cases hs'
      simp only [answer, Heap.set_cell, Option.some.injEq] at hc
      subst hc
      exact ⟨string', hstr ▸ hstring, hbytes⟩
    · rintro ⟨string', hstring, hbytes⟩
      refine ⟨_, hstep, rfl, _, string', Heap.set_cell .., rfl, ?_, hstr.trans hstring, hbytes⟩
      dsimp only
      omega
  · obtain ⟨block, hb, -⟩ := h.valid.block
    rw [dataDup_overflows hpos hb (fun hfit => hs (by omega))] at hstep
    refine iff_of_false ?_ fun hz => ?_
    · rintro ⟨s', hs', -⟩
      rw [hstep] at hs'
      cases hs'
    · rw [List.getElem?_eq_none (by simp; omega)] at hz
      cases hz

end Skel

/-- Whatever `malloc` returns the answer is the stored value: this is so for
values of these sizes and for no others. -/
theorem get_answers_value_iff {s : Skel} (h : s.CalledForValue p msg d) :
    (∀ data string, ∃ s', s.step (.invoke (some p) data string) = some s' ∧
        s'.AnswersValue p d.bytes) ↔
      d.datasize ≤ 3 ∨ d.datasize = 14 ∨ d.datasize = 15 := by
  rw [← image_zero_iff h.valid.positive]
  constructor
  · exact fun hall data => (h.answers_iff data (mallocTop [])).mp (hall data _)
  · exact fun hz data string => (h.answers_iff data string).mpr (hz data)

-- ---------------------------------------------------------------------------
-- Values put and asked for
-- ---------------------------------------------------------------------------

def valueWrite (bytes : List UInt8) : Heap MessageT × Mem :=
  (Heap.empty.set 0 (some ⟨⟨none⟩, opPut, ctEntry, bytes.length, some 1, some 0, 0, none⟩),
    ⟨(Heap.empty.set 0 (some [107, 0])).set 1 (some (bytes ++ [0])), .empty⟩)

def getMessage : MessageT := ⟨⟨none⟩, opGet, ctKey, 0, none, some 0, 0, none⟩

def storeRun (bytes : List UInt8) : List SkelStep :=
  [.outside (valueWrite bytes).1 (valueWrite bytes).2, .invoke (some 0) .zero (mallocTop []),
    .lock, .enqueue (mallocTop ⟨0, 0, none, none, none, 0⟩), .signal, .unlock] ++ workRound ++
    [.outside (Heap.empty.set 0 (some getMessage)) (valueWrite bytes).2]

def Skel.found (s : Skel) : MainPc × Option MessageT × Option CStr × Option DataT :=
  (s.main, s.messages.cell 0, (strAt s.mem.strings (some 0)).toOption, s.table.bind fun table =>
    (tableFind table (charKey 107)).toOption.bind fun entry => entry.map EntryT.value)

/-- What the message says behind `invoke`: `data_size`, and `data` as a string. -/
def Skel.answered (s : Skel) : Option (Int × Option (List UInt8)) :=
  (s.messages.cell 0).map fun msg =>
    (msg.dataSize, (strAt s.mem.strings msg.data).toOption.map CStr.bytes)

theorem called_of_found {s : Skel}
    (hf : s.found = (.idle, some getMessage, some (charKey 107), some d)) (hd : d.Valid)
    (hz : 0 ∉ d.bytes) : s.CalledForValue 0 getMessage d := by
  simp only [Skel.found, Prod.mk.injEq, Option.bind_eq_some_iff, Option.map_eq_some_iff] at hf
  obtain ⟨hidle, hc, hkey, table, ht, _, hfind, entry, rfl, hvalue⟩ := hf
  exact ⟨hidle, hc, rfl, by decide, ⟨table, _, entry, ht, toOption_some.mp hkey,
    toOption_some.mp hfind, hvalue⟩, hd, hz⟩

theorem storeRun_called (bytes : List UInt8)
    (hf : (run Skel.step oneList (storeRun bytes)).map Skel.found =
      some (.idle, some getMessage, some (charKey 107), some d))
    (hd : d.Valid) (hz : 0 ∉ d.bytes) :
    ∃ s, run Skel.step oneList (storeRun bytes) = some s ∧ s.CalledForValue 0 getMessage d := by
  obtain ⟨s, hr, hf⟩ := Option.map_eq_some_iff.mp hf
  exact ⟨s, hr, called_of_found hf hd hz⟩

def storedValue (bytes : List UInt8) : DataT := DataT.copied ⟨bytes.length, some bytes⟩ .zero

theorem get_answers_value_iff_three : ∃ s, run Skel.step oneList (storeRun [97, 98, 99]) = some s ∧
    ∀ data string, ∃ s', s.step (.invoke (some 0) data string) = some s' ∧
      s'.AnswersValue 0 [97, 98, 99] := by
  obtain ⟨s, hr, h⟩ := storeRun_called [97, 98, 99] (d := storedValue [97, 98, 99])
    (by decide +kernel) (by decide) (by decide)
  exact ⟨s, hr, (get_answers_value_iff h).mpr (.inl (by decide))⟩

/-- "hello" is answered with the padding and the address of the block behind it,
where `malloc` left no zero in the padding. -/
theorem five_answered_longer : ∃ s,
    run Skel.step oneList (storeRun [104, 101, 108, 108, 111]) = some s ∧
      s.CalledForValue 0 getMessage (storedValue [104, 101, 108, 108, 111]) ∧
      ¬ (∀ data string, ∃ s', s.step (.invoke (some 0) data string) = some s' ∧
        s'.AnswersValue 0 [104, 101, 108, 108, 111]) ∧
      ∃ s', s.step (.invoke (some 0) .ones (mallocTop [])) = some s' ∧ s'.answered =
        some (5, some ([104, 101, 108, 108, 111] ++ [1, 1, 1, 16, 1, 1, 1, 1, 1])) := by
  obtain ⟨s, hr, h⟩ := storeRun_called [104, 101, 108, 108, 111]
    (d := storedValue [104, 101, 108, 108, 111]) (by decide +kernel) (by decide) (by decide)
  have hview : (run Skel.step oneList (storeRun [104, 101, 108, 108, 111] ++
      [.invoke (some 0) .ones (mallocTop [])])).map Skel.answered =
        some (some (5, some ([104, 101, 108, 108, 111] ++ [1, 1, 1, 16, 1, 1, 1, 1, 1]))) := by
    decide +kernel
  obtain ⟨s', hs, hanswered⟩ := Option.map_eq_some_iff.mp hview
  rw [run_append, hr, Option.bind_some] at hs
  obtain ⟨s₁, hs, hlast⟩ := run_cons hs
  cases hlast
  refine ⟨s, hr, h, fun hall => ?_, s', hs, hanswered⟩
  exact absurd ((h.answers_iff .ones (mallocTop [])).mp (hall _ _)) (by decide)

end HashMapStorage
