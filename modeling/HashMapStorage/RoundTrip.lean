import HashMapStorage.ClientStub
import HashMapStorage.Hashing
import HashMapStorage.Protobuf

/-!
# The round trip of a value

A value goes through `rtable_put`, the worker and `rtable_get` as a string: the
first converter cuts it at its first NUL and drops an empty one, while
`datasize` travels on its own. What the worker stores are the value's bytes or
nothing at all; the copy for the reply is read as a string again. Which values
come back is said by `Carries`.
-/

namespace HashMapStorage

open Machine

-- ---------------------------------------------------------------------------
-- Values as strings
-- ---------------------------------------------------------------------------

/-- A value of `n` bytes in a block with the string `s` at its start: the
string and its NUL hold the whole value, which fits the structure `data_dup`
copies it to and, where it fills this structure, has its NUL there. -/
structure Carries (s : CStr) (n : Nat) : Prop where
  nonEmpty : s ≠ .empty
  whole : n ≤ s.bytes.length + 1
  fits : n ≤ sizeofDataT
  ended : n = sizeofDataT → s.bytes.length < n

/-- What goes into `table_put` at the server for a value whose block has the
string `s` at its start, and what `rtable_get` copies for a reply of `s`. -/
def asValue (n : Int) (s : CStr) : Option DataT :=
  dataCreate2 n ((nonEmpty (some s)).map CStr.block)

/-- What `rtable_get` returns for a stored value: the copy for the reply is
read as a string. -/
def answered (e : DataT) (found result : DataMem) : Exec (Option DataT) := do
  let s ← readStr (e.bytes ++ (e.image found).drop e.datasize.toNat)
  dataDup (asValue e.datasize s) result

theorem asValue_empty (n : Int) : asValue n .empty = none := by
  simp [asValue, nonEmpty, dataCreate2]

theorem asValue_some (hn : 1 ≤ n) (hs : s ≠ .empty) :
    asValue n s = some ⟨n, some s.block⟩ := by
  have hnot : ¬ n ≤ 0 := by omega
  simp [asValue, nonEmpty, hs, dataCreate2, hnot]

theorem block_valid {s : CStr} (hn : 1 ≤ n) (hw : n.toNat ≤ s.bytes.length + 1) :
    (⟨n, some s.block⟩ : DataT).Valid :=
  ⟨by dsimp only; omega, s.block, rfl, by simpa using hw⟩

theorem take_block (s : CStr) (rest : List UInt8) (hw : n ≤ s.bytes.length + 1) :
    (s.bytes ++ 0 :: rest).take n = s.block.take n := by
  have hsplit : s.bytes ++ 0 :: rest = s.block ++ rest := by simp [CStr.block]
  rw [hsplit, List.take_append_of_le_length (by simpa using hw)]

theorem image_ends (d : DataT) (m : DataMem) (hn : n < sizeofDataT) :
    (0 : UInt8) ∈ (d.image m).drop n := by
  have hlast : (d.image m)[15]? = some 0 := by
    have h₁ : (intBytes d.datasize ++ m.pad).length = 8 := by simp [m.pad_length]
    rw [DataT.image, List.getElem?_append_right (by omega), h₁]
    have hhigh : m.block / 256 / 256 / 256 / 256 / 256 / 256 / 256 = 0 := by
      have := m.block_lt
      omega
    simp [natBytes, hhigh]
  refine List.mem_of_getElem? (i := 15 - n) ?_
  rw [List.getElem?_drop]
  have hindex : n + (15 - n) = 15 := by
    simp only [sizeofDataT] at hn
    omega
  rw [hindex, hlast]

/-- The string the reply is read as: the value's, with what is left in the
structure where the value has no NUL of its own. -/
theorem stored_string {e : DataT} (hs : Carries s e.datasize.toNat) (hp : 1 ≤ e.datasize)
    (hb : e.bytes = s.block.take e.datasize.toNat) (m : DataMem) :
    ∃ t, readStr (e.bytes ++ (e.image m).drop e.datasize.toNat) = .ok t ∧ t ≠ .empty ∧
      e.datasize.toNat ≤ t.bytes.length + 1 ∧ t.block.take e.datasize.toNat = e.bytes := by
  rcases Nat.lt_or_ge s.bytes.length e.datasize.toNat with hlong | hshort
  · have hwhole : e.bytes = s.block := by
      rw [hb, List.take_of_length_le (by rw [CStr.block_length]; exact hlong)]
    refine ⟨s, ?_, hs.nonEmpty, hs.whole, hb.symm⟩
    rw [hwhole, CStr.block, List.append_assoc]
    exact readStr_append s _
  · have hlt : e.datasize.toNat < sizeofDataT := by
      have := hs.fits
      have := hs.ended
      omega
    obtain ⟨more, rest, hsplit, hmore⟩ := List.eq_append_cons_of_mem (image_ends e m hlt)
    have hbytes : e.bytes = s.bytes.take e.datasize.toNat := by
      rw [hb, CStr.block, List.take_append_of_le_length hshort]
    have hnul : 0 ∉ e.bytes ++ more := by
      rw [List.mem_append, not_or, hbytes]
      exact ⟨fun h => s.nulFree (List.mem_of_mem_take h), hmore⟩
    have hlen : e.bytes.length = e.datasize.toNat := by
      rw [hbytes, List.length_take]
      omega
    refine ⟨⟨e.bytes ++ more, hnul⟩, ?_, ?_, ?_, ?_⟩
    · rw [hsplit, ← List.append_assoc]
      exact readStr_append ⟨e.bytes ++ more, hnul⟩ rest
    · intro he
      have hnil := congrArg (fun t : CStr => t.bytes.length) he
      simp only [CStr.empty, List.length_append, List.length_nil] at hnil
      omega
    · simp only [List.length_append]
      omega
    · rw [CStr.block, List.append_assoc, List.take_left' hlen]

theorem answered_carries {e : DataT} (hs : Carries s e.datasize.toNat) (hp : 1 ≤ e.datasize)
    (hb : e.bytes = s.block.take e.datasize.toNat) (found result : DataMem) :
    ∃ d, answered e found result = .ok (some d) ∧ d.datasize = e.datasize ∧ d.bytes = e.bytes := by
  obtain ⟨t, ht, hne, hw, htake⟩ := stored_string hs hp hb found
  have hv := block_valid hp hw
  have hfits := hs.fits
  let sent : DataT := ⟨e.datasize, some t.block⟩
  refine ⟨sent.copied result, ?_, rfl, (hv.copied_bytes result).trans htake⟩
  rw [answered, ht, ok_bind, asValue_some hp hne, dataDup_fits hv (by dsimp only; omega)]

theorem answered_overflows {e : DataT} (hn : e.datasize = sizeofDataT) (hz : 0 ∉ e.bytes)
    (found result : DataMem) : answered e found result = .error .outOfBounds := by
  have hdrop : (e.image found).drop e.datasize.toNat = [] := by
    rw [List.drop_eq_nil_iff, DataT.image_length, hn]
    exact Nat.le_refl _
  rw [answered, hdrop, List.append_nil, readStr_error hz, error_bind]

theorem answered_head {e : DataT} (he : Stored e) (h : answered e found result = .ok (some d)) :
    d.bytes.head? ≠ some 0 := by
  have hp := he.1.positive
  obtain ⟨s, -, h⟩ := seq_ok h
  by_cases hs : s = .empty
  · rw [hs, asValue_empty] at h
    cases h
  rw [asValue_some (by omega) hs] at h
  by_cases hw : e.datasize.toNat ≤ sizeofDataT ∧ e.datasize.toNat ≤ s.block.length
  · have hv := block_valid (n := e.datasize) (by omega) (by simpa using hw.2)
    rw [dataDup_fits hv (by dsimp only; omega)] at h
    cases h
    rw [hv.copied_bytes]
    obtain ⟨b, bytes, hbytes, hb⟩ := CStr.first_ne_zero hs
    obtain ⟨n, hn⟩ : ∃ n, e.datasize.toNat = n + 1 := ⟨e.datasize.toNat - 1, by omega⟩
    simpa [DataT.bytes, CStr.block, hbytes, hn] using hb
  · rw [dataDup_overflows (d := ⟨e.datasize, some s.block⟩) hp rfl hw] at h
    cases h

-- ---------------------------------------------------------------------------
-- What the worker does with a value
-- ---------------------------------------------------------------------------

theorem tablePut_none (table : TableT) (key : CStr) (m : PutMem) :
    tablePut table (some key) none m = .ok (-1, table) := rfl

theorem tablePut_overflows {table : TableT} (ht : table.Maps m) (hp : 1 ≤ n)
    (hw : ¬ (n.toNat ≤ sizeofDataT ∧ n.toNat ≤ block.length)) (key : CStr) (mem : PutMem) :
    tablePut table (some key) (some ⟨n, some block⟩) mem = .error .outOfBounds := by
  have hcount := ht.some_list
  have hdup := dataDup_overflows (d := ⟨n, some block⟩) (by dsimp only; omega) rfl hw mem.data
  simp [tablePut, hcount, hdup]

-- ---------------------------------------------------------------------------
-- Requests and replies on their way
-- ---------------------------------------------------------------------------

theorem nonEmpty_idem (s : Option CStr) : nonEmpty (nonEmpty s) = nonEmpty s := by
  by_cases hs : s = some .empty
  · simp [nonEmpty, hs]
  · simp [nonEmpty, hs]

theorem sendRequest_says (pb : ProtobufC) {request : MessageT} (h : request.Says client f)
    (hf : f.Fits) (there : Mem) (t : TripMem) :
    ∃ client' message there', sendRequest pb client request there t =
        .ok (client', some message, there') ∧ message.Says there' f.noEmpty ∧
      blockOrNull there'.strings message.data = .ok ((nonEmpty f.data).map CStr.block) := by
  obtain ⟨made, client₁, hmake, hsays, -⟩ := toMessage_says h t.made
  obtain ⟨client', message, there', hrun, -, hsays', hdata, -⟩ :=
    transfer_says pb hsays ⟨hf.opcode, hf.cType, hf.dataSize, hf.unknown⟩ t.copies there t.received
  simp only [Fields.noEmpty, nonEmpty_idem] at hsays' hdata
  exact ⟨client', message, there', by simp [sendRequest, hmake, hrun], hsays', hdata⟩

theorem placeBlock_spec (h : Strings) (m : Malloc (List UInt8)) (block : List UInt8) :
    ∃ p h', placeBlock h m (some block) = (p, h') ∧ h.Grows h' ∧ h'.load p = .ok block :=
  ⟨_, _, rfl, .alloc h m (some block), Heap.load_some (Heap.set_cell ..)⟩

theorem transfer_error (pb : ProtobufC) {message : MessageT} (hk : message.keyStrs mem = .ok [])
    (hd : mem.strings.load message.data = .ok block) (hz : 0 ∉ block)
    (copies : Malloc (List UInt8)) (there : Mem) (m : MessageMem) :
    transfer pb mem message copies there m = .error .outOfBounds := by
  obtain ⟨hlen, -⟩ := keyStrs_ok hk
  have hcopy : toMessageT mem message copies = .ok (message, mem) := by
    simp [toMessageT, ← hlen, dupKeysLoop]
  have hread : strOrNull mem.strings message.data = .error .outOfBounds := by
    obtain ⟨a, ha, hc⟩ := Heap.load_ok hd
    rw [ha, strOrNull, strAt_some hc, readStr_error hz, error_bind]
  simp [transfer, hcopy, MessageT.fields, hread]

namespace Exchange

/-- A non-empty key and a value of at least one byte, the same key asked for,
and no other write on it. -/
structure Proper (x : Exchange) (key : CStr) (block : List UInt8) : Prop where
  entryKey : strAt x.writer.strings x.key = .ok key
  entryData : x.writer.strings.load x.data = .ok block
  size : IsInt x.datasize
  positive : 1 ≤ x.datasize
  whole : x.datasize.toNat ≤ block.length
  keyNonEmpty : key ≠ .empty
  askedKey : strAt x.reader.strings x.name = .ok key
  others : ∀ op ∈ x.between, op.Leaves key

/-- The blocks of the request are as they arrived when the worker executes the
task, its key can be linked into its list, and the calls in between find a
table that is ready for them. -/
structure Undisturbed (x : Exchange) (pb : ProtobufC) (table : TableT) (key : CStr) : Prop where
  kept : ∀ request client message server, putRequest x.key x.datasize x.data = some request →
    sendRequest pb x.writer request x.server x.sent = .ok (client, some message, server) →
    ∀ a, message.key = some a ∨ message.data = some a →
      (x.meanwhile server.strings).cell a = server.strings.cell a
  appendable : appendable table key = true
  indexed : ∀ op ∈ x.between, op.Indexed table.countLists
  ready : (x.put pb table).toOption.all (·.runReady x.between) = true

variable {x : Exchange} {key : CStr} {table : TableT}

theorem putRequest_some (hx : x.Proper key block) :
    putRequest x.key x.datasize x.data =
      some ⟨⟨none⟩, opPut, ctEntry, x.datasize, x.data, x.key, 0, none⟩ := by
  obtain ⟨a, -, hkey, -⟩ := strAt_ok hx.entryKey
  obtain ⟨b, hdata, -⟩ := Heap.load_ok hx.entryData
  have hpos := hx.positive
  have hnot : ¬ x.datasize < 0 := by omega
  simp [putRequest, hkey, hdata, hnot]

theorem put_eq (pb : ProtobufC) (hx : x.Proper key block) (hu : x.Undisturbed pb table key)
    (hs : readStr block = .ok s) :
    x.put pb table = (do
      let (_, table) ← tablePut table (some key) (asValue x.datasize s) x.stored
      pure table) := by
  have hrequest := putRequest_some hx
  have hentry : strAt x.writer.strings x.data = .ok s := by
    rw [strAt, hx.entryData, ok_bind, hs]
  have hsays : MessageT.Says x.writer
      ⟨⟨none⟩, opPut, ctEntry, x.datasize, x.data, x.key, 0, none⟩
      ⟨opPut, ctEntry, x.datasize, some s, some key, [], []⟩ :=
    ⟨strOrNull_of hentry, strOrNull_of hx.entryKey, rfl, rfl, rfl, rfl, rfl⟩
  obtain ⟨client, message, server, hsend, hmessage, hdata⟩ :=
    sendRequest_says pb hsays ⟨(by decide : IsInt opPut), (by decide : IsInt ctEntry), hx.size, rfl⟩
      x.server x.sent
  have hkept := hu.kept _ client message server hrequest hsend
  have hasks : message.asks opPut := by
    rw [MessageT.asks, hmessage.opcode, hmessage.cType]
    exact (by decide : ¬ outOfRange opPut ctEntry ∧ opPut = opPut)
  have hkey : strOrNull (x.meanwhile server.strings) message.key = .ok (some key) := by
    rw [strOrNull_frame fun a ha => hkept a (.inl ha), hmessage.key]
    simp [Fields.noEmpty, nonEmpty, hx.keyNonEmpty]
  have hblock : blockOrNull (x.meanwhile server.strings) message.data =
      .ok ((nonEmpty (some s)).map CStr.block) := by
    rw [blockOrNull_frame fun a ha => hkept a (.inr ha), hdata]
  have hsize : message.dataSize = x.datasize := hmessage.dataSize
  simp [put, hrequest, hsend, hasks, executeTask, newTask, hkey, hblock, hsize, asValue]

theorem put_error (pb : ProtobufC) (hx : x.Proper key block) (hz : 0 ∉ block) (table : TableT) :
    x.put pb table = .error .outOfBounds := by
  obtain ⟨b, hdata, -⟩ := Heap.load_ok hx.entryData
  have hread : strOrNull x.writer.strings x.data = .error .outOfBounds := by
    rw [hdata, strOrNull, strAt, ← hdata, hx.entryData, ok_bind, readStr_error hz, error_bind]
  simp [put, putRequest_some hx, sendRequest, toMessage, dupNonEmpty, hread]

theorem get_arrives (pb : ProtobufC) (hx : x.Proper key block) :
    ∃ request client message server, getRequest x.name = some request ∧
      sendRequest pb x.reader request x.serving x.asked = .ok (client, some message, server) ∧
      message.asks opGet ∧ message.Says server ⟨opGet, ctKey, 0, none, some key, [], []⟩ := by
  obtain ⟨a, -, hname, -⟩ := strAt_ok hx.askedKey
  let request : MessageT := ⟨⟨none⟩, opGet, ctKey, 0, none, x.name, 0, none⟩
  have hrequest : request.Says x.reader ⟨opGet, ctKey, 0, none, some key, [], []⟩ :=
    ⟨rfl, strOrNull_of hx.askedKey, rfl, rfl, rfl, rfl, rfl⟩
  obtain ⟨client, message, server, hsend, hmessage, -⟩ :=
    sendRequest_says pb hrequest ⟨(by decide : IsInt opGet), (by decide : IsInt ctKey),
      (by decide : IsInt 0), rfl⟩ x.serving x.asked
  simp only [Fields.noEmpty, nonEmpty, hx.keyNonEmpty, Option.some.injEq, reduceCtorEq,
    ↓reduceIte] at hmessage
  refine ⟨request, client, message, server, by simp [getRequest, hname, request], hsend, ?_,
    hmessage⟩
  rw [MessageT.asks, hmessage.opcode, hmessage.cType]
  exact (by decide : ¬ outOfRange opGet ctKey ∧ opGet = opGet)

theorem get_none (pb : ProtobufC) (hx : x.Proper key block)
    (hget : tableGet table (some key) x.found = .ok none) :
    x.get pb table = .ok (some ⟨1, some [0]⟩) := by
  obtain ⟨request, client, message, server, hrequest, hsend, hasks, hmessage⟩ := get_arrives pb hx
  let answer : MessageT :=
    { message with opcode := opGet + 1, cType := ctValue, dataSize := 0, data := none }
  have hanswer : answer.Says server ⟨opGet + 1, ctValue, 0, none, some key, [], []⟩ :=
    ⟨rfl, hmessage.key, hmessage.keys, hmessage.unknown, rfl, rfl, rfl⟩
  obtain ⟨server', response, reader, hrun, -, hresponse, -⟩ :=
    transfer_says pb hanswer ⟨(by decide : IsInt (opGet + 1)), (by decide : IsInt ctValue),
      (by decide : IsInt 0), rfl⟩ x.replied client x.received
  have hsize : response.dataSize = 0 := hresponse.dataSize
  simp [get, hrequest, hsend, hasks, invokeGet, hmessage.key, hget, answer, reply, hrun, getResult,
    hsize, dataCreate2, CStr.empty, CStr.block]

theorem get_some (pb : ProtobufC) (hx : x.Proper key block) (he : Stored e)
    (hget : tableGet table (some key) x.found = .ok (some (e.copied x.found))) :
    x.get pb table = answered e x.found x.result := by
  obtain ⟨request, client, message, server, hrequest, hsend, hasks, hmessage⟩ := get_arrives pb hx
  obtain ⟨p, strings, hplace, hg, hload⟩ := placeBlock_spec server.strings x.answer
    (e.bytes ++ (e.image x.found).drop e.datasize.toNat)
  let answer : MessageT :=
    { message with opcode := opGet + 1, cType := ctValue, dataSize := e.datasize, data := p }
  have hkeys : answer.keyStrs ⟨strings, server.arrays⟩ = .ok [] := keyStrs_grows hg hmessage.keys
  have hget : x.get pb table = x.reply pb client ⟨strings, server.arrays⟩ answer := by
    simp [get, hrequest, hsend, hasks, invokeGet, hmessage.key, hget, DataT.copied, hplace, answer]
  rw [hget, reply, answered]
  by_cases hz : 0 ∈ e.bytes ++ (e.image x.found).drop e.datasize.toNat
  · obtain ⟨s, hs⟩ : ∃ s, readStr (e.bytes ++ (e.image x.found).drop e.datasize.toNat) = .ok s :=
      ⟨_, if_pos hz⟩
    have hdata : strAt strings p = .ok s := by rw [strAt, hload, ok_bind, hs]
    have hanswer : answer.Says ⟨strings, server.arrays⟩
        ⟨opGet + 1, ctValue, e.datasize, some s, some key, [], []⟩ :=
      ⟨strOrNull_of hdata, strOrNull_grows hg hmessage.key, hkeys,
        unknown_grows hg hmessage.unknown, rfl, rfl, rfl⟩
    have hfits : IsInt e.datasize := by
      have := he.1.positive
      have := he.2
      simp only [IsInt, intMin, intMax, sizeofDataT] at this ⊢
      omega
    obtain ⟨server', response, reader, hrun, -, hresponse, hblock, -⟩ :=
      transfer_says pb hanswer ⟨(by decide : IsInt (opGet + 1)), (by decide : IsInt ctValue), hfits,
        rfl⟩ x.replied client x.received
    have hsize : response.dataSize = e.datasize := hresponse.dataSize
    have hpos : 0 < e.datasize := he.1.positive
    simp [hrun, hs, getResult, hpos, hblock, hsize, asValue]
  · rw [transfer_error pb hkeys hload hz, readStr_error hz]
    rfl

def Absent (table : TableT) (m : Contents) (key : CStr) : Prop :=
  ¬ (Hashed table.countLists key ∧ (m key).isSome)

theorem get_absent (pb : ProtobufC) (hx : x.Proper key block) (ht : table.Maps m)
    (ha : Absent table m key) : x.get pb table = .ok (some ⟨1, some [0]⟩) := by
  refine get_none pb hx ?_
  by_cases hk : Hashed table.countLists key
  · obtain ⟨value, hget, -, hm⟩ := tableGet_copies ht hk x.found
    cases value with
    | none => exact hget
    | some d => exact absurd ⟨hk, by rw [← hm]; rfl⟩ ha
  · exact tableGet_unhashed ht hk x.found

theorem get_present (pb : ProtobufC) (hx : x.Proper key block) (ht : table.Maps m)
    (hk : Hashed table.countLists key) (hm : m key = some bytes) :
    ∃ e, Stored e ∧ e.bytes = bytes ∧ x.get pb table = answered e x.found x.result := by
  obtain ⟨value, hget, hstored, hvalue⟩ := tableGet_copies ht hk x.found
  rw [hm] at hvalue
  cases value with
  | none => cases hvalue
  | some e =>
    cases hvalue
    exact ⟨e, hstored e rfl, rfl, get_some pb hx (hstored e rfl) hget⟩

theorem run_put (hx : x.Proper key block) (hu : x.Undisturbed pb table key)
    (hput : x.put pb table = .ok table₁) (ht : table₁.Maps m)
    (hn : table₁.countLists = table.countLists) :
    ∃ table₂ m₂, x.run pb table = x.get pb table₂ ∧ table₂.Maps m₂ ∧ m₂ key = m key ∧
      table₂.countLists = table.countLists := by
  have hready : table₁.runReady x.between = true := by
    simpa [hput, Except.toOption] using hu.ready
  obtain ⟨replies, table₂, hrun, -, ht₂, hn₂⟩ := run_maps ht (hn ▸ hu.indexed) hready
  exact ⟨table₂, m.afterAll x.between, by simp [run, hput, hrun], ht₂, afterAll_leaves hx.others,
    hn₂.trans hn⟩

/-- The values that come back: those that carry, under a key that hashes to an
index. Also the single byte 0 for a key that is not there, since `rtable_get`
makes that value up for a missing key. -/
def Passes (x : Exchange) (table : TableT) (m : Contents) (key : CStr) (block : List UInt8) :
    Prop :=
  (∃ s, readStr block = .ok s ∧ Carries s x.datasize.toNat ∧ Hashed table.countLists key) ∨
    (x.datasize = 1 ∧ block.head? = some 0 ∧ Absent table m key)

theorem returns_empty (pb : ProtobufC) (ht : table.Maps m) (hx : x.Proper key block)
    (hu : x.Undisturbed pb table key) (hs : readStr block = .ok .empty) :
    x.Returns pb table (block.take x.datasize.toNat) ↔ x.datasize = 1 ∧ Absent table m key := by
  obtain ⟨rest, hblock⟩ := readStr_ok hs
  have hput : x.put pb table = .ok table := by
    rw [put_eq pb hx hu hs, asValue_empty, tablePut_none]
    rfl
  obtain ⟨table₂, m₂, hrun, ht₂, hm₂, hn₂⟩ := run_put hx hu hput ht rfl
  have habsent : Absent table₂ m₂ key ↔ Absent table m key := by
    rw [Absent, Absent, hn₂, hm₂]
  have hpos := hx.positive
  obtain ⟨n, hn⟩ : ∃ n, x.datasize.toNat = n + 1 := ⟨x.datasize.toNat - 1, by omega⟩
  rw [Returns, hrun]
  by_cases ha : Absent table₂ m₂ key
  · rw [get_absent pb hx ht₂ ha]
    constructor
    · rintro ⟨d, hd, hsize, -⟩
      cases hd
      exact ⟨hsize.symm, habsent.mp ha⟩
    · rintro ⟨hone, -⟩
      refine ⟨_, rfl, hone.symm, ?_⟩
      simp [DataT.bytes, hone, hblock, CStr.empty]
  · obtain ⟨hk, hsome⟩ := not_not.mp ha
    obtain ⟨bytes, hbytes⟩ := Option.isSome_iff_exists.mp hsome
    obtain ⟨e, he, -, hget⟩ := get_present pb hx ht₂ hk hbytes
    rw [hget]
    constructor
    · rintro ⟨d, hd, -, hvalue⟩
      refine absurd ?_ (answered_head he hd)
      rw [hvalue, hblock, hn]
      rfl
    · rintro ⟨-, ha'⟩
      exact absurd (habsent.mpr ha') ha

theorem returns_stored (pb : ProtobufC) (ht : table.Maps m) (hx : x.Proper key block)
    (hk : Hashed table.countLists key) (hr : readStr block = .ok s) (hne : s ≠ .empty)
    (hw : x.datasize.toNat ≤ sizeofDataT ∧ x.datasize.toNat ≤ s.block.length)
    (hm : m key = some (s.block.take x.datasize.toNat)) (hrun : x.run pb table' = x.get pb table) :
    x.Returns pb table' (block.take x.datasize.toNat) ↔ Carries s x.datasize.toNat := by
  have hpos := hx.positive
  have hwhole : x.datasize.toNat ≤ s.bytes.length + 1 := by simpa using hw.2
  obtain ⟨rest, hblock⟩ := readStr_ok hr
  have hvalue : block.take x.datasize.toNat = s.block.take x.datasize.toNat := by
    rw [hblock, take_block s rest hwhole]
  obtain ⟨e, he, hbytes, hget⟩ := get_present pb hx ht hk hm
  have hsize : e.datasize = x.datasize := he.1.datasize_eq (block_valid hpos hwhole) hbytes
  rw [Returns, hrun, hget, hvalue, ← hsize]
  rw [← hsize] at hbytes hwhole hw hpos
  by_cases hend : e.datasize.toNat = sizeofDataT → s.bytes.length < e.datasize.toNat
  · have hc : Carries s e.datasize.toNat := ⟨hne, hwhole, hw.1, hend⟩
    obtain ⟨d, hd, hdsize, hdbytes⟩ := answered_carries hc hpos hbytes x.found x.result
    exact iff_of_true ⟨d, hd, hdsize, hdbytes.trans hbytes⟩ hc
  · obtain ⟨hfull, hlong⟩ := Classical.not_imp.mp hend
    have hz : 0 ∉ e.bytes := by
      rw [hbytes, CStr.block, List.take_append_of_le_length (by omega)]
      exact fun h => s.nulFree (List.mem_of_mem_take h)
    rw [answered_overflows (by omega) hz]
    refine iff_of_false ?_ fun hc => hend hc.ended
    rintro ⟨d, hd, -⟩
    cases hd

theorem returns_nonEmpty (pb : ProtobufC) (ht : table.Maps m) (hx : x.Proper key block)
    (hu : x.Undisturbed pb table key) (hs : readStr block = .ok s) (hne : s ≠ .empty) :
    x.Returns pb table (block.take x.datasize.toNat) ↔
      Carries s x.datasize.toNat ∧ Hashed table.countLists key := by
  have hpos := hx.positive
  have hput := put_eq pb hx hu hs
  rw [asValue_some hpos hne] at hput
  have hfails : ∀ e, x.put pb table = .error e →
      ¬ x.Returns pb table (block.take x.datasize.toNat) := by
    rintro e he ⟨d, hd, -⟩
    rw [run, he] at hd
    cases hd
  by_cases hw : x.datasize.toNat ≤ sizeofDataT ∧ x.datasize.toNat ≤ s.block.length
  · have hv := block_valid (s := s) hpos (by simpa using hw.2)
    have hfit : x.datasize ≤ sizeofDataT := by omega
    by_cases hk : Hashed table.countLists key
    · obtain ⟨table₁, hrun, ht₁, hn₁⟩ := tablePut_maps ht hk hv hfit hu.appendable x.stored
      rw [hrun] at hput
      obtain ⟨table₂, m₂, hget, ht₂, hm₂, hn₂⟩ := run_put hx hu hput ht₁ hn₁
      have hstored : m₂ key = some (s.block.take x.datasize.toNat) := by
        rw [hm₂, Function.update_self]
        rfl
      rw [returns_stored pb ht₂ hx (hn₂ ▸ hk) hs hne hw hstored hget]
      exact (and_iff_left hk).symm
    · have hbucket : ¬ Defined (table.bucketOf key) :=
        fun hd => hk ((bucketOf_defined_iff ht.positive).mp hd)
      obtain ⟨e, he⟩ := not_defined (tablePut_bucket ht.positive hbucket hv hfit x.stored)
      rw [he] at hput
      exact iff_of_false (hfails e hput) fun hc => hk hc.2
  · rw [tablePut_overflows ht hpos hw] at hput
    exact iff_of_false (hfails _ hput) fun hc => hw ⟨hc.1.fits, by simpa using hc.1.whole⟩

theorem value_round_trip (pb : ProtobufC) (ht : table.Maps m) (hx : x.Proper key block)
    (hu : x.Undisturbed pb table key) :
    x.Returns pb table (block.take x.datasize.toNat) ↔ x.Passes table m key block := by
  by_cases hz : 0 ∈ block
  · obtain ⟨s, hs⟩ : ∃ s, readStr block = .ok s := ⟨_, if_pos hz⟩
    obtain ⟨rest, hblock⟩ := readStr_ok hs
    by_cases hne : s = .empty
    · subst hne
      rw [returns_empty pb ht hx hu hs]
      constructor
      · rintro ⟨hone, ha⟩
        exact .inr ⟨hone, by rw [hblock]; rfl, ha⟩
      · rintro (⟨s, hs', hc, -⟩ | ⟨hone, -, ha⟩)
        · rw [hs] at hs'
          cases hs'
          exact absurd rfl hc.nonEmpty
        · exact ⟨hone, ha⟩
    · rw [returns_nonEmpty pb ht hx hu hs hne]
      constructor
      · rintro ⟨hc, hk⟩
        exact .inl ⟨s, hs, hc, hk⟩
      · rintro (⟨s', hs', hc, hk⟩ | ⟨-, hhead, -⟩)
        · rw [hs] at hs'
          cases hs'
          exact ⟨hc, hk⟩
        · obtain ⟨b, bytes, hbytes, hb⟩ := CStr.first_ne_zero hne
          rw [hblock, hbytes] at hhead
          exact absurd (Option.some.inj hhead) hb
  · refine iff_of_false ?_ ?_
    · rintro ⟨d, hd, -⟩
      rw [run, put_error pb hx hz] at hd
      cases hd
    · rintro (⟨s, hs, -⟩ | ⟨-, hhead, -⟩)
      · rw [readStr_error hz] at hs
        cases hs
      · exact hz (List.mem_of_mem_head? hhead)

end Exchange

-- ---------------------------------------------------------------------------
-- Values put under one key of a new table
-- ---------------------------------------------------------------------------

def clientMem (block : List UInt8) : Mem :=
  ⟨(Heap.empty.set 1 (some (charKey 97).block)).set 2 (some block), .empty⟩

def anyTrip : TripMem := ⟨anyMem, mallocTop [], anyMem⟩

def shortExchange (block : List UInt8) (datasize : Int) : Exchange where
  writer := clientMem block
  key := some 1
  datasize := datasize
  data := some 2
  sent := anyTrip
  server := ⟨.empty, .empty⟩
  meanwhile := id
  junk := ⟨0, 0, none, none, none, 0⟩
  number := 0
  stored := nodeAt 1
  between := [.put (charKey 98) (byteValue 1) (nodeAt 2)]
  reader := clientMem block
  name := some 1
  asked := anyTrip
  serving := ⟨.empty, .empty⟩
  found := .zero
  answer := mallocTop []
  replied := mallocTop []
  received := anyMem
  result := .zero

def oneListTable : TableT := ⟨[listCreate], 0, 1, rfl, .empty⟩

theorem oneListTable_maps : oneListTable.Maps noContents := tableCreate_maps (n := 1) rfl

theorem shortExchange_proper (hp : 1 ≤ n) (hn : n.toNat ≤ block.length) (hs : IsInt n) :
    (shortExchange block n).Proper (charKey 97) block := by
  have hkey : strAt (clientMem block).strings (some 1) = .ok (charKey 97) := by
    have hcell : (clientMem block).strings.cell 1 = some (charKey 97).block := rfl
    rw [strAt_some hcell, readStr_block]
  refine ⟨hkey, rfl, hs, hp, hn, by decide, hkey, fun op hop => ?_⟩
  rw [List.mem_singleton.mp hop]
  exact (by decide : charKey 98 ≠ charKey 97)

theorem shortExchange_undisturbed
    (hr : ((shortExchange block n).put protobufWire oneListTable).toOption.all
      (·.runReady (shortExchange block n).between) = true) :
    (shortExchange block n).Undisturbed protobufWire oneListTable (charKey 97) := by
  refine ⟨fun _ _ _ _ _ _ _ _ => rfl, by decide +kernel, fun op hop => ?_, hr⟩
  rw [List.mem_singleton.mp hop]
  exact (by decide +kernel : Hashed 1 (charKey 98) ∧ (byteValue 1).Valid)

theorem value_round_trip_short :
    (shortExchange [1, 2, 3, 0] 3).Returns protobufWire oneListTable [1, 2, 3] :=
  (Exchange.value_round_trip protobufWire oneListTable_maps
    (shortExchange_proper (by decide) (by decide) (by decide))
    (shortExchange_undisturbed (by decide +kernel))).mpr
      (.inl ⟨.ofBytes [1, 2, 3], rfl, ⟨by decide, by decide, by decide, by decide⟩,
        by decide +kernel⟩)

/-- A value that begins with a NUL is lost without an error, and `rtable_get`
makes up the value of a missing key. A value with a NUL inside is read past the
string that arrives, and one that fills the structure past the structure. -/
theorem value_not_returned :
    (shortExchange [0, 5] 2).Proper (charKey 97) [0, 5] ∧
      (shortExchange [0, 5] 2).Undisturbed protobufWire oneListTable (charKey 97) ∧
      ¬ (shortExchange [0, 5] 2).Returns protobufWire oneListTable [0, 5] ∧
      (shortExchange [1, 0, 3] 3).run protobufWire oneListTable = .error .outOfBounds ∧
      (shortExchange (List.replicate 16 7 ++ [0]) 16).run protobufWire oneListTable =
        .error .outOfBounds := by
  refine ⟨shortExchange_proper (by decide) (by decide) (by decide),
    shortExchange_undisturbed (by decide +kernel), ?_, by decide +kernel, by decide +kernel⟩
  rintro ⟨d, hd, hsize, -⟩
  have hlost : (shortExchange [0, 5] 2).run protobufWire oneListTable =
      .ok (some ⟨1, some [0]⟩) := by
    decide +kernel
  rw [hlost] at hd
  cases hd
  exact absurd hsize (by decide)

end HashMapStorage
