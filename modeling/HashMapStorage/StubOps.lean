import HashMapStorage.ClientStub
import HashMapStorage.Copying
import HashMapStorage.Receiving

/-!
# The operations of the stub and the replies (`client_stub.c`)

Six operations make a request, pass it to `network_send_receive` and look at
the response, which is NULL where the connection is lost and else whatever the
server says. Where it is NULL, each of them writes to it.
-/

namespace HashMapStorage

open Machine

structure DataRef where
  datasize : Int
  data : Ptr

structure EntryRef where
  key : Ptr
  value : Option DataRef

/-- The message that `network_send_receive` returns, and the memory it is in. -/
abbrev Response := Option (MessageT × Mem)

-- ---------------------------------------------------------------------------
-- The operations
-- ---------------------------------------------------------------------------

def delRequest (key : Ptr) : Option MessageT :=
  if key = none then none else some ⟨⟨none⟩, opDel, ctKey, 0, none, key, 0, none⟩

def sizeRequest : MessageT := ⟨⟨none⟩, opSize, ctNone, 0, none, none, 0, none⟩

def getKeysRequest : MessageT := ⟨⟨none⟩, opGetkeys, ctNone, 0, none, none, 0, none⟩

def verifyRequest (opN : Int) : MessageT := ⟨⟨none⟩, opVerify, ctNone, opN, none, none, 0, none⟩

def responded (response : Response) (finish : MessageT → Mem → Exec α) : Exec α :=
  match response with
  | none => throw .nullPointer -- `response_message->opcode` is set before the return
  | some (message, mem) => finish message mem

def exchanged (client : Mem) (request : MessageT) (m : MessageMem) (response : Response)
    (failed : α) (finish : MessageT → Mem → Exec (α × Mem)) : Exec (α × Mem) := do
  let (message, client) ← toMessage client (some request) m
  match message with
  | none => pure (failed, client)
  | some _ => responded response finish

def rtablePut (client : Mem) (rtable : Ptr) (entry : Option EntryRef) (m : MessageMem)
    (response : Response) : Exec (Int × Mem) :=
  match rtable, entry with
  | some _, some entry =>
    match entry.value with
    | none => throw .nullPointer
    | some value =>
      match putRequest entry.key value.datasize value.data with
      | none => pure (-1, client)
      | some request => exchanged client request m response (-1) fun message mem => do
        let mem ← freeMessage mem message
        pure (0, mem)
  | _, _ => pure (-1, client)

/-- `printf` prints a NULL string too; the value is copied before the message is
released. -/
def rtableGet (client : Mem) (rtable key : Ptr) (m : MessageMem) (d : DataMem)
    (response : Response) : Exec (Option DataT × Mem) :=
  if rtable = none then pure (none, client)
  else
    match getRequest key with
    | none => pure (none, client)
    | some request => exchanged client request m response none fun message mem => do
      let result ← getResult mem (some message) d
      if message.dataSize > 0 then
        let _ ← strOrNull mem.strings message.data
      let mem ← freeMessage mem message
      pure (result, mem)

/-- The opcode decides what is printed, not what is returned. -/
def rtableDel (client : Mem) (rtable key : Ptr) (m : MessageMem) (response : Response) :
    Exec (Int × Mem) :=
  if rtable = none then pure (-1, client)
  else
    match delRequest key with
    | none => pure (-1, client)
    | some request => exchanged client request m response (-1) fun message mem => do
      let mem ← freeMessage mem message
      pure (0, mem)

def rtableSize (client : Mem) (rtable : Ptr) (m : MessageMem) (response : Response) :
    Exec (Int × Mem) :=
  if rtable = none then pure (-1, client)
  else exchanged client sizeRequest m response (-1) fun message mem => do
    let size := message.dataSize
    let mem ← freeMessage mem message
    pure (size, mem)

/-- The array is the response's; of the response only its own block is released. -/
def rtableGetKeys (client : Mem) (rtable : Ptr) (m : MessageMem) (response : Response) :
    Exec (Ptr × Mem) :=
  if rtable = none then pure (none, client)
  else exchanged client getKeysRequest m response none fun message mem =>
    if message.nKeys = 0 then do
      let mem ← freeMessage mem message
      pure (none, mem)
    else pure (message.keys, mem)

/-- `message_t__free_unpacked` releases the request, which is a variable of the
function. -/
def freeRequest : Exec Unit := throw .dangling

def rtableVerify (client : Mem) (rtable : Ptr) (opN : Int) (m : MessageMem)
    (response : Response) : Exec (Int × Mem) :=
  if rtable = none then pure (-1, client)
  else do
    let request := verifyRequest opN
    let (message, client) ← toMessage client (some request) m
    match message with
    | none =>
      freeRequest
      pure (-1, client)
    | some message =>
      if request.dataSize < 0 then
        let client ← freeMessage client message
        freeRequest
        pure (-1, client)
      else responded response fun message mem => do
        let mem ← freeMessage mem message
        pure (if message.dataSize = 0 then 0 else -1, mem)

-- ---------------------------------------------------------------------------
-- What they return
-- ---------------------------------------------------------------------------

inductive StubOp
  | put (entry : Option EntryRef)
  | get (key : Ptr)
  | del (key : Ptr)
  | size
  | getKeys
  | verify (opN : Int)

inductive StubResult
  | status (n : Int)
  | data (d : Option DataT)
  | keys (array : Ptr)

namespace StubOp

def call (op : StubOp) (client : Mem) (rtable : Ptr) (m : MessageMem) (d : DataMem)
    (response : Response) : Exec (StubResult × Mem) := do
  match op with
  | put entry =>
    let (n, mem) ← rtablePut client rtable entry m response
    pure (.status n, mem)
  | get key =>
    let (data, mem) ← rtableGet client rtable key m d response
    pure (.data data, mem)
  | del key =>
    let (n, mem) ← rtableDel client rtable key m response
    pure (.status n, mem)
  | size =>
    let (n, mem) ← rtableSize client rtable m response
    pure (.status n, mem)
  | getKeys =>
    let (array, mem) ← rtableGetKeys client rtable m response
    pure (.keys array, mem)
  | verify opN =>
    let (n, mem) ← rtableVerify client rtable opN m response
    pure (.status n, mem)

def request : StubOp → Option MessageT
  | put entry => do
    let entry ← entry
    let value ← entry.value
    putRequest entry.key value.datasize value.data
  | get key => getRequest key
  | del key => delRequest key
  | size => some sizeRequest
  | getKeys => some getKeysRequest
  | verify opN => if opN < 0 then none else some (verifyRequest opN)

def failure : StubOp → StubResult
  | put _ | del _ | size | verify _ => .status (-1)
  | get _ => .data none
  | getKeys => .keys none

end StubOp

/-- The value in a reply to a GET: none if the reply is an error or lacks the data
it has the size of, and the empty string if it has no size. -/
def Fields.Found (f : Fields) (data : Option DataT) : Prop :=
  if f.opcode = opError then data = none
  else if f.dataSize ≤ 0 then data = some ⟨1, some CStr.empty.block⟩
  else
    match f.data with
    | none => data = none
    | some string => ∃ copy, data = some copy ∧
        DataT.CopiedTo ⟨f.dataSize, some string.block⟩ copy

/-- The keys in a reply: an array with the NULL, or no array. -/
def Fields.Listed (f : Fields) (array : Ptr) (mem : Mem) : Prop :=
  if f.keys = [] then array = none
  else ∃ slots, ArrayAt mem.arrays array (slots ++ [none]) ∧ strsAt mem.strings slots = .ok f.keys

namespace StubOp

/-- What the header promises of the operation when this is the reply. -/
def Answers : StubOp → Fields → StubResult → Mem → Prop
  | put _, f, result, _ | del _, f, result, _ =>
    result = .status (if f.opcode = opError then -1 else 0)
  | get _, f, result, _ => ∃ data, result = .data data ∧ f.Found data
  | size, f, result, _ => result = .status f.dataSize
  | getKeys, f, result, mem => ∃ array, result = .keys array ∧ f.Listed array mem
  | verify _, f, result, _ => result = .status (if f.dataSize = 0 then 0 else -1)

def Documented (op : StubOp) (rtable : Ptr) (reply : Option Fields) (result : StubResult)
    (mem : Mem) : Prop :=
  match rtable, op.request, reply with
  | some _, some _, some f => op.Answers f result mem
  | _, _, _ => result = op.failure

def Survives (op : StubOp) (client : Mem) (rtable : Ptr) (m : MessageMem) (d : DataMem)
    (response : Response) (reply : Option Fields) : Prop :=
  ∃ result mem', op.call client rtable m d response = .ok (result, mem') ∧
    op.Documented rtable reply result mem'

def Checked : StubOp → Prop
  | put entry => ∀ e ∈ entry, e.value ≠ none
  | verify opN => 0 ≤ opN
  | _ => True

/-- No error for a PUT or a DEL. For a GET, a size without data, or else no error
and a size that neither exceeds the string with its NUL nor 16. -/
def Suits : StubOp → Fields → Prop
  | put _, f | del _, f => f.opcode ≠ opError
  | get _, f => 0 < f.dataSize ∧ f.data = none ∨ f.opcode ≠ opError ∧
      (0 < f.dataSize → ∀ string ∈ f.data,
        f.dataSize ≤ sizeofDataT ∧ f.dataSize ≤ string.bytes.length + 1)
  | _, _ => True

/-- There is no table; or else the arguments are checked, and what they have sent
has a string for its data and a reply that suits. -/
def Safe (op : StubOp) (client : Mem) (rtable : Ptr) (reply : Option Fields) : Prop :=
  rtable = none ∨ op.Checked ∧ ∀ request ∈ op.request,
    (∃ s, strOrNull client.strings request.data = .ok s) ∧ ∃ f, reply = some f ∧ op.Suits f

end StubOp

def Response.Says : Response → Option Fields → Prop
  | none, none => True
  | some (message, mem), some f => ∃ copies, message.Received mem f copies
  | _, _ => False

-- ---------------------------------------------------------------------------
-- The request on its way
-- ---------------------------------------------------------------------------

structure MessageT.Plain (request : MessageT) : Prop where
  unknown : request.base.unknownFields = none
  nKeys : request.nKeys = 0
  keys : request.keys = none

theorem toMessage_made {request : MessageT} (hp : request.Plain)
    (hkey : ∃ s, strOrNull client.strings request.key = .ok s)
    (hdata : ∃ s, strOrNull client.strings request.data = .ok s) (m : MessageMem) :
    ∃ message client', toMessage client (some request) m = .ok (some message, client') := by
  obtain ⟨key, hkey⟩ := hkey
  obtain ⟨data, hdata⟩ := hdata
  have hreply : request.Says client ⟨request.opcode, request.cType, request.dataSize, data, key,
      [], []⟩ :=
    ⟨hdata, hkey, by simp [MessageT.keyStrs, hp.nKeys], by simp [MessageT.unknown, hp.unknown],
      rfl, rfl, rfl⟩
  obtain ⟨message, client', hmade, -⟩ := toMessage_says hreply m
  exact ⟨message, client', hmade⟩

theorem plain_of_ite {c : Prop} [Decidable c] {made : MessageT}
    (h : (if c then none else some made) = some request) (hp : made.Plain) : request.Plain := by
  split at h
  · cases h
  · cases h
    exact hp

theorem request_plain {op : StubOp} (hr : op.request = some request) : request.Plain := by
  cases op with
  | put entry =>
    obtain ⟨entry, -, hr⟩ := Option.bind_eq_some_iff.mp hr
    obtain ⟨value, -, hr⟩ := Option.bind_eq_some_iff.mp hr
    exact plain_of_ite hr ⟨rfl, rfl, rfl⟩
  | get key => exact plain_of_ite hr ⟨rfl, rfl, rfl⟩
  | del key => exact plain_of_ite hr ⟨rfl, rfl, rfl⟩
  | size =>
    cases hr
    exact ⟨rfl, rfl, rfl⟩
  | getKeys =>
    cases hr
    exact ⟨rfl, rfl, rfl⟩
  | verify opN => exact plain_of_ite hr ⟨rfl, rfl, rfl⟩

theorem toMessage_unreadable {request : MessageT}
    (hdata : ¬ ∃ s, strOrNull client.strings request.data = .ok s) (m : MessageMem) :
    ∃ e, toMessage client (some request) m = .error e := by
  cases hs : strOrNull client.strings request.data with
  | ok s => exact absurd ⟨s, hs⟩ hdata
  | error e => exact ⟨e, by simp [toMessage, dupNonEmpty, hs]⟩

/-- An operation that sends a request survives exactly if the request can be made
and the reply suits. -/
theorem survives_iff_suits {op : StubOp} (wrap : α → StubResult)
    (finish : MessageT → Mem → Exec (α × Mem)) (hr : op.request = some request)
    (hc : op.Checked) (hkey : ∃ s, strOrNull client.strings request.key = .ok s)
    (hreply : response.Says reply)
    (hmade : ∀ message client', toMessage client (some request) m = .ok (some message, client') →
      op.call client (some t) m d response = (do
        let (x, mem) ← responded response finish
        pure (wrap x, mem)))
    (hbad : ∀ e, toMessage client (some request) m = .error e →
      op.call client (some t) m d response = .error e)
    (hfinish : ∀ message mem f copies, MessageT.Received mem message f copies →
      ((∃ x mem', finish message mem = .ok (x, mem') ∧ op.Answers f (wrap x) mem') ↔
        op.Suits f)) :
    op.Survives client (some t) m d response reply ↔ op.Safe client (some t) reply := by
  have hsafe : op.Safe client (some t) reply ↔
      (∃ s, strOrNull client.strings request.data = .ok s) ∧ ∃ f, reply = some f ∧ op.Suits f := by
    simp [StubOp.Safe, hr, hc]
  rw [hsafe]
  by_cases hdata : ∃ s, strOrNull client.strings request.data = .ok s
  · obtain ⟨message, client', hmake⟩ := toMessage_made (request_plain hr) hkey hdata m
    rw [StubOp.Survives, hmade message client' hmake]
    cases response with
    | none =>
      cases reply with
      | none => simp [responded]
      | some f => exact hreply.elim
    | some r =>
      cases reply with
      | none => exact hreply.elim
      | some f =>
        obtain ⟨copies, hreceived⟩ := hreply
        have hsuits := hfinish _ _ f copies hreceived
        simp only [hdata, true_and, Option.some.injEq, exists_eq_left', ← hsuits, responded,
          StubOp.Documented, hr]
        rcases finish r.1 r.2 with e | ⟨x, mem'⟩
        · simp
        · simp
  · obtain ⟨e, herr⟩ := toMessage_unreadable hdata m
    rw [StubOp.Survives, hbad e herr]
    simp [hdata]

theorem survives_iff_exchanged {op : StubOp} (wrap : α → StubResult) (failed : α)
    (finish : MessageT → Mem → Exec (α × Mem)) (hr : op.request = some request)
    (hc : op.Checked) (hkey : ∃ s, strOrNull client.strings request.key = .ok s)
    (hreply : response.Says reply)
    (hcall : op.call client (some t) m d response = (do
      let (x, mem) ← exchanged client request m response failed finish
      pure (wrap x, mem)))
    (hfinish : ∀ message mem f copies, MessageT.Received mem message f copies →
      ((∃ x mem', finish message mem = .ok (x, mem') ∧ op.Answers f (wrap x) mem') ↔
        op.Suits f)) :
    op.Survives client (some t) m d response reply ↔ op.Safe client (some t) reply := by
  refine survives_iff_suits wrap finish hr hc hkey hreply ?_ ?_ hfinish
  · intro message client' hmake
    rw [hcall, exchanged, hmake]
    rfl
  · intro e herr
    rw [hcall, exchanged, herr]
    rfl

-- ---------------------------------------------------------------------------
-- What the replies make of them
-- ---------------------------------------------------------------------------

namespace MessageT.Received

variable {mem : Mem} {message : MessageT} {f : Fields}

theorem getResult_sizeless (h : message.Received mem f copies) (hz : f.dataSize ≤ 0) (d : DataMem) :
    getResult mem (some message) d = .ok (some ⟨1, some CStr.empty.block⟩) := by
  have hnot : ¬ message.dataSize > 0 := by
    rw [h.dataSize]
    omega
  simp [getResult, hnot, dataCreate2]

theorem getResult_dup (h : message.Received mem f copies) (hp : 0 < f.dataSize) (d : DataMem) :
    getResult mem (some message) d =
      dataDup (dataCreate2 f.dataSize (f.data.map CStr.block)) d := by
  simp only [getResult, h.data, ok_bind, h.dataSize, gt_iff_lt, if_pos hp]

theorem getResult_found (h : message.Received mem f copies) (d : DataMem) :
    (∃ data, getResult mem (some message) d = .ok data ∧ f.Found data) ↔
      0 < f.dataSize ∧ f.data = none ∨ f.opcode ≠ opError ∧
        (0 < f.dataSize → ∀ string ∈ f.data,
          f.dataSize ≤ sizeofDataT ∧ f.dataSize ≤ string.bytes.length + 1) := by
  by_cases hz : f.dataSize ≤ 0
  · have hnot : ¬ 0 < f.dataSize := by omega
    simp [h.getResult_sizeless hz, Fields.Found, hz, hnot]
  · have hpos : 0 < f.dataSize := by omega
    rw [h.getResult_dup hpos]
    cases hd : f.data with
    | none => simp [dataCreate2, dataDup, Fields.Found, hd, hpos]
    | some string =>
      let value : DataT := ⟨f.dataSize, some string.block⟩
      have hvalue : dataCreate2 f.dataSize (some string.block) = some value := by
        simp [dataCreate2, hz, value]
      rw [Option.map_some, hvalue]
      by_cases hfits : f.dataSize ≤ sizeofDataT ∧ f.dataSize ≤ string.bytes.length + 1
      · have hvalid : value.Valid := ⟨hpos, string.block, rfl, by
          rw [CStr.block_length]
          exact Int.toNat_le.mpr hfits.2⟩
        rw [dataDup_fits hvalid hfits.1 d]
        have hcopied := hvalid.copiedTo d
        by_cases herror : f.opcode = opError
        · simp [Fields.Found, herror]
        · have hfound : f.Found (some (value.copied d)) := by
            rw [Fields.Found, if_neg herror, if_neg hz, hd]
            exact ⟨_, rfl, hcopied⟩
          simp [hfound, herror, hfits]
      · have hover : dataDup (some value) d = .error .outOfBounds :=
          
          dataDup_overflows hpos rfl (by simpa [value, Int.toNat_le] using hfits) d
        simp [hover, hpos, hfits]

theorem keys_nil (h : message.Received mem f copies) : f.keys = [] ↔ message.nKeys = 0 := by
  rw [← List.length_eq_zero_iff, strsAt_length h.keys, List.length_map, h.count]

theorem listed (h : message.Received mem f copies) (hn : message.nKeys ≠ 0) :
    f.Listed message.keys mem := by
  rw [Fields.Listed, if_neg fun hnil => hn (h.keys_nil.mp hnil)]
  rcases h.array with ⟨-, rfl⟩ | harray
  · exact absurd h.count.symm hn
  · exact ⟨copies.map some, harray, h.keys⟩

end MessageT.Received

-- ---------------------------------------------------------------------------
-- The six operations
-- ---------------------------------------------------------------------------

variable {client : Mem} {t : Nat} {response : Response} {reply : Option Fields} {m : MessageMem}
  {d : DataMem}

theorem call_unconnected (op : StubOp) :
    op.call client none m d response = .ok (op.failure, client) := by
  cases op <;> rfl

theorem survives_iff_unsent {op : StubOp}
    (hcall : op.call client (some t) m d response = .ok (op.failure, client))
    (hc : op.Checked) (hr : op.request = none) :
    op.Survives client (some t) m d response reply ↔ op.Safe client (some t) reply := by
  refine iff_of_true ⟨_, _, hcall, ?_⟩ (.inr ⟨hc, by simp [hr]⟩)
  simp [StubOp.Documented, hr]

theorem not_survives {op : StubOp} {rtable : Ptr}
    (hcall : op.call client rtable m d response = .error e) :
    ¬ op.Survives client rtable m d response reply := by
  rintro ⟨result, mem', hok, -⟩
  rw [hcall] at hok
  cases hok

theorem survives_iff_unchecked {op : StubOp}
    (hcall : ∃ e, op.call client (some t) m d response = .error e) (hc : ¬ op.Checked) :
    op.Survives client (some t) m d response reply ↔ op.Safe client (some t) reply := by
  obtain ⟨e, hcall⟩ := hcall
  exact iff_of_false (not_survives hcall) (by simp [StubOp.Safe, hc])

theorem put_survives_iff {entry : Option EntryRef}
    (hkey : ∀ request ∈ (StubOp.put entry).request,
      ∃ s, strOrNull client.strings request.key = .ok s) (hreply : response.Says reply) :
    (StubOp.put entry).Survives client (some t) m d response reply ↔
      (StubOp.put entry).Safe client (some t) reply := by
  rcases entry with - | ⟨key, - | value⟩
  · exact survives_iff_unsent rfl (by simp [StubOp.Checked]) rfl
  · exact survives_iff_unchecked ⟨_, rfl⟩ (by simp [StubOp.Checked])
  have hc : (StubOp.put (some ⟨key, some value⟩)).Checked := by simp [StubOp.Checked]
  cases hr : putRequest key value.datasize value.data with
  | none =>
    refine survives_iff_unsent ?_ hc hr
    simp [StubOp.call, rtablePut, hr, StubOp.failure]
  | some request =>
    refine survives_iff_exchanged .status (-1) (fun message mem => do
      let mem ← freeMessage mem message
      pure (0, mem)) hr hc (hkey request hr) hreply ?_ ?_
    · simp only [StubOp.call, rtablePut, hr]
    · intro message mem f copies hreceived
      obtain ⟨mem', hfree⟩ := hreceived.freed
      simp [hfree, StubOp.Answers, StubOp.Suits]

theorem get_survives_iff {key : Ptr}
    (hkey : ∀ request ∈ getRequest key, ∃ s, strOrNull client.strings request.key = .ok s)
    (hreply : response.Says reply) :
    (StubOp.get key).Survives client (some t) m d response reply ↔
      (StubOp.get key).Safe client (some t) reply := by
  cases hr : getRequest key with
  | none =>
    refine survives_iff_unsent ?_ trivial hr
    simp [StubOp.call, rtableGet, hr, StubOp.failure]
  | some request =>
    refine survives_iff_exchanged .data none (fun message mem => do
      let result ← getResult mem (some message) d
      if message.dataSize > 0 then
        let _ ← strOrNull mem.strings message.data
      let mem ← freeMessage mem message
      pure (result, mem)) hr trivial (hkey request hr) hreply ?_ ?_
    · simp only [StubOp.call, rtableGet, hr, reduceCtorEq, ↓reduceIte]
    · intro message mem f copies hreceived
      obtain ⟨mem', hfree⟩ := hreceived.freed
      have hprint := strOrNull_block hreceived.data
      rw [StubOp.Suits, ← hreceived.getResult_found d]
      cases hresult : getResult mem (some message) d with
      | error e => simp
      | ok result => simp [hprint, hfree, StubOp.Answers]

theorem del_survives_iff {key : Ptr}
    (hkey : ∀ request ∈ delRequest key, ∃ s, strOrNull client.strings request.key = .ok s)
    (hreply : response.Says reply) :
    (StubOp.del key).Survives client (some t) m d response reply ↔
      (StubOp.del key).Safe client (some t) reply := by
  cases hr : delRequest key with
  | none =>
    refine survives_iff_unsent ?_ trivial hr
    simp [StubOp.call, rtableDel, hr, StubOp.failure]
  | some request =>
    refine survives_iff_exchanged .status (-1) (fun message mem => do
      let mem ← freeMessage mem message
      pure (0, mem)) hr trivial (hkey request hr) hreply ?_ ?_
    · simp only [StubOp.call, rtableDel, hr, reduceCtorEq, ↓reduceIte]
    · intro message mem f copies hreceived
      obtain ⟨mem', hfree⟩ := hreceived.freed
      simp [hfree, StubOp.Answers, StubOp.Suits]

theorem size_survives_iff (hreply : response.Says reply) :
    StubOp.size.Survives client (some t) m d response reply ↔
      StubOp.size.Safe client (some t) reply := by
  refine survives_iff_exchanged .status (-1) (fun message mem => do
    let mem ← freeMessage mem message
    pure (message.dataSize, mem)) rfl trivial ⟨none, rfl⟩ hreply rfl ?_
  intro message mem f copies hreceived
  obtain ⟨mem', hfree⟩ := hreceived.freed
  simp [hfree, StubOp.Answers, StubOp.Suits, hreceived.dataSize]

theorem getKeys_survives_iff (hreply : response.Says reply) :
    StubOp.getKeys.Survives client (some t) m d response reply ↔
      StubOp.getKeys.Safe client (some t) reply := by
  refine survives_iff_exchanged .keys none (fun message mem =>
    if message.nKeys = 0 then do
      let mem ← freeMessage mem message
      pure (none, mem)
    else pure (message.keys, mem)) rfl trivial ⟨none, rfl⟩ hreply rfl ?_
  intro message mem f copies hreceived
  obtain ⟨mem', hfree⟩ := hreceived.freed
  by_cases hn : message.nKeys = 0
  · simp [hn, hfree, StubOp.Answers, StubOp.Suits, Fields.Listed, hreceived.keys_nil.mpr hn]
  · simp [hn, StubOp.Answers, StubOp.Suits, hreceived.listed hn]

theorem verify_survives_iff {opN : Int} (hreply : response.Says reply) :
    (StubOp.verify opN).Survives client (some t) m d response reply ↔
      (StubOp.verify opN).Safe client (some t) reply := by
  have hsize : (verifyRequest opN).dataSize = opN := rfl
  have hp : (verifyRequest opN).Plain := ⟨rfl, rfl, rfl⟩
  have hnull : ∃ s, strOrNull client.strings none = .ok s := ⟨none, rfl⟩
  by_cases hneg : opN < 0
  · refine survives_iff_unchecked ?_ (Int.not_le.mpr hneg)
    obtain ⟨message, client', hmake⟩ := toMessage_made hp hnull hnull m
    -- the copy of the request is released first
    cases hfree : freeMessage client' message with
    | error e => exact ⟨e, by simp [StubOp.call, rtableVerify, hmake, hsize, hneg, hfree]⟩
    | ok client'' =>
      exact ⟨.dangling, by simp [StubOp.call, rtableVerify, hmake, hsize, hneg, hfree, freeRequest]⟩
  · have hr : (StubOp.verify opN).request = some (verifyRequest opN) := by
      simp [StubOp.request, hneg]
    have hc : (StubOp.verify opN).Checked := Int.not_lt.mp hneg
    refine survives_iff_suits .status (fun message mem => do
      let mem ← freeMessage mem message
      pure (if message.dataSize = 0 then 0 else -1, mem)) hr hc hnull hreply ?_ ?_ ?_
    · intro message client' hmake
      simp [StubOp.call, rtableVerify, hmake, hsize, hneg]
    · intro e herr
      simp [StubOp.call, rtableVerify, herr]
    · intro message mem f copies hreceived
      obtain ⟨mem', hfree⟩ := hreceived.freed
      simp [hfree, StubOp.Answers, StubOp.Suits, hreceived.dataSize]

/-- Whatever is replied, an operation ends in its documented result exactly if it
is safe. -/
theorem stub_survives_iff (op : StubOp)
    (hkey : ∀ request ∈ op.request, ∃ s, strOrNull client.strings request.key = .ok s)
    (hreply : response.Says reply) (rtable : Ptr) (m : MessageMem) (d : DataMem) :
    op.Survives client rtable m d response reply ↔ op.Safe client rtable reply := by
  cases rtable with
  | none => exact iff_of_true ⟨_, _, call_unconnected op, rfl⟩ (.inl rfl)
  | some t =>
    cases op with
    | put entry => exact put_survives_iff hkey hreply
    | get key => exact get_survives_iff hkey hreply
    | del key => exact del_survives_iff hkey hreply
    | size => exact size_survives_iff hreply
    | getKeys => exact getKeys_survives_iff hreply
    | verify opN => exact verify_survives_iff hreply

def valueMessage (dataSize : Int) : MessageT :=
  ⟨⟨none⟩, opGet + 1, ctValue, dataSize, some 0, none, 0, none⟩

def valueMem : Mem := ⟨Heap.empty.set 0 (some [97, 98, 99, 0]), .empty⟩

def valueFields (dataSize : Int) : Fields :=
  ⟨opGet + 1, ctValue, dataSize, some (.ofBytes [97, 98, 99]), none, [], []⟩

theorem valueMessage_received (dataSize : Int) :
    (valueMessage dataSize).Received valueMem (valueFields dataSize) [] := by
  refine ⟨rfl, ⟨fun a ha => ?_, by simp [valueMessage]⟩, rfl, rfl, .inl ⟨rfl, rfl⟩, rfl, rfl⟩
  have hzero : a = 0 := by simpa [valueMessage] using ha
  exact ⟨[97, 98, 99, 0], by rw [hzero]; rfl⟩

theorem stub_survives_iff_four :
    (StubOp.get (some 0)).Survives shortMem (some 0) anyMem .zero
      (some (valueMessage 4, valueMem)) (some (valueFields 4)) := by
  have hkey : ∀ request ∈ (StubOp.get (some 0)).request,
      ∃ s, strOrNull shortMem.strings request.key = .ok s := by
    intro request hr
    cases hr
    exact ⟨some (.ofBytes [97]), rfl⟩
  have hreply : Response.Says (some (valueMessage 4, valueMem)) (some (valueFields 4)) :=
    ⟨[], valueMessage_received 4⟩
  refine (stub_survives_iff (.get (some 0)) hkey hreply _ _ _).mpr ?_
  refine .inr ⟨trivial, fun request hr => ?_⟩
  cases hr
  exact ⟨⟨none, rfl⟩, _, rfl, .inr ⟨by decide, fun _ string hs => by cases hs; decide⟩⟩

/-- A lost connection, a number below zero, and a size beyond the string replied. -/
theorem stub_faults :
    StubOp.size.call shortMem (some 0) anyMem .zero none = .error .nullPointer ∧
      (StubOp.verify (-1)).call shortMem (some 0) anyMem .zero none = .error .dangling ∧
      (StubOp.get (some 0)).call shortMem (some 0) anyMem .zero
        (some (valueMessage 5, valueMem)) = .error .outOfBounds ∧
      ¬ StubOp.size.Survives shortMem (some 0) anyMem .zero none none := by
  have hsize : StubOp.size.call shortMem (some 0) anyMem .zero none = .error .nullPointer := rfl
  exact ⟨hsize, rfl, rfl, not_survives hsize⟩

end HashMapStorage
