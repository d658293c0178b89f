import HashMapStorage.KeyArrays
import HashMapStorage.MessageBlocks
import HashMapStorage.Remote

/-!
# What the calls of a client leave allocated

The copy of a request is released behind the response, and the response by the
operation. `rtable_get_keys` keeps the array of the response for its caller, who
releases it with `rtable_free_keys`; a string that comes with the keys is lost.
What the client has allocated itself stays as it is.
-/

namespace HashMapStorage

open Machine

/-- `network_send_receive`, where nothing fails and the reply says `f`. -/
def sendReceive (client : Mem) (message : MessageT) (f : Fields) (string : Malloc (List UInt8))
    (m : MessageMem) : Exec (MessageT × Mem) := do
  let (_, client) ← toMessageT client message string
  let (response, client) := placeMessage client f.noEmpty m
  let client ← freeMessage client message
  pure (response, client)

def responseTo (client : Mem) (request : MessageT) (m : MessageMem) (f : Fields)
    (m' : MessageMem) : Exec Response := do
  let (message, client) ← toMessage client (some request) m
  match message with
  | none => pure none
  | some message => do
    let response ← sendReceive client message f m.string m'
    pure (some response)

def rtableFreeKeys (mem : Mem) (keys : Ptr) : Exec Mem :=
  if keys = none then pure mem else listFreeKeys mem keys

def StubResult.release (mem : Mem) : StubResult → Exec Mem
  | .keys array => rtableFreeKeys mem array
  | .status _ | .data _ => pure mem

structure ClientCall where
  op : StubOp
  reply : Fields
  request : MessageMem
  response : MessageMem
  data : DataMem

namespace ClientCall

def run (c : ClientCall) (t : Nat) (client : Mem) : Exec Mem := do
  let response ← match c.op.request with
    | none => pure none
    | some request => responseTo client request c.request c.reply c.response
  let (result, client) ← c.op.call client (some t) c.request c.data response
  result.release client

/-- The strings of the reply that nobody releases. -/
def loses (c : ClientCall) : Nat :=
  match c.op with
  | .getKeys =>
    if c.reply.keys = [] then 0
    else c.reply.noEmpty.data.toList.length + c.reply.noEmpty.key.toList.length
  | _ => 0

def Safe (c : ClientCall) (client : Mem) (t : Nat) : Prop :=
  c.op.Safe client (some t) (some c.reply.noEmpty) ∧
    ∀ request ∈ c.op.request, ∃ s, strOrNull client.strings request.key = .ok s

end ClientCall

inductive StubOp.Disposes (op : StubOp) (message : MessageT) (mem : Mem) :
    StubResult → Mem → Prop
  | released : freeMessage mem message = .ok mem' → (op = .getKeys → message.nKeys = 0) →
      result.release mem' = .ok mem' → Disposes op message mem result mem'
  | kept : op = .getKeys → message.nKeys ≠ 0 → Disposes op message mem (.keys message.keys) mem

variable {strings arrays : Multiset Nat} {client mem mem' : Mem} {message response : MessageT}
  {f : Fields}

-- ---------------------------------------------------------------------------
-- The response
-- ---------------------------------------------------------------------------

structure MessageT.Responds (message : MessageT) (mem : Mem) (f : Fields) (copies : List Nat)
    (strings arrays : Multiset Nat) : Prop where
  beside : message.Beside mem (copies.map some) strings arrays
  received : message.Received mem f copies
  key : strOrNull mem.strings message.key = .ok f.key

theorem placeMessage_array (mem : Mem) (f : Fields) (m : MessageMem) :
    ∃ copies : List Nat, copies.length = (placeMessage mem f m).1.nKeys ∧
      strsAt (placeMessage mem f m).2.strings (copies.map some) = .ok f.keys ∧
      ((placeMessage mem f m).1.keys = none ∧ copies = [] ∨
        ArrayAt (placeMessage mem f m).2.arrays (placeMessage mem f m).1.keys
          (copies.map some ++ [none])) := by
  unfold placeMessage
  dsimp only
  split
  · rename_i hnil
    exact ⟨[], rfl, by rw [hnil]; rfl, .inl ⟨rfl, rfl⟩⟩
  · obtain ⟨copies, hcopies⟩ := newStrs_some m.string
      (placeStr (placeStr mem.strings m.string f.data).2 m.string f.key).2 f.keys
    obtain ⟨-, hread⟩ := newStrs_spec m.string
      (placeStr (placeStr mem.strings m.string f.data).2 m.string f.key).2 f.keys
    rw [hcopies] at hread
    refine ⟨copies, ?_, hread, .inr ⟨_, rfl, ?_⟩⟩
    · rw [strsAt_length hread, List.length_map]
    · rw [hcopies]
      exact Heap.set_cell ..

theorem MessageT.Beside.has (hm : message.Beside mem (copies.map some) strings arrays) :
    mem.strings.Has (message.data.toList ++ (message.key.toList ++ copies)) := by
  have hstrings := hm.strings
  rw [blocksOf_some, ← add_assoc, ← add_assoc] at hstrings
  rw [← List.append_assoc]
  exact hstrings.has

theorem placeMessage_responds (hs : Blocks mem.strings strings) (ha : Blocks mem.arrays arrays)
    (f : Fields) (m : MessageMem) : ∃ copies,
      (placeMessage mem f m).1.Responds (placeMessage mem f m).2 f copies strings arrays := by
  obtain ⟨ps, hbeside, -⟩ := placeMessage_beside hs ha f m
  obtain ⟨copies, hcount, hread, harray⟩ := placeMessage_array mem f m
  obtain ⟨-, -, -, hkey, hop, hsize⟩ := placeMessage_spec mem f m
  obtain ⟨-, hdata, -⟩ := placeMessage_holds mem f m
  obtain rfl : ps = copies.map some := by
    rcases hbeside.keys with ⟨hnull, rfl⟩ | ⟨hcount', hlen, rest, hslots⟩
    · rcases harray with ⟨-, rfl⟩ | ⟨a, ha, -⟩
      · rfl
      · rw [hnull] at ha
        cases ha
    · rcases harray with ⟨-, rfl⟩ | harray
      · exact absurd hcount.symm hcount'
      · exact List.append_inj_left (hslots.unique harray) (by simp [hlen, hcount])
  exact ⟨copies, hbeside, ⟨hdata, hbeside.has, hread, hcount, harray, hop, hsize⟩, hkey⟩

theorem freeMessage_keyless (hk : message.keys = none)
    (hs : mem.strings.Has (message.data.toList ++ message.key.toList)) :
    ∃ mem', freeMessage mem message = .ok mem' ∧ mem'.arrays = mem.arrays ∧
      ∀ a, mem'.strings.cell a =
        if a ∈ message.data.toList ++ message.key.toList then none else mem.strings.cell a := by
  rw [← List.append_nil message.key.toList] at hs
  obtain ⟨strings₁, hdata, hs₁⟩ := hs.free
  obtain ⟨strings₂, hkey, -⟩ := hs₁.free
  refine ⟨{ mem with strings := strings₂ }, ?_, rfl, fun a => ?_⟩
  · rw [freeMessage, hdata, ok_bind, hkey, ok_bind, if_neg (by simp [hk])]
    rfl
  · dsimp only
    rw [Heap.free_cell hkey, Heap.free_cell hdata]
    by_cases hd : message.data = some a <;> by_cases hk : message.key = some a <;> simp [hd, hk]

theorem MessageT.Responds.freeRequest (hk : message.keys = none)
    (hr : response.Responds mem f copies (message.data.block + (message.key.block + strings))
      arrays) :
    ∃ mem', freeMessage mem message = .ok mem' ∧ response.Responds mem' f copies strings arrays ∧
      Heap.Grows mem'.strings mem.strings := by
  obtain ⟨⟨hstrings, harrays, hkeys⟩, hreceived, hkey⟩ := hr
  have horder : response.data.block + (response.key.block + (blocksOf (copies.map some) +
        (message.data.block + (message.key.block + strings)))) =
      ((message.data.toList ++ message.key.toList : List Nat) : Multiset Nat) +
        (response.data.block + (response.key.block + (blocksOf (copies.map some) + strings))) := by
    rw [← Multiset.coe_add]
    simp only [Ptr.block]
    ac_rfl
  rw [horder] at hstrings
  obtain ⟨mem', hfree, hsame, hcells⟩ := freeMessage_keyless hk hstrings.has
  have hbeside : response.Beside mem' (copies.map some) strings arrays := by
    refine ⟨hstrings.released hcells, ?_, ?_⟩
    · rwa [hsame]
    · rwa [hsame]
  have hframe : ∀ a ∈ response.data.toList ++ (response.key.toList ++ copies),
      mem'.strings.cell a = mem.strings.cell a := by
    intro a ha
    obtain ⟨v, hv⟩ := hbeside.has.allocated a ha
    rw [hcells a] at hv ⊢
    split at hv
    · cases hv
    · rename_i hnot
      rw [if_neg hnot]
  have harray : ∀ a, response.keys = some a → mem'.arrays.cell a = mem.arrays.cell a :=
    fun _ _ => by rw [hsame]
  refine ⟨mem', hfree, ⟨hbeside, hreceived.frame hframe harray, ?_⟩, released_thins hcells⟩
  rw [strOrNull_frame fun a hp => hframe a (by simp [hp]), hkey]

theorem toMessage_beside {request : MessageT} (hp : request.Plain)
    (hs : Blocks client.strings strings) (ha : Blocks client.arrays arrays)
    (h : toMessage client (some request) m = .ok (some message, client')) :
    message.keys = none ∧ client.strings.Grows client'.strings ∧
      Blocks client'.strings (message.data.block + (message.key.block + strings)) ∧
      Blocks client'.arrays arrays := by
  obtain ⟨⟨data, strings₁⟩, hdata, h⟩ := seq_ok h
  obtain ⟨⟨key, strings₂⟩, hkey, h⟩ := seq_ok h
  simp only [hp.keys, hp.nKeys, ne_eq, not_true_eq_false, ↓reduceIte] at h
  cases h
  have hgrows := (dupNonEmpty_gains hdata).grows.trans (dupNonEmpty_gains hkey).grows
  have hblocks := dupNonEmpty_blocks (dupNonEmpty_blocks hs hdata) hkey
  rw [add_left_comm] at hblocks
  exact ⟨rfl, hgrows, hblocks, ha⟩

theorem responseTo_responds {request : MessageT} (hp : request.Plain)
    (hs : Blocks client.strings strings) (ha : Blocks client.arrays arrays)
    (hkey : ∃ s, strOrNull client.strings request.key = .ok s)
    (hdata : ∃ s, strOrNull client.strings request.data = .ok s) (m : MessageMem) (f : Fields)
    (m' : MessageMem) : ∃ message mem copies,
      responseTo client request m f m' = .ok (some (message, mem)) ∧
      message.Responds mem f.noEmpty copies strings arrays ∧
      client.strings.Grows mem.strings := by
  obtain ⟨message, client₁, hmade⟩ := toMessage_made hp hkey hdata m
  obtain ⟨hkeys, hgrows, hstrings, harrays⟩ := toMessage_beside hp hs ha hmade
  obtain ⟨copies, hplaced⟩ := placeMessage_responds hstrings harrays f.noEmpty m'
  obtain ⟨hplacedGrows, -⟩ := placeMessage_spec client₁ f.noEmpty m'
  obtain ⟨mem, hfree, hresponds, hthins⟩ := hplaced.freeRequest hkeys
  refine ⟨_, mem, copies, ?_, hresponds, ?_⟩
  · have hsent : toMessageT client₁ message m.string = .ok (message, client₁) := by
      rw [toMessageT, if_neg (by simp [hkeys])]
      rfl
    rw [responseTo, hmade, ok_bind]
    dsimp only
    rw [sendReceive, hsent, ok_bind]
    dsimp only
    rw [hfree]
    rfl
  · have hbeside := hresponds.beside.strings
    rw [← add_assoc, ← add_assoc] at hbeside
    exact hs.grows hbeside (hgrows.trans hplacedGrows) hthins

-- ---------------------------------------------------------------------------
-- The array of keys
-- ---------------------------------------------------------------------------

theorem MessageT.Responds.freeKeys (hr : message.Responds mem f copies strings arrays)
    (hn : message.nKeys ≠ 0) : ∃ mem', rtableFreeKeys mem message.keys = .ok mem' ∧
      Blocks mem'.strings (message.data.block + message.key.block + strings) ∧
      Blocks mem'.arrays arrays ∧ Heap.Grows mem'.strings mem.strings := by
  obtain ⟨⟨hstrings, harrays, -⟩, hreceived, -⟩ := hr
  obtain ⟨a, ha, hcell⟩ : ArrayAt mem.arrays message.keys (copies.map some ++ [none]) := by
    rcases hreceived.array with ⟨-, rfl⟩ | harray
    · exact absurd hreceived.count.symm hn
    · exact harray
  have horder : message.data.block + (message.key.block +
        (blocksOf (copies.map some) + strings)) =
      (copies : Multiset Nat) + (message.data.block + message.key.block + strings) := by
    rw [blocksOf_some]
    ac_rfl
  rw [horder] at hstrings
  have hcell₀ : mem.arrays.cell a = some ([] ++ copies.map some ++ [none]) := hcell
  have hempty : ([] : List Ptr).length = 0 := rfl
  have hfuel : copies.length < (copies.map some ++ [none]).length + 1 := by
    simp only [List.length_append, List.length_map]
    omega
  obtain ⟨strings', hrun, hcells⟩ :=
    freeKeysUntilNull_copies hstrings.has hcell₀ hempty hfuel
  have hfree : mem.arrays.free message.keys = .ok (mem.arrays.set a none) := by
    rw [ha]
    exact Heap.free_some hcell
  refine ⟨⟨strings', mem.arrays.set a none⟩, ?_, hstrings.released hcells,
    harrays.free hfree, released_thins hcells⟩
  rw [ha, rtableFreeKeys, if_neg (Option.some_ne_none a), listFreeKeys, Heap.load_some hcell,
    ok_bind, hrun, ok_bind, Heap.free_some hcell]
  rfl

theorem strOrNull_card {h : Strings} (hs : strOrNull h p = .ok s) :
    p.block.card = s.toList.length := by
  cases p with
  | none =>
    cases hs
    rfl
  | some a =>
    obtain ⟨t, -, hs⟩ := seq_ok hs
    cases hs
    rfl

-- ---------------------------------------------------------------------------
-- The operations
-- ---------------------------------------------------------------------------

section

variable {result : StubResult} {m : MessageMem} {d : DataMem}

theorem toMessage_some {request : MessageT} {p : Option MessageT}
    (h : toMessage client (some request) m = .ok (p, client')) : p.isSome := by
  obtain ⟨⟨data, strings₁⟩, -, h⟩ := seq_ok h
  obtain ⟨⟨key, strings₂⟩, -, h⟩ := seq_ok h
  dsimp only at h
  split at h
  · obtain ⟨mem₁, -, h⟩ := seq_ok h
    obtain ⟨arrays, -, h⟩ := seq_ok h
    cases h
    rfl
  · cases h
    rfl

theorem exchanged_finish {request : MessageT} {failed x : α}
    {finish : MessageT → Mem → Exec (α × Mem)}
    (h : exchanged client request m (some (message, mem)) failed finish = .ok (x, mem')) :
    finish message mem = .ok (x, mem') := by
  obtain ⟨⟨p, client'⟩, hmake, h⟩ := seq_ok h
  obtain ⟨sent, rfl⟩ := Option.isSome_iff_exists.mp (toMessage_some hmake)
  exact h

theorem put_disposes {entry : Option EntryRef} (hr : (StubOp.put entry).request = some request)
    (h : (StubOp.put entry).call client (some t) m d (some (message, mem)) = .ok (result, mem')) :
    (StubOp.put entry).Disposes message mem result mem' := by
  obtain ⟨entry, rfl, hr⟩ := Option.bind_eq_some_iff.mp hr
  obtain ⟨value, hvalue, hr⟩ := Option.bind_eq_some_iff.mp hr
  obtain ⟨⟨n, mem₁⟩, hcall, h⟩ := seq_ok h
  cases h
  simp only [rtablePut, hvalue, hr] at hcall
  obtain ⟨mem₂, hfree, hcall⟩ := seq_ok (exchanged_finish hcall)
  cases hcall
  exact .released hfree (fun h => by cases h) rfl

theorem get_disposes (hr : (StubOp.get key).request = some request)
    (h : (StubOp.get key).call client (some t) m d (some (message, mem)) = .ok (result, mem')) :
    (StubOp.get key).Disposes message mem result mem' := by
  obtain ⟨⟨data, mem₁⟩, hcall, h⟩ := seq_ok h
  cases h
  have hr : getRequest key = some request := hr
  simp only [rtableGet, reduceCtorEq, ↓reduceIte, hr] at hcall
  obtain ⟨data', -, hcall⟩ := seq_ok (exchanged_finish hcall)
  have hrest : (do
      let mem ← freeMessage mem message
      pure (data', mem)) = .ok (data, mem') := by
    split at hcall
    · obtain ⟨-, -, hcall⟩ := seq_ok hcall
      exact hcall
    · exact hcall
  obtain ⟨mem₂, hfree, hrest⟩ := seq_ok hrest
  cases hrest
  exact .released hfree (fun h => by cases h) rfl

theorem del_disposes (hr : (StubOp.del key).request = some request)
    (h : (StubOp.del key).call client (some t) m d (some (message, mem)) = .ok (result, mem')) :
    (StubOp.del key).Disposes message mem result mem' := by
  obtain ⟨⟨n, mem₁⟩, hcall, h⟩ := seq_ok h
  cases h
  have hr : delRequest key = some request := hr
  simp only [rtableDel, reduceCtorEq, ↓reduceIte, hr] at hcall
  obtain ⟨mem₂, hfree, hcall⟩ := seq_ok (exchanged_finish hcall)
  cases hcall
  exact .released hfree (fun h => by cases h) rfl

theorem size_disposes
    (h : StubOp.size.call client (some t) m d (some (message, mem)) = .ok (result, mem')) :
    StubOp.size.Disposes message mem result mem' := by
  obtain ⟨⟨n, mem₁⟩, hcall, h⟩ := seq_ok h
  cases h
  obtain ⟨mem₂, hfree, hcall⟩ := seq_ok (exchanged_finish hcall)
  cases hcall
  exact .released hfree (fun h => by cases h) rfl

theorem getKeys_disposes
    (h : StubOp.getKeys.call client (some t) m d (some (message, mem)) = .ok (result, mem')) :
    StubOp.getKeys.Disposes message mem result mem' := by
  obtain ⟨⟨array, mem₁⟩, hcall, h⟩ := seq_ok h
  cases h
  have hcall := exchanged_finish hcall
  split at hcall
  · rename_i hzero
    obtain ⟨mem₂, hfree, hcall⟩ := seq_ok hcall
    cases hcall
    exact .released hfree (fun _ => hzero) rfl
  · rename_i hsome
    cases hcall
    exact .kept rfl hsome

theorem verify_disposes
    (h : (StubOp.verify opN).call client (some t) m d (some (message, mem)) =
      .ok (result, mem')) : (StubOp.verify opN).Disposes message mem result mem' := by
  obtain ⟨⟨n, mem₁⟩, hcall, h⟩ := seq_ok h
  cases h
  obtain ⟨⟨p, client'⟩, hmake, hcall⟩ := seq_ok hcall
  obtain ⟨sent, rfl⟩ := Option.isSome_iff_exists.mp (toMessage_some hmake)
  dsimp only at hcall
  split at hcall
  · obtain ⟨client'', -, hcall⟩ := seq_ok hcall
    cases hcall
  · obtain ⟨mem₂, hfree, hcall⟩ := seq_ok hcall
    cases hcall
    exact .released hfree (fun h => by cases h) rfl

theorem StubOp.disposes {op : StubOp} {request : MessageT} (hr : op.request = some request)
    (h : op.call client (some t) m d (some (message, mem)) = .ok (result, mem')) :
    op.Disposes message mem result mem' := by
  cases op with
  | put entry => exact put_disposes hr h
  | get key => exact get_disposes hr h
  | del key => exact del_disposes hr h
  | size => exact size_disposes h
  | getKeys => exact getKeys_disposes h
  | verify opN => exact verify_disposes h

theorem StubOp.unsent {op : StubOp} {response : Response} (hr : op.request = none)
    (h : op.call client (some t) m d response = .ok (result, mem')) :
    mem' = client ∧ result.release client = .ok client ∧ op ≠ .getKeys := by
  cases op with
  | put entry =>
    rcases entry with - | ⟨key, - | value⟩
    · cases h
      exact ⟨rfl, rfl, by simp⟩
    · cases h
    · have hr : putRequest key value.datasize value.data = none := hr
      simp only [StubOp.call, rtablePut, hr] at h
      cases h
      exact ⟨rfl, rfl, by simp⟩
  | get key =>
    have hr : getRequest key = none := hr
    simp only [StubOp.call, rtableGet, reduceCtorEq, ↓reduceIte, hr] at h
    cases h
    exact ⟨rfl, rfl, by simp⟩
  | del key =>
    have hr : delRequest key = none := hr
    simp only [StubOp.call, rtableDel, reduceCtorEq, ↓reduceIte, hr] at h
    cases h
    exact ⟨rfl, rfl, by simp⟩
  | size => cases hr
  | getKeys => cases hr
  | verify opN =>
    obtain ⟨⟨n, mem₁⟩, hcall, -⟩ := seq_ok h
    obtain ⟨⟨p, client'⟩, hmake, hcall⟩ := seq_ok hcall
    obtain ⟨sent, rfl⟩ := Option.isSome_iff_exists.mp (toMessage_some hmake)
    have hneg : (verifyRequest opN).dataSize < 0 := by
      by_contra hpos
      have hpos : ¬ opN < 0 := hpos
      rw [StubOp.request, if_neg hpos] at hr
      cases hr
    simp only [if_pos hneg] at hcall
    obtain ⟨client'', -, hcall⟩ := seq_ok hcall
    cases hcall

end

-- ---------------------------------------------------------------------------
-- One call after another
-- ---------------------------------------------------------------------------

namespace ClientCall

variable {c : ClientCall}

theorem loses_other (h : c.op ≠ .getKeys) : c.loses = 0 := by
  unfold loses
  split
  · rename_i hkeys
    exact absurd hkeys h
  · rfl

theorem run_unsent (hc : c.Safe client t) (hr : c.op.request = none) :
    c.run t client = .ok client ∧ c.loses = 0 := by
  obtain ⟨hsafe, hkey⟩ := hc
  have hchecked : c.op.Checked := (hsafe.resolve_left (Option.some_ne_none t)).1
  have hnothing : c.op.Safe client (some t) none := .inr ⟨hchecked, by simp [hr]⟩
  have hnull : Response.Says none none := trivial
  obtain ⟨result, mem', hcall, -⟩ :=
    survives_connected c.op hkey hnull hnothing c.request c.data
  obtain ⟨rfl, hrelease, hother⟩ := StubOp.unsent hr hcall
  refine ⟨?_, loses_other hother⟩
  rw [run, hr]
  dsimp only
  rw [pure_eq_ok, ok_bind, hcall, ok_bind, hrelease]

theorem run_safe (hs : Blocks client.strings strings) (ha : Blocks client.arrays arrays)
    (hc : c.Safe client t) : ∃ mem' lost, c.run t client = .ok mem' ∧
      Blocks mem'.strings (lost + strings) ∧ Blocks mem'.arrays arrays ∧
      client.strings.Grows mem'.strings ∧ lost.card = c.loses := by
  cases hr : c.op.request with
  | none =>
    obtain ⟨hrun, hloses⟩ := run_unsent hc hr
    exact ⟨client, 0, hrun, by rwa [zero_add], ha, .refl _, hloses.symm⟩
  | some request =>
    obtain ⟨hsafe, hkey⟩ := hc
    obtain ⟨-, hsuits⟩ := hsafe.resolve_left (Option.some_ne_none t)
    obtain ⟨message, mem, copies, hsent, hresponds, hgrows⟩ := responseTo_responds
      (request_plain hr) hs ha (hkey request hr) (hsuits request hr).1 c.request c.reply c.response
    have hsays : Response.Says (some (message, mem)) (some c.reply.noEmpty) :=
      ⟨copies, hresponds.received⟩
    obtain ⟨result, mem', hcall, -⟩ := survives_connected c.op hkey hsays hsafe c.request c.data
    have hrun : c.run t client = result.release mem' := by
      rw [run, hr]
      dsimp only
      rw [hsent, ok_bind, hcall, ok_bind]
    have hkeys : message.nKeys = 0 ↔ c.reply.keys = [] := hresponds.received.keys_nil.symm
    cases StubOp.disposes hr hcall with
    | released hfree hempty hrelease =>
      obtain ⟨hstrings, harrays⟩ := hresponds.beside.freeMessage hfree
      have hstrings : Blocks mem'.strings (0 + strings) := by rwa [zero_add]
      refine ⟨mem', 0, hrun.trans hrelease, hstrings, harrays,
        hs.grows hstrings hgrows (freeMessage_thins hfree), ?_⟩
      by_cases hop : c.op = .getKeys
      · simp only [loses, hop, if_pos (hkeys.mp (hempty hop)), Multiset.card_zero]
      · rw [loses_other hop, Multiset.card_zero]
    | kept hop hcount =>
      obtain ⟨mem'', hrelease, hstrings, harrays, hthins⟩ := hresponds.freeKeys hcount
      refine ⟨mem'', _, hrun.trans hrelease, hstrings, harrays,
        hs.grows hstrings hgrows hthins, ?_⟩
      have hne : c.reply.keys ≠ [] := fun hnil => hcount (hkeys.mpr hnil)
      rw [Multiset.card_add, strOrNull_card hresponds.key,
        strOrNull_card (strOrNull_block hresponds.received.data)]
      simp only [loses, hop, if_neg hne]

theorem Safe.grows (hc : c.Safe client t) (hg : client.strings.Grows mem'.strings) :
    c.Safe mem' t := by
  obtain ⟨hsafe, hkey⟩ := hc
  obtain ⟨hchecked, hsuits⟩ := hsafe.resolve_left (Option.some_ne_none t)
  refine ⟨.inr ⟨hchecked, fun request hr => ?_⟩, fun request hr => ?_⟩
  · obtain ⟨⟨s, hs⟩, hreply⟩ := hsuits request hr
    exact ⟨⟨s, strOrNull_grows hg hs⟩, hreply⟩
  · obtain ⟨s, hs⟩ := hkey request hr
    exact ⟨s, strOrNull_grows hg hs⟩

end ClientCall

def runCalls (t : Nat) (client : Mem) : List ClientCall → Exec Mem
  | [] => pure client
  | c :: calls => do
    let client ← c.run t client
    runCalls t client calls

/-- However many calls a client makes, if they are safe on its own strings: none
faults, its strings are unchanged, and all that is allocated besides is what has
come with the keys of a GETKEYS and is not a key. -/
theorem client_footprint {calls : List ClientCall} (hs : Blocks client.strings strings)
    (ha : Blocks client.arrays arrays) (hc : ∀ c ∈ calls, c.Safe client t) :
    ∃ mem' lost, runCalls t client calls = .ok mem' ∧ Blocks mem'.strings (lost + strings) ∧
      Blocks mem'.arrays arrays ∧ client.strings.Grows mem'.strings ∧
      lost.card = (calls.map ClientCall.loses).sum := by
  induction calls generalizing client strings with
  | nil => exact ⟨client, 0, rfl, by rwa [zero_add], ha, .refl _, rfl⟩
  | cons c calls ih =>
    obtain ⟨hfirst, hrest⟩ := List.forall_mem_cons.mp hc
    obtain ⟨mem₁, lost, hrun, hstrings, harrays, hgrows, hlost⟩ := ClientCall.run_safe hs ha hfirst
    obtain ⟨mem', lost', hruns, hstrings', harrays', hgrows', hlost'⟩ :=
      ih hstrings harrays fun c hc => (hrest c hc).grows hgrows
    refine ⟨mem', lost' + lost, ?_, ?_, harrays', hgrows.trans hgrows', ?_⟩
    · rw [runCalls, hrun, ok_bind, hruns]
    · rwa [add_assoc]
    · rw [Multiset.card_add, hlost, hlost', List.map_cons, List.sum_cons, Nat.add_comm]

def putReply : Fields := ⟨opPut + 1, ctResult, 0, none, none, [], []⟩

def keysReply : Fields := ⟨opGetkeys + 1, ctKeys, 0, none, none, [.ofBytes [97]], []⟩

def threeCalls : List ClientCall :=
  [⟨.put (some ⟨some 0, some ⟨2, some 0⟩⟩), putReply, anyMem, anyMem, .zero⟩,
    ⟨.get (some 0), getReply, anyMem, anyMem, .zero⟩,
    ⟨.getKeys, keysReply, anyMem, anyMem, .zero⟩]

theorem threeCalls_safe : ∀ c ∈ threeCalls, c.Safe shortMem 0 := by
  intro c hc
  simp only [threeCalls, List.mem_cons, List.not_mem_nil, or_false] at hc
  rcases hc with rfl | rfl | rfl
  · refine ⟨.inr ⟨by simp [StubOp.Checked], ?_⟩, ?_⟩ <;> intro request hr <;> cases hr
    · have hreply : putReply.noEmpty.opcode ≠ opError := by decide
      exact ⟨⟨_, rfl⟩, _, rfl, hreply⟩
    · exact ⟨_, rfl⟩
  · refine ⟨.inr ⟨trivial, ?_⟩, ?_⟩ <;> intro request hr <;> cases hr
    · refine ⟨⟨_, rfl⟩, _, rfl, .inr ⟨by decide, fun _ string hs => ?_⟩⟩
      cases hs
      decide
    · exact ⟨_, rfl⟩
  · refine ⟨.inr ⟨trivial, ?_⟩, ?_⟩ <;> intro request hr <;> cases hr
    · exact ⟨⟨_, rfl⟩, _, rfl, trivial⟩
    · exact ⟨_, rfl⟩

theorem client_footprint_three : ∃ mem', runCalls 0 shortMem threeCalls = .ok mem' ∧
    Blocks mem'.strings {0} ∧ Blocks mem'.arrays 0 ∧ mem'.strings.cell 0 = some [97, 0] := by
  have hs : Blocks shortMem.strings ({0} + 0) := Blocks.empty.alloc rfl _
  obtain ⟨mem', lost, hrun, hstrings, harrays, hgrows, hlost⟩ :=
    client_footprint hs Blocks.empty threeCalls_safe
  obtain rfl : lost = 0 := Multiset.card_eq_zero.mp hlost
  exact ⟨mem', hrun, by simpa using hstrings, harrays, hgrows 0 _ rfl⟩

end HashMapStorage
