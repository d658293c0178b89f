import HashMapStorage.Machine.Ledger
import HashMapStorage.Machine.Text

/-!
# Connecting to a server (`rtable_connect`, `rtable_disconnect`)

The handles of a client and its sockets. `rtable_connect` takes the address
apart in place and copies the two words into buffers of 20 bytes. What the
system answers, and which descriptor it gives, is part of the call; a socket is
the address it has been connected to.
-/

namespace HashMapStorage

open Machine

structure SockaddrIn where
  sinPort : List UInt8
  sinAddr : List UInt8
  deriving DecidableEq

structure RtableT where
  server : SockaddrIn
  sockfd : Nat
  deriving DecidableEq

structure Handles where
  strings : Strings
  rtables : Heap RtableT
  sockets : Heap (Option SockaddrIn)

/-- What `malloc`, `socket`, `inet_pton` and `connect` do in a call; `none` where
`malloc` returns NULL. `fill` is what the buffers hold at first. -/
structure ConnectCalls where
  rtable : Option (Malloc RtableT)
  hostname : Option (Malloc (List UInt8))
  port : Option (Malloc (List UInt8))
  fill : Nat → UInt8
  socket : Option (Malloc (Option SockaddrIn))
  inetPton : CStr → Option (List UInt8)
  connected : Bool

def colon : List UInt8 := [58]

def htons (hostshort : Int) : List UInt8 := (natBytes 2 (hostshort % 2 ^ 16).toNat).reverse

/-- `malloc(20)`, the result of which is not looked at. -/
def mallocBuffer (strings : Strings) (fill : Nat → UInt8) :
    Option (Malloc (List UInt8)) → Ptr × Strings
  | none => (none, strings)
  | some m =>
    let (buffer, strings) := strings.place m ((List.range 20).map fill)
    (some buffer, strings)

def copyWord (strings : Strings) (address_port : Ptr) (save : Nat) (dest : Ptr) :
    Exec (Strings × Nat) := do
  let block ← strings.load address_port
  let (ptr, block, save) ← strtok colon block save
  let strings ← strings.store address_port block
  match ptr with
  | none => throw .nullPointer
  | some start => do
    let word ← readStr (block.drop start)
    let buffer ← strings.load dest
    let buffer ← strcpy buffer word
    let strings ← strings.store dest buffer
    pure (strings, save)

def copyAddress (strings : Strings) (address_port hostname port : Ptr) :
    Exec Strings := do
  let (strings, save) ← copyWord strings address_port 0 hostname
  let (strings, _) ← copyWord strings address_port save port
  pure strings

namespace Handles

def networkConnect (c : Handles) (rtable : Ptr) (connected : Bool) : Exec (Int × Handles) :=
  if rtable = none then pure (-1, c)
  else do
    let r ← c.rtables.load rtable
    if connected then
      pure (0, { c with sockets := c.sockets.set r.sockfd (some (some r.server)) })
    else pure (-1, { c with sockets := c.sockets.set r.sockfd none })

def networkClose (c : Handles) (rtable : Ptr) : Exec (Int × Handles) :=
  if rtable = none then pure (-1, c)
  else do
    let r ← c.rtables.load rtable
    pure (0, { c with sockets := c.sockets.set r.sockfd none })

def freeBuffers (c : Handles) (hostname port : Ptr) : Exec Handles := do
  let strings ← c.strings.free port
  let strings ← strings.free hostname
  pure { c with strings }

def abandon (c : Handles) (rtable : Nat) (hostname port : Ptr) : Exec (Ptr × Handles) := do
  let c ← c.freeBuffers hostname port
  let rtables ← c.rtables.free (some rtable)
  pure (none, { c with rtables })

/-- From the test of `address_port` on. Before it `strtok` has been called with
the address, so that it is not NULL here. -/
def openSocket (c : Handles) (rtable : Nat) (hostname port : Ptr) (o : ConnectCalls) :
    Exec (Ptr × Handles) :=
  match o.socket with
  | none => c.abandon rtable hostname port
  | some m => do
    let (sockfd, sockets) := c.sockets.place m none
    let number ← strAt c.strings port
    let name ← strAt c.strings hostname
    match o.inetPton name with
    | none => abandon { c with sockets := sockets.set sockfd none } rtable hostname port
    | some sinAddr => do
      let rtables ← c.rtables.store (some rtable) ⟨⟨htons (atoi number), sinAddr⟩, sockfd⟩
      let (result, c) ← networkConnect { c with rtables, sockets } (some rtable) o.connected
      if result = -1 then c.abandon rtable hostname port
      else do
        let c ← c.freeBuffers hostname port
        pure (some rtable, c)

def rtableConnect (c : Handles) (address_port : Ptr) (o : ConnectCalls) :
    Exec (Ptr × Handles) :=
  match o.rtable with
  | none => pure (none, c)
  | some m => do
    let (rtable, rtables) := c.rtables.alloc m
    let (hostname, strings) := mallocBuffer c.strings o.fill o.hostname
    let (port, strings) := mallocBuffer strings o.fill o.port
    let strings ← copyAddress strings address_port hostname port
    openSocket { c with strings, rtables } rtable hostname port o

def rtableDisconnect (c : Handles) (rtable : Ptr) : Exec (Int × Handles) :=
  if rtable = none then pure (-1, c)
  else do
    let (_, c) ← c.networkClose rtable
    let rtables ← c.rtables.free rtable
    pure (0, { c with rtables })

end Handles

-- ---------------------------------------------------------------------------
-- The words of the address
-- ---------------------------------------------------------------------------

section

variable {strings : Strings} {s word : CStr}

theorem copyWord_none (hc : strings.cell a = some block) (hs : readStr (block.drop save) = .ok s)
    (ht : tokens colon s = []) : ¬ Defined (copyWord strings (some a) save dest) := by
  rintro ⟨result, h⟩
  obtain ⟨save', hr⟩ := strtok_tokens_nil hs ht
  rw [copyWord, Heap.load_some hc, ok_bind, hr, ok_bind] at h
  obtain ⟨strings', -, h⟩ := seq_ok h
  cases h

theorem copyWord_null (strings : Strings) (address_port : Ptr) (save : Nat) :
    ¬ Defined (copyWord strings address_port save none) := by
  rintro ⟨result, h⟩
  obtain ⟨block, -, h⟩ := seq_ok h
  obtain ⟨⟨ptr, block', save'⟩, -, h⟩ := seq_ok h
  obtain ⟨strings', -, h⟩ := seq_ok h
  cases ptr with
  | none => cases h
  | some start =>
    obtain ⟨word, -, h⟩ := seq_ok h
    cases h

theorem copyWord_ok (hc : strings.cell a = some block) (hd : strings.cell dest = some buffer)
    (hne : dest ≠ a) (hr : strtok colon block save = .ok (some start, block', save'))
    (hw : readStr (block'.drop start) = .ok word) :
    (word.bytes.length < buffer.length →
      copyWord strings (some a) save (some dest) = .ok ((strings.set a (some block')).set dest
        (some (word.block ++ buffer.drop word.block.length)), save')) ∧
    (Defined (copyWord strings (some a) save (some dest)) → word.bytes.length < buffer.length) := by
  have hbuffer : (strings.set a (some block')).cell dest = some buffer := by
    rw [Heap.set_cell_ne _ _ hne, hd]
  have hcall : copyWord strings (some a) save (some dest) = (do
      let buffer ← strcpy buffer word
      let strings ← (strings.set a (some block')).store (some dest) buffer
      pure (strings, save')) := by
    rw [copyWord, Heap.load_some hc, ok_bind, hr, ok_bind]
    simp only [Heap.store_some hc, ok_bind, hw, Heap.load_some hbuffer]
  rw [hcall]
  constructor
  · intro hlt
    rw [strcpy_ok hlt, ok_bind, Heap.store_some hbuffer, ok_bind]
    rfl
  · rintro ⟨result, h⟩
    obtain ⟨copied, hcopy, -⟩ := seq_ok h
    exact strcpy_room ⟨copied, hcopy⟩

structure AddressCopied (strings strings' : Strings) (a hostname port : Nat)
    (word number : CStr) : Prop where
  host : strAt strings' (some hostname) = .ok word
  numeral : strAt strings' (some port) = .ok number
  address : ∃ first, strAt strings' (some a) = .ok first ∧ tokens colon first = [word]
  others : ∀ b, b ≠ a → b ≠ hostname → b ≠ port → strings'.cell b = strings.cell b

theorem copyAddress_ok (hc : strings.cell a = some block) (hs : readStr block = .ok s)
    (ht : tokens colon s = word :: number :: rest) (hh : strings.cell hostname = some b₁)
    (hp : strings.cell port = some b₂) (hha : hostname ≠ a) (hpa : port ≠ a)
    (hph : port ≠ hostname) :
    (word.bytes.length < b₁.length ∧ number.bytes.length < b₂.length →
      ∃ strings', copyAddress strings (some a) (some hostname) (some port) = .ok strings' ∧
        AddressCopied strings strings' a hostname port word number) ∧
    (Defined (copyAddress strings (some a) (some hostname) (some port)) →
      word.bytes.length < b₁.length ∧ number.bytes.length < b₂.length) := by
  obtain ⟨start, block', save, left, first, hr, hword, hleft, htokens, hfirst, hcut⟩ :=
    strtok_cuts hs ht
  obtain ⟨start', block'', save', left', hr', hlen, hnumber, -⟩ := strtok_tokens_cons hleft htokens
  have hkept := strtok_take hr'
  obtain ⟨hok, hroom⟩ := copyWord_ok hc hh hha hr hword
  -- what the second word finds, once the first one is copied
  have hafter : word.bytes.length < b₁.length →
      (word.bytes.length < b₁.length ∧ number.bytes.length < b₂.length →
        ∃ strings', copyAddress strings (some a) (some hostname) (some port) = .ok strings' ∧
          AddressCopied strings strings' a hostname port word number) ∧
      (Defined (copyAddress strings (some a) (some hostname) (some port)) →
        number.bytes.length < b₂.length) := by
    intro hlt
    generalize hstrings₁ : (strings.set a (some block')).set hostname
      (some (word.block ++ b₁.drop word.block.length)) = strings₁ at hok
    have hcall : copyAddress strings (some a) (some hostname) (some port) = (do
        let (strings, _) ← copyWord strings₁ (some a) save (some port)
        pure strings) := by
      rw [copyAddress, hok hlt, ok_bind]
    have hc₁ : strings₁.cell a = some block' := by
      rw [← hstrings₁, Heap.set_cell_ne _ _ hha.symm, Heap.set_cell]
    have hp₁ : strings₁.cell port = some b₂ := by
      rw [← hstrings₁, Heap.set_cell_ne _ _ hph, Heap.set_cell_ne _ _ hpa, hp]
    obtain ⟨hok₁, hroom₁⟩ := copyWord_ok hc₁ hp₁ hpa hr' hnumber
    rw [hcall]
    constructor
    · rintro ⟨-, hlt₁⟩
      refine ⟨_, by rw [hok₁ hlt₁]; rfl, ?_, ?_, ⟨first, ?_, hfirst⟩, fun b ha hh hp => ?_⟩
      · rw [strAt_some (by rw [Heap.set_cell_ne _ _ hph.symm, Heap.set_cell_ne _ _ hha, ← hstrings₁,
          Heap.set_cell])]
        exact readStr_block_append word _
      · rw [strAt_some (Heap.set_cell ..)]
        exact readStr_block_append number _
      · rw [strAt_some (by rw [Heap.set_cell_ne _ _ hpa.symm, Heap.set_cell]),
          ← List.take_append_drop save block'', hkept, hcut]
        exact readStr_block_append first _
      · rw [Heap.set_cell_ne _ _ hp, Heap.set_cell_ne _ _ ha, ← hstrings₁, Heap.set_cell_ne _ _ hh,
          Heap.set_cell_ne _ _ ha]
    · rintro ⟨result, h⟩
      obtain ⟨⟨strings', save''⟩, hcopy, -⟩ := seq_ok h
      exact hroom₁ ⟨_, hcopy⟩
  constructor
  · exact fun hlt => (hafter hlt.1).1 hlt
  · rintro ⟨result, h⟩
    have hlt : word.bytes.length < b₁.length := by
      obtain ⟨⟨strings', save''⟩, hcopy, -⟩ := seq_ok h
      exact hroom ⟨_, hcopy⟩
    exact ⟨hlt, (hafter hlt).2 ⟨result, h⟩⟩

end

-- ---------------------------------------------------------------------------
-- What a call leaves
-- ---------------------------------------------------------------------------

def ConnectCalls.peer (o : ConnectCalls) (name number : CStr) : Option SockaddrIn :=
  if o.rtable.isSome && o.socket.isSome && o.connected then
    (o.inetPton name).map fun sinAddr => ⟨htons (atoi number), sinAddr⟩
  else none

/-- The buffers are there, where they are asked for. -/
def ConnectCalls.buffered (o : ConnectCalls) : Bool :=
  o.rtable.isNone || (o.hostname.isSome && o.port.isSome)

/-- The address has two words that fit into the buffers. -/
def Splits (s word number : CStr) : Prop :=
  (tokens colon s).take 2 = [word, number] ∧ word.bytes.length < 20 ∧ number.bytes.length < 20

/-- A handle with a socket of its own, or nothing. -/
inductive Handles.Connects (c : Handles) : Option SockaddrIn → Ptr → Handles → Prop
  | failed : c'.rtables.cell = c.rtables.cell → c'.sockets.cell = c.sockets.cell →
      Handles.Connects c none none c'
  | opened (p sockfd) : c.rtables.cell p = none → c.sockets.cell sockfd = none →
      c'.rtables.cell = Function.update c.rtables.cell p (some ⟨server, sockfd⟩) →
      c'.sockets.cell = Function.update c.sockets.cell sockfd (some (some server)) →
      Handles.Connects c (some server) (some p) c'

namespace Handles

variable {c c' : Handles} {o : ConnectCalls}

theorem freeBuffers_ok {strings : Strings} (hh : strings.cell hostname = some b₁)
    (hp : strings.cell port = some b₂) (hne : port ≠ hostname) (rtables : Heap RtableT)
    (sockets : Heap (Option SockaddrIn)) :
    freeBuffers ⟨strings, rtables, sockets⟩ (some hostname) (some port) =
      .ok ⟨(strings.set port none).set hostname none, rtables, sockets⟩ := by
  have hh' : (strings.set port none).cell hostname = some b₁ := by
    rw [Heap.set_cell_ne _ _ hne.symm, hh]
  simp only [freeBuffers, Heap.free_some hp, ok_bind, Heap.free_some hh']
  rfl

theorem abandon_ok (hh : c.strings.cell hostname = some b₁) (hp : c.strings.cell port = some b₂)
    (hne : port ≠ hostname) (hr : c.rtables.cell rtable = some r) :
    c.abandon rtable (some hostname) (some port) = .ok (none,
      { c with
        strings := (c.strings.set port none).set hostname none
        rtables := c.rtables.set rtable none }) := by
  have hfree : c.freeBuffers (some hostname) (some port) =
      .ok ⟨(c.strings.set port none).set hostname none, c.rtables, c.sockets⟩ :=
    freeBuffers_ok hh hp hne c.rtables c.sockets
  rw [abandon, hfree, ok_bind, Heap.free_some hr]
  rfl

theorem Connects.disconnects {rtable : Nat} (h : c.Connects peer (some rtable) c') :
    ∃ d, c'.rtableDisconnect (some rtable) = .ok (0, d) ∧ d.rtables.cell = c.rtables.cell ∧
      d.sockets.cell = c.sockets.cell := by
  cases h with
  | opened _ sockfd hp hfd hr hs =>
    rename_i server
    have hload : c'.rtables.cell rtable = some ⟨server, sockfd⟩ := by rw [hr, Function.update_self]
    refine ⟨⟨c'.strings, c'.rtables.set rtable none, c'.sockets.set sockfd none⟩, ?_, ?_, ?_⟩
    · simp only [rtableDisconnect, networkClose, reduceCtorEq, ↓reduceIte, Heap.load_some hload,
        ok_bind, pure_eq_ok, Heap.free_some hload]
    · change Function.update c'.rtables.cell rtable none = c.rtables.cell
      rw [hr, Function.update_idem, Function.update_eq_self_iff, hp]
    · change Function.update c'.sockets.cell sockfd none = c.sockets.cell
      rw [hs, Function.update_idem, Function.update_eq_self_iff, hfd]

theorem networkConnect_ok (hr : c.rtables.cell p = some r) (connected : Bool) :
    c.networkConnect (some p) connected = .ok (if connected then 0 else -1,
      { c with sockets :=
          c.sockets.set r.sockfd (if connected then some (some r.server) else none) }) := by
  rw [networkConnect, if_neg (Option.some_ne_none p), Heap.load_some hr]
  cases connected <;> rfl

theorem closed_cell {h : Heap α} (hf : h.cell a = none) :
    ((h.set a v).set a none).cell = h.cell := by
  rw [Heap.set_set]
  exact Function.update_eq_self_iff.mpr hf.symm

theorem openSocket_ok (hm : o.rtable.isSome = true) (hr : c.rtables.cell rtable = some r)
    (hh : strAt c.strings (some hostname) = .ok name)
    (hp : strAt c.strings (some port) = .ok number) (hne : port ≠ hostname) :
    ∃ p c', c.openSocket rtable (some hostname) (some port) o = .ok (p, c') ∧
      c'.strings = (c.strings.set port none).set hostname none ∧
      match o.peer name number with
      | none => p = none ∧ c'.rtables = c.rtables.set rtable none ∧
          c'.sockets.cell = c.sockets.cell
      | some server => p = some rtable ∧ ∃ sockfd, c.sockets.cell sockfd = none ∧
          c'.rtables = c.rtables.set rtable (some ⟨server, sockfd⟩) ∧
          c'.sockets.cell = Function.update c.sockets.cell sockfd (some (some server)) := by
  obtain ⟨a, b₁, ha, hc₁, -⟩ := strAt_ok hh
  cases ha
  obtain ⟨a, b₂, ha, hc₂, -⟩ := strAt_ok hp
  cases ha
  unfold openSocket
  cases hsocket : o.socket with
  | none =>
    simp only [ConnectCalls.peer, hsocket, hm, Option.isSome_none, Bool.true_and, Bool.false_and]
    exact ⟨_, _, abandon_ok hc₁ hc₂ hne hr, rfl, rfl, rfl, rfl⟩
  | some m =>
    simp only [hp, hh, ok_bind]
    cases haddr : o.inetPton name with
    | none =>
      refine ⟨_, _, abandon_ok hc₁ hc₂ hne hr, rfl, ?_⟩
      simp only [ConnectCalls.peer, haddr, Option.map_none, ite_self]
      exact ⟨trivial, trivial, closed_cell (m.fresh _)⟩
    | some sinAddr =>
      simp only [Heap.store_some hr, ok_bind]
      rw [networkConnect_ok (Heap.set_cell ..), ok_bind]
      cases hconnected : o.connected with
      | false =>
        refine ⟨_, _, abandon_ok hc₁ hc₂ hne (Heap.set_cell ..), rfl, ?_⟩
        simp only [ConnectCalls.peer, hconnected, Bool.and_false, Bool.false_eq_true, ↓reduceIte]
        exact ⟨trivial, Heap.set_set .., closed_cell (m.fresh _)⟩
      | true =>
        dsimp only
        rw [if_neg (by decide), freeBuffers_ok hc₁ hc₂ hne]
        refine ⟨_, _, rfl, rfl, ?_⟩
        simp only [ConnectCalls.peer, hm, hsocket, hconnected, haddr, Option.isSome_some,
          Bool.and_self, ↓reduceIte, Option.map_some]
        exact ⟨trivial, _, m.fresh _, rfl, congrArg Heap.cell (Heap.set_set ..)⟩

structure Placed (c : Handles) (o : ConnectCalls) (strings : Strings) (hostname port : Nat) :
    Prop where
  first : strings.cell hostname = some ((List.range 20).map o.fill)
  second : strings.cell port = some ((List.range 20).map o.fill)
  freshFirst : c.strings.cell hostname = none
  freshSecond : c.strings.cell port = none
  apart : port ≠ hostname
  others : ∀ b, b ≠ hostname → b ≠ port → strings.cell b = c.strings.cell b

theorem rtableConnect_eq {m : Malloc RtableT} (hm : o.rtable = some m)
    (hh : o.hostname.isSome = true) (hp : o.port.isSome = true) (c : Handles) (p : Ptr) :
    ∃ strings hostname port, c.Placed o strings hostname port ∧
      c.rtableConnect p o = (do
        let strings ← copyAddress strings p (some hostname) (some port)
        openSocket { c with strings, rtables := (c.rtables.alloc m).2 } (c.rtables.alloc m).1
          (some hostname) (some port) o) := by
  obtain ⟨first, hh⟩ := Option.isSome_iff_exists.mp hh
  obtain ⟨second, hp⟩ := Option.isSome_iff_exists.mp hp
  have hfresh : (c.strings.set (first.addr c.strings)
      (some ((List.range 20).map o.fill))).cell (second.addr _) = none := second.fresh _
  have hne : second.addr (c.strings.set (first.addr c.strings)
      (some ((List.range 20).map o.fill))) ≠ first.addr c.strings := by
    intro he
    rw [he, Heap.set_cell] at hfresh
    cases hfresh
  rw [Heap.set_cell_ne _ _ hne] at hfresh
  refine ⟨_, _, _, ⟨?_, Heap.set_cell .., first.fresh _, hfresh, hne, fun b hh hp => ?_⟩,
    by rw [rtableConnect, hm, hh, hp]; rfl⟩
  · rw [Heap.set_cell_ne _ _ hne.symm, Heap.set_cell]
  · rw [Heap.set_cell_ne _ _ hp, Heap.set_cell_ne _ _ hh]

theorem rtableConnect_none (hm : o.rtable = none) (c : Handles) (p : Ptr) :
    c.rtableConnect p o = .ok (none, c) := by
  rw [rtableConnect, hm]
  rfl

theorem rtableConnect_buffers (hm : o.rtable.isSome = true) (h : Defined (c.rtableConnect p o)) :
    o.hostname.isSome = true ∧ o.port.isSome = true := by
  obtain ⟨m, hm⟩ := Option.isSome_iff_exists.mp hm
  obtain ⟨result, h⟩ := h
  rw [rtableConnect, hm] at h
  obtain ⟨strings, hcopy, -⟩ := seq_ok h
  obtain ⟨⟨strings', save⟩, hfirst, hcopy⟩ := seq_ok hcopy
  obtain ⟨last, hsecond, -⟩ := seq_ok hcopy
  constructor
  · cases hh : o.hostname with
    | none =>
      rw [hh] at hfirst
      exact (copyWord_null _ _ _ ⟨_, hfirst⟩).elim
    | some m => rfl
  · cases hp : o.port with
    | none =>
      rw [hp] at hsecond
      exact (copyWord_null _ _ _ ⟨_, hsecond⟩).elim
    | some m => rfl

theorem rtableConnect_ok {m : Malloc RtableT} (hm : o.rtable = some m)
    (hh : o.hostname.isSome = true) (hp : o.port.isSome = true)
    (hs : strAt c.strings (some a) = .ok s) (ht : Splits s word number) :
    ∃ p c', c.rtableConnect (some a) o = .ok (p, c') ∧ c.Connects (o.peer word number) p c' ∧
      (∃ first, strAt c'.strings (some a) = .ok first ∧ tokens colon first = [word]) ∧
      ∀ b ≠ a, c'.strings.cell b = c.strings.cell b := by
  obtain ⟨a', block, ha, hc, hread⟩ := strAt_ok hs
  cases ha
  obtain ⟨htokens, hroom⟩ := ht
  obtain ⟨rest, htokens⟩ : ∃ rest, tokens colon s = word :: number :: rest :=
    ⟨_, (List.take_append_drop 2 _).symm.trans (congrArg (· ++ _) htokens)⟩
  obtain ⟨strings, hostname, port, hp, heq⟩ := rtableConnect_eq hm hh hp c (some a)
  have hha : hostname ≠ a := (Heap.ne_of_free hc hp.freshFirst).symm
  have hpa : port ≠ a := (Heap.ne_of_free hc hp.freshSecond).symm
  have hc₁ : strings.cell a = some block := by rw [hp.others a hha.symm hpa.symm, hc]
  obtain ⟨strings', hcopy, hcopied⟩ := (copyAddress_ok hc₁ hread htokens hp.first hp.second hha hpa
    hp.apart).1 (by simpa using hroom)
  obtain ⟨p, c', hopen, hstrings, hresult⟩ :=
    openSocket_ok (c := { c with strings := strings', rtables := (c.rtables.alloc m).2 })
      (o := o) (by rw [hm]; rfl) (Heap.set_cell ..) hcopied.host hcopied.numeral hp.apart
  rw [hcopy, ok_bind] at heq
  obtain ⟨first, hfirst, hcut⟩ := hcopied.address
  have hcells : ∀ b, b ≠ hostname → b ≠ port → c'.strings.cell b = strings'.cell b := by
    intro b hh hp
    rw [hstrings, Heap.set_cell_ne _ _ hh, Heap.set_cell_ne _ _ hp]
  refine ⟨p, c', heq.trans hopen, ?_, ⟨first, ?_, hcut⟩, fun b hb => ?_⟩
  · have hfresh := m.fresh c.rtables
    cases hpeer : o.peer word number with
    | none =>
      rw [hpeer] at hresult
      obtain ⟨rfl, hrtables, hsockets⟩ := hresult
      refine .failed ?_ hsockets
      rw [hrtables]
      exact closed_cell hfresh
    | some server =>
      rw [hpeer] at hresult
      obtain ⟨rfl, sockfd, hunused, hrtables, hsockets⟩ := hresult
      refine .opened _ sockfd hfresh hunused ?_ hsockets
      rw [hrtables]
      exact congrArg Heap.cell (Heap.set_set ..)
  · obtain ⟨a', block', ha, hc', hread'⟩ := strAt_ok hfirst
    cases ha
    rw [strAt_some ((hcells a hha.symm hpa.symm).trans hc'), hread']
  · by_cases hh : b = hostname
    · rw [hstrings, hh, Heap.set_cell, hp.freshFirst]
    by_cases hq : b = port
    · rw [hstrings, hq, Heap.set_cell_ne _ _ hp.apart, Heap.set_cell, hp.freshSecond]
    · rw [hcells b hh hq, hcopied.others b hb hh hq, hp.others b hh hq]

theorem rtableConnect_connects (hb : o.buffered = true) (hs : strAt c.strings (some a) = .ok s)
    (ht : Splits s word number) :
    ∃ p c', c.rtableConnect (some a) o = .ok (p, c') ∧ c.Connects (o.peer word number) p c' := by
  cases hm : o.rtable with
  | none =>
    refine ⟨none, c, rtableConnect_none hm c (some a), ?_⟩
    simp only [ConnectCalls.peer, hm, Option.isSome_none, Bool.false_and, Bool.false_eq_true,
      ↓reduceIte]
    exact .failed rfl rfl
  | some m =>
    simp only [ConnectCalls.buffered, hm, Option.isNone_some, Bool.false_or, Bool.and_eq_true] at hb
    obtain ⟨p, c', hcall, hconnects, -⟩ := rtableConnect_ok hm hb.1 hb.2 hs ht
    exact ⟨p, c', hcall, hconnects⟩

theorem rtableConnect_splits (hm : o.rtable.isSome = true)
    (hs : strAt c.strings (some a) = .ok s) (h : Defined (c.rtableConnect (some a) o)) :
    ∃ word number, Splits s word number := by
  obtain ⟨hh, hp⟩ := rtableConnect_buffers hm h
  obtain ⟨m, hm⟩ := Option.isSome_iff_exists.mp hm
  obtain ⟨a', block, ha, hc, hread⟩ := strAt_ok hs
  cases ha
  obtain ⟨strings, hostname, port, hp, heq⟩ := rtableConnect_eq hm hh hp c (some a)
  have hha : hostname ≠ a := (Heap.ne_of_free hc hp.freshFirst).symm
  have hpa : port ≠ a := (Heap.ne_of_free hc hp.freshSecond).symm
  have hc₁ : strings.cell a = some block := by rw [hp.others a hha.symm hpa.symm, hc]
  have hread₀ : readStr (block.drop 0) = .ok s := hread
  obtain ⟨result, h⟩ := h
  rw [heq] at h
  obtain ⟨strings', hcopy, -⟩ := seq_ok h
  cases htokens : tokens colon s with
  | nil =>
    obtain ⟨copied, hfirst, -⟩ := seq_ok hcopy
    exact absurd ⟨copied, hfirst⟩ (copyWord_none hc₁ hread₀ htokens)
  | cons word ts =>
    cases ts with
    | nil =>
      obtain ⟨start, block', save, left, hr, -, hword, -, hleft, hnone⟩ :=
        strtok_tokens_cons hread₀ htokens
      obtain ⟨hok, hroom⟩ := copyWord_ok hc₁ hp.first hha hr hword
      obtain ⟨⟨copied, save'⟩, hfirst, hcopy⟩ := seq_ok hcopy
      rw [hok (hroom ⟨_, hfirst⟩)] at hfirst
      cases hfirst
      obtain ⟨last, hsecond, -⟩ := seq_ok hcopy
      refine absurd ⟨last, hsecond⟩ (copyWord_none ?_ hleft hnone)
      rw [Heap.set_cell_ne _ _ hha.symm, Heap.set_cell]
    | cons number rest =>
      refine ⟨word, number, by rw [htokens]; rfl, ?_⟩
      simpa using (copyAddress_ok hc₁ hread htokens hp.first hp.second hha hpa hp.apart).2
        ⟨strings', hcopy⟩

end Handles

/-- `rtable_connect` is defined exactly if there is no memory for the handle, or the
address has two words that fit into the two buffers. It leaves a handle that is
connected to what they say on a socket of its own, or nothing, and no string but the
address is touched; `rtable_disconnect` gives the handle and its socket back. Of the
address the first word is left, so that it cannot be used for another handle. -/
theorem rtable_connect_spec {c : Handles} (hs : strAt c.strings (some a) = .ok s)
    (o : ConnectCalls) :
    (Defined (c.rtableConnect (some a) o) ↔ o.rtable = none ∨
      o.hostname.isSome ∧ o.port.isSome ∧ ∃ word number, Splits s word number) ∧
    (o.rtable = none → c.rtableConnect (some a) o = .ok (none, c)) ∧
    (o.rtable.isSome → ∀ p c', c.rtableConnect (some a) o = .ok (p, c') →
      (∃ word number, Splits s word number ∧ c.Connects (o.peer word number) p c') ∧
      (∀ b ≠ a, c'.strings.cell b = c.strings.cell b) ∧
      (∀ rtable, p = some rtable → ∃ d, c'.rtableDisconnect p = .ok (0, d) ∧
        d.rtables.cell = c.rtables.cell ∧ d.sockets.cell = c.sockets.cell) ∧
      ∀ o', o'.rtable.isSome → ¬ Defined (c'.rtableConnect (some a) o')) := by
  refine ⟨⟨fun h => ?_, ?_⟩, fun hm => Handles.rtableConnect_none hm c (some a), ?_⟩
  · cases hm : o.rtable with
    | none => exact .inl rfl
    | some m =>
      have hsome : o.rtable.isSome = true := by rw [hm]; rfl
      obtain ⟨hh, hp⟩ := Handles.rtableConnect_buffers hsome h
      exact .inr ⟨hh, hp, Handles.rtableConnect_splits hsome hs h⟩
  · rintro (hm | ⟨hh, hp, word, number, ht⟩)
    · exact ⟨_, Handles.rtableConnect_none hm c (some a)⟩
    · cases hm : o.rtable with
      | none => exact ⟨_, Handles.rtableConnect_none hm c (some a)⟩
      | some m =>
        obtain ⟨p, c', hcall, -⟩ := Handles.rtableConnect_ok hm hh hp hs ht
        exact ⟨_, hcall⟩
  · intro hsome p c' h
    obtain ⟨hh, hp⟩ := Handles.rtableConnect_buffers hsome ⟨_, h⟩
    obtain ⟨word, number, ht⟩ := Handles.rtableConnect_splits hsome hs ⟨_, h⟩
    obtain ⟨m, hm⟩ := Option.isSome_iff_exists.mp hsome
    obtain ⟨q, d, hcall, hconnects, ⟨first, hfirst, hcut⟩, hothers⟩ :=
      Handles.rtableConnect_ok hm hh hp hs ht
    rw [hcall] at h
    cases h
    refine ⟨⟨word, number, ht, hconnects⟩, hothers, ?_, fun o' hsome' hagain => ?_⟩
    · rintro rtable rfl
      exact hconnects.disconnects
    obtain ⟨word', number', htokens, -⟩ := Handles.rtableConnect_splits hsome' hfirst hagain
    rw [hcut] at htokens
    cases htokens

def localHost : CStr := .ofBytes [49, 50, 55, 46, 48, 46, 48, 46, 49]

def localAddress : CStr := .ofBytes (localHost.bytes ++ [58, 56, 48])

def addressed : Handles := ⟨Heap.empty.set 0 (some localAddress.block), .empty, .empty⟩

def localCalls : ConnectCalls where
  rtable := some (mallocTop ⟨⟨[], []⟩, 0⟩)
  hostname := some (mallocTop [])
  port := some (mallocTop [])
  fill _ := 0
  socket := some (mallocTop none)
  inetPton s := if s = localHost then some [127, 0, 0, 1] else none
  connected := true

theorem rtable_connect_spec_local : ∃ p c',
    addressed.rtableConnect (some 0) localCalls = .ok (p, c') ∧
    addressed.Connects (some ⟨[0, 80], [127, 0, 0, 1]⟩) p c' ∧
    ¬ Defined (c'.rtableConnect (some 0) localCalls) := by
  have hs : strAt addressed.strings (some 0) = .ok localAddress := by decide
  have hsplits : Splits localAddress localHost (.ofBytes [56, 48]) :=
    ⟨by decide, by decide, by decide⟩
  obtain ⟨hdefined, -, hcalled⟩ := rtable_connect_spec hs localCalls
  obtain ⟨⟨p, c'⟩, hcall⟩ := hdefined.mpr (.inr ⟨rfl, rfl, _, _, hsplits⟩)
  obtain ⟨⟨word, number, ⟨htokens, -⟩, hconnects⟩, -, -, hagain⟩ := hcalled rfl p c' hcall
  rw [hsplits.1] at htokens
  cases htokens
  exact ⟨p, c', hcall, hconnects, hagain localCalls rfl⟩

end HashMapStorage
