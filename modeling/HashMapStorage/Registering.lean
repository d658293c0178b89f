import HashMapStorage.Connecting

/-!
# The address of a server (`table_skel_init`)

A server writes into its znode where clients find it: the first word of
`host_port` and the port of its command line. It then reads its own znode and
connects to what it says. A znode holds the bytes of a string without the NUL,
and the buffer it is read into is not cleared.
-/

namespace HashMapStorage

open Machine

/-- What the buffers hold at first; `behind` lies behind the data in that of `zoo_get`. -/
structure RegisterMem where
  hostname : Nat → UInt8
  address : Nat → UInt8
  serverIP : Nat → UInt8
  behind : List UInt8
  sinAddr : List UInt8

def copyHost (fill : Nat → UInt8) (ptr : CStr) : Exec CStr := do
  let hostname ← strcpy ((List.range 20).map fill) ptr
  readStr hostname

def joinAddress (address : List UInt8) (hostname porta : CStr) : Exec CStr := do
  let address ← strcpy address hostname
  let address ← strcat address (.ofBytes colon)
  let address ← strcat address porta
  readStr address

/-- From the first `strtok` to the last `strcat`; `host_port` is not read again. -/
def registerAddress (host_port : List UInt8) (porta : CStr) (m : RegisterMem) : Exec CStr := do
  let (ptr, host_port, _) ← strtok colon host_port 0
  match ptr with
  | none => throw .nullPointer
  | some start => do
    let word ← readStr (host_port.drop start)
    let hostname ← copyHost m.hostname word
    joinAddress ((List.range 50).map m.address) hostname porta

/-- The first call of `strtok`, on a buffer that may have no NUL. -/
def firstWord (delim buffer : List UInt8) : Exec (Option CStr) :=
  let front := buffer.dropWhile (· ∈ delim)
  let word := front.takeWhile fun b => b ∉ delim ∧ b ≠ 0
  if word.length = front.length then throw .outOfBounds
  else if word = [] then pure none
  else pure (some (.ofBytes word))

/-- From the second `zoo_get` to `connect`: where the server connects to. An
address that `inet_pton` does not accept is reported, and not looked at again. -/
def ownServer (data : List UInt8) (porta : CStr) (inetPton : CStr → Option (List UInt8))
    (m : RegisterMem) : Exec SockaddrIn := do
  match ← firstWord colon (data ++ m.behind) with
  | none => throw .nullPointer
  | some ptrr => do
    let serverIP ← copyHost m.serverIP ptrr
    pure ⟨htons (atoi porta), (inetPton serverIP).getD m.sinAddr⟩

/-- The first word of `host_port`, and room for it and for the address. -/
structure Registers (s word porta : CStr) : Prop where
  first : (tokens colon s).head? = some word
  host : word.bytes.length < 20
  address : word.bytes.length + 1 + porta.bytes.length < 50

structure IsPort (porta : CStr) : Prop where
  nonempty : porta.bytes ≠ []
  noColon : 58 ∉ porta.bytes
  room : porta.bytes.length < 20

-- ---------------------------------------------------------------------------
-- The address
-- ---------------------------------------------------------------------------

section

variable {buffer host_port : List UInt8} {s word porta address : CStr} {m : RegisterMem}

theorem copyHost_ok (fill : Nat → UInt8) (h : word.bytes.length < 20) :
    copyHost fill word = .ok word := by
  obtain ⟨copied, hcopy, -, hread⟩ := strcpy_reads (s := word)
    (h.trans_eq (by simp : 20 = ((List.range 20).map fill).length))
  rw [copyHost, hcopy, ok_bind, hread]

theorem copyHost_room {fill : Nat → UInt8} (h : Defined (copyHost fill word)) :
    word.bytes.length < 20 := by
  obtain ⟨name, h⟩ := h
  obtain ⟨copied, hcopy, -⟩ := seq_ok h
  simpa using strcpy_room ⟨copied, hcopy⟩

theorem append_colon_length (word : CStr) :
    (word.append (.ofBytes colon)).bytes.length = word.bytes.length + 1 := List.length_append

theorem joinAddress_ok (h : word.bytes.length + 1 + porta.bytes.length < buffer.length) :
    ∃ address, joinAddress buffer word porta = .ok address ∧
      address.bytes = word.bytes ++ 58 :: porta.bytes := by
  have hone : (CStr.ofBytes colon).bytes.length = 1 := rfl
  have hlen := append_colon_length word
  have hcopyRoom : word.bytes.length < buffer.length := by omega
  obtain ⟨copied, hcopy, hcopied, hword⟩ := strcpy_reads hcopyRoom
  obtain ⟨behind, hcolon, hbehind, hread⟩ := strcat_reads (t := .ofBytes colon) hword (by omega)
  obtain ⟨joined, hport, -, hjoined⟩ := strcat_reads (t := porta) hread (by omega)
  refine ⟨(word.append (.ofBytes colon)).append porta, ?_, List.append_assoc ..⟩
  rw [joinAddress, hcopy, ok_bind, hcolon, ok_bind, hport, ok_bind, hjoined]

theorem joinAddress_room (h : Defined (joinAddress buffer word porta)) :
    word.bytes.length + 1 + porta.bytes.length < buffer.length := by
  have hlen := append_colon_length word
  obtain ⟨address, h⟩ := h
  obtain ⟨copied, hcopy, h⟩ := seq_ok h
  obtain ⟨copied', hcopy', hcopied, hword⟩ := strcpy_reads (strcpy_room ⟨copied, hcopy⟩)
  rw [hcopy'] at hcopy
  cases hcopy
  obtain ⟨behind, hcolon, h⟩ := seq_ok h
  obtain ⟨behind', hcolon', hbehind, hread⟩ :=
    strcat_reads hword (strcat_room hword ⟨behind, hcolon⟩)
  rw [hcolon'] at hcolon
  cases hcolon
  obtain ⟨joined, hport, -⟩ := seq_ok h
  have hroom := strcat_room hread ⟨joined, hport⟩
  omega

theorem registerAddress_ok (hs : readStr host_port = .ok s) (h : Registers s word porta) :
    ∃ address, registerAddress host_port porta m = .ok address ∧
      address.bytes = word.bytes ++ 58 :: porta.bytes := by
  obtain ⟨hfirst, hhost, hroom⟩ := h
  obtain ⟨rest, htokens⟩ := List.head?_eq_some_iff.mp hfirst
  have hread : readStr (host_port.drop 0) = .ok s := hs
  have hbuffer : word.bytes.length + 1 + porta.bytes.length <
      ((List.range 50).map m.address).length := by simpa using hroom
  obtain ⟨start, left, save, behind, hr, -, hword, -⟩ := strtok_tokens_cons hread htokens
  obtain ⟨address, hjoin, hbytes⟩ := joinAddress_ok hbuffer
  refine ⟨address, ?_, hbytes⟩
  rw [registerAddress, hr, ok_bind]
  simp only [hword, ok_bind, copyHost_ok m.hostname hhost, hjoin]

theorem registerAddress_registers (hs : readStr host_port = .ok s)
    (h : Defined (registerAddress host_port porta m)) : ∃ word, Registers s word porta := by
  have hread : readStr (host_port.drop 0) = .ok s := hs
  obtain ⟨address, h⟩ := h
  cases htokens : tokens colon s with
  | nil =>
    obtain ⟨save, hr⟩ := strtok_tokens_nil hread htokens
    rw [registerAddress, hr] at h
    cases h
  | cons word rest =>
    obtain ⟨start, left, save, behind, hr, -, hword, -⟩ := strtok_tokens_cons hread htokens
    rw [registerAddress, hr, ok_bind] at h
    simp only [hword, ok_bind] at h
    obtain ⟨hostname, hcopy, h⟩ := seq_ok h
    have hhost := copyHost_room ⟨hostname, hcopy⟩
    rw [copyHost_ok m.hostname hhost] at hcopy
    cases hcopy
    refine ⟨word, by rw [htokens]; rfl, hhost, ?_⟩
    simpa using joinAddress_room ⟨address, h⟩

theorem firstWord_ok (hw : word.bytes ≠ [] ∧ ∀ b ∈ word.bytes, b ∉ colon) (rest : List UInt8) :
    firstWord colon (word.bytes ++ 58 :: rest) = .ok (some word) := by
  obtain ⟨hne, hcolon⟩ := hw
  have hnil : ∀ b ∈ ([] : List UInt8), b ∈ colon := by simp
  have hfront : (word.bytes ++ 58 :: rest).dropWhile (· ∈ colon) = word.bytes ++ 58 :: rest :=
    (skip_gap hnil hcolon hne (58 :: rest)).2
  have hword : ∀ b ∈ word.bytes, decide (b ∉ colon ∧ b ≠ 0) = true := by
    intro b hb
    simpa using ⟨hcolon b hb, fun h : b = 0 => word.nulFree (h ▸ hb)⟩
  have htake : (word.bytes ++ 58 :: rest).takeWhile (fun b => b ∉ colon ∧ b ≠ 0) =
      word.bytes := by
    rw [List.takeWhile_append_of_pos hword]
    simp [colon]
  have hend : word.bytes.length ≠ (word.bytes ++ 58 :: rest).length := by simp
  rw [firstWord, hfront]
  simp only [htake, if_neg hend, if_neg hne, CStr.ofBytes_bytes, pure_eq_ok]

theorem ownServer_ok (h : Registers s word porta)
    (ha : address.bytes = word.bytes ++ 58 :: porta.bytes)
    (inetPton : CStr → Option (List UInt8)) (m : RegisterMem) :
    ownServer address.bytes porta inetPton m =
      .ok ⟨htons (atoi porta), (inetPton word).getD m.sinAddr⟩ := by
  obtain ⟨rest, htokens⟩ := List.head?_eq_some_iff.mp h.first
  rw [ownServer, ha, List.append_assoc, List.cons_append, firstWord_ok (tokens_cons htokens),
    ok_bind]
  simp only [copyHost_ok m.serverIP h.host, ok_bind, pure_eq_ok]

theorem address_splits (h : Registers s word porta) (hp : IsPort porta)
    (ha : address.bytes = word.bytes ++ 58 :: porta.bytes) : Splits address word porta := by
  obtain ⟨rest, htokens⟩ := List.head?_eq_some_iff.mp h.first
  have hport : ∀ b ∈ porta.bytes, b ∉ colon := by
    intro b hb hcolon
    rw [List.mem_singleton.mp hcolon] at hb
    exact hp.noColon hb
  refine ⟨?_, h.host, hp.room⟩
  have hcolon : 58 ∈ colon := List.mem_singleton_self 58
  rw [tokens_pair ha hcolon (tokens_cons htokens) ⟨hp.nonempty, hport⟩]
  rfl

/-- The address of a server is made exactly if `host_port` has a first word and
the two buffers have room. What the server then takes for the next one is at its
own address: a client that is given the address can call `rtable_connect`, and
connects to the same port and host unless its call fails. -/
theorem server_registers (hs : readStr host_port = .ok s) (porta : CStr) (m : RegisterMem)
    (inetPton : CStr → Option (List UInt8)) :
    (Defined (registerAddress host_port porta m) ↔ ∃ word, Registers s word porta) ∧
    ∀ address, registerAddress host_port porta m = .ok address →
      ∃ word own, Registers s word porta ∧ address.bytes = word.bytes ++ 58 :: porta.bytes ∧
        ownServer address.bytes porta inetPton m = .ok own ∧
        ∀ (c : Handles) (a : Nat) (o : ConnectCalls), strAt c.strings (some a) = .ok address →
          IsPort porta → o.buffered = true → o.inetPton = inetPton →
          ∃ p c', c.rtableConnect (some a) o = .ok (p, c') ∧
            c.Connects (o.peer word porta) p c' ∧ ∀ server ∈ o.peer word porta, server = own := by
  constructor
  · constructor
    · exact registerAddress_registers hs
    · rintro ⟨word, h⟩
      obtain ⟨address, hcall, -⟩ := registerAddress_ok (m := m) hs h
      exact ⟨address, hcall⟩
  · intro address hcall
    obtain ⟨word, h⟩ := registerAddress_registers hs ⟨address, hcall⟩
    obtain ⟨address', hcall', hbytes⟩ := registerAddress_ok (m := m) hs h
    rw [hcall'] at hcall
    cases hcall
    refine ⟨word, _, h, hbytes, ownServer_ok h hbytes inetPton m, ?_⟩
    rintro c a o hread hp hbuffered rfl
    obtain ⟨p, c', hconnect, hconnects⟩ :=
      Handles.rtableConnect_connects hbuffered hread (address_splits h hp hbytes)
    refine ⟨p, c', hconnect, hconnects, ?_⟩
    intro server hserver
    unfold ConnectCalls.peer at hserver
    split at hserver
    · obtain ⟨sinAddr, haddr, rfl⟩ := Option.map_eq_some_iff.mp hserver
      rw [haddr]
      rfl
    · cases hserver

end

def clearedMem : RegisterMem := ⟨fun _ => 0, fun _ => 0, fun _ => 0, [], []⟩

theorem server_registers_local : ∃ address p c',
    registerAddress localAddress.block (.ofBytes [56, 48]) clearedMem = .ok address ∧
    ownServer address.bytes (.ofBytes [56, 48]) localCalls.inetPton clearedMem =
      .ok ⟨[0, 80], [127, 0, 0, 1]⟩ ∧
    addressed.rtableConnect (some 0) localCalls = .ok (p, c') ∧
    addressed.Connects (some ⟨[0, 80], [127, 0, 0, 1]⟩) p c' := by
  have hregisters : Registers localAddress localHost (.ofBytes [56, 48]) :=
    ⟨by decide, by decide, by decide⟩
  obtain ⟨hdefined, hmade⟩ := server_registers (readStr_block localAddress) (.ofBytes [56, 48])
    clearedMem localCalls.inetPton
  obtain ⟨address, hcall⟩ := hdefined.mpr ⟨_, hregisters⟩
  obtain ⟨word, own, hword, hbytes, hown, hclients⟩ := hmade address hcall
  have hfirst : some localHost = some word := hregisters.first.symm.trans hword.first
  cases hfirst
  have haddress : address = localAddress := CStr.ext_bytes hbytes
  have hread : strAt addressed.strings (some 0) = .ok address := by
    rw [haddress]
    decide
  obtain ⟨p, c', hconnect, hconnects, hsame⟩ :=
    hclients addressed 0 localCalls hread ⟨by decide, by decide, by decide⟩ rfl rfl
  cases hsame ⟨[0, 80], [127, 0, 0, 1]⟩ rfl
  exact ⟨address, p, c', hcall, hown, hconnect, hconnects⟩

end HashMapStorage
