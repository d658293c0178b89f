import HashMapStorage.Machine.Strings

/-!
# Messages (`message.c`)

`struct message_t` and protobuf's `MessageT` have the same members, so one
structure serves for both; it is passed by reference and its block is its
caller's. Strings and arrays of pointers lie in heaps of their own. Loops over
keys count in `Nat`: the source compares an `int` with a `size_t`.
-/

namespace HashMapStorage

open Machine

structure Mem where
  strings : Strings
  arrays : Heap (List Ptr)

/-- `ProtobufCMessage`: the unknown fields, packed, where there are any. -/
structure BaseT where
  unknownFields : Ptr
  deriving DecidableEq

structure MessageT where
  base : BaseT
  opcode : Int
  cType : Int
  dataSize : Int
  data : Ptr
  key : Ptr
  nKeys : Nat
  keys : Ptr
  deriving DecidableEq

-- ---------------------------------------------------------------------------
-- Opcodes and content types
-- ---------------------------------------------------------------------------

def opBad : Int := 0
def opSize : Int := 10
def opDel : Int := 20
def opGet : Int := 30
def opPut : Int := 40
def opGetkeys : Int := 50
def opVerify : Int := 60
def opError : Int := 99

def ctBad : Int := 0
def ctKey : Int := 10
def ctValue : Int := 20
def ctEntry : Int := 30
def ctKeys : Int := 40
def ctResult : Int := 50
def ctNone : Int := 60

-- ---------------------------------------------------------------------------
-- The converters
-- ---------------------------------------------------------------------------

def slotAt (arrays : Heap (List Ptr)) (array : Ptr) (i : Nat) : Exec Ptr := do
  let slots ← arrays.load array
  match slots[i]? with
  | some p => pure p
  | none => throw .outOfBounds

def setSlot (arrays : Heap (List Ptr)) (array : Ptr) (i : Nat) (p : Ptr) :
    Exec (Heap (List Ptr)) := do
  let slots ← arrays.load array
  if i < slots.length then arrays.store array (slots.set i p) else throw .outOfBounds

def dupKeysLoop (m : Malloc (List UInt8)) (source target : Ptr) :
    (left i : Nat) → Mem → Exec Mem
  | 0, _, mem => pure mem
  | left + 1, i, mem => do
    let key ← slotAt mem.arrays source i
    let (copy, strings) ← strdup mem.strings key m
    let arrays ← setSlot mem.arrays target i copy
    dupKeysLoop m source target left (i + 1) ⟨strings, arrays⟩

/-- The message's own array gets the copies: `messageT.keys` is the same
pointer. -/
def toMessageT (mem : Mem) (message : MessageT) (m : Malloc (List UInt8)) :
    Exec (MessageT × Mem) := do
  let messageT : MessageT := message
  if message.keys ≠ none then
    let mem ← dupKeysLoop m message.keys messageT.keys message.nKeys 0 mem
    pure (messageT, mem)
  else pure (messageT, mem)

/-- What `malloc` decides in one `to_message`: where the copies and the array
go, and what the array and the new message's `keys` hold before. -/
structure MessageMem where
  string : Malloc (List UInt8)
  array : Malloc (List Ptr)
  slots : Nat → Ptr
  keys : Ptr

def anyMem : MessageMem := ⟨mallocTop [], mallocTop [], fun _ => none, some 0⟩

/-- NULL stays NULL, and the empty string becomes NULL. -/
def dupNonEmpty (h : Strings) (p : Ptr) (m : Malloc (List UInt8)) : Exec (Ptr × Strings) := do
  match ← strOrNull h p with
  | none => pure (none, h)
  | some s => if s = .empty then pure (none, h) else strdup h p m

def toMessage (mem : Mem) (messageT : Option MessageT) (m : MessageMem) :
    Exec (Option MessageT × Mem) :=
  match messageT with
  | none => pure (none, mem)
  | some messageT => do
    let (data, strings) ← dupNonEmpty mem.strings messageT.data m.string
    let (key, strings) ← dupNonEmpty strings messageT.key m.string
    let nKeys := messageT.nKeys
    let keys := if nKeys = 0 then none else m.keys
    let message : MessageT := { messageT with data, key, nKeys, keys }
    if messageT.keys ≠ none then
      let (array, arrays) := mem.arrays.alloc m.array
      let arrays := arrays.set array (some ((List.range (nKeys + 1)).map m.slots))
      let mem ← dupKeysLoop m.string messageT.keys (some array) nKeys 0 ⟨strings, arrays⟩
      let arrays ← setSlot mem.arrays (some array) nKeys none
      pure (some { message with keys := some array }, { mem with arrays })
    else pure (some message, { mem with strings })

def freeKeysLoop (array : Ptr) : (left i : Nat) → Mem → Exec Mem
  | 0, _, mem => pure mem
  | left + 1, i, mem => do
    let key ← slotAt mem.arrays array i
    let strings ← mem.strings.free key
    freeKeysLoop array left (i + 1) { mem with strings }

/-- All but the block of the message itself. -/
def freeMessage (mem : Mem) (message : MessageT) : Exec Mem := do
  let strings ← mem.strings.free message.data
  let strings ← strings.free message.key
  let mem := { mem with strings }
  if message.nKeys ≠ 0 ∧ message.keys ≠ none then
    let mem ← freeKeysLoop message.keys message.nKeys 0 mem
    let arrays ← mem.arrays.free message.keys
    pure { mem with arrays }
  else pure mem

def releaseMessage (messages : Heap MessageT) (mem : Mem) (p : Ptr) :
    Exec (Heap MessageT × Mem) := do
  let message ← messages.load p
  let mem ← freeMessage mem message
  let messages ← messages.free p
  pure (messages, mem)

-- ---------------------------------------------------------------------------
-- What a message says
-- ---------------------------------------------------------------------------

/-- The content of a message; `none` is NULL. -/
structure Fields where
  opcode : Int
  cType : Int
  dataSize : Int
  data : Option CStr
  key : Option CStr
  keys : List CStr
  unknown : List UInt8
  deriving DecidableEq

def MessageT.keyStrs (mem : Mem) (message : MessageT) : Exec (List CStr) :=
  if message.nKeys = 0 then pure []
  else do
    let slots ← mem.arrays.load message.keys
    if message.nKeys ≤ slots.length then strsAt mem.strings (slots.take message.nKeys)
    else throw .outOfBounds

def MessageT.unknown (mem : Mem) (message : MessageT) : Exec (List UInt8) :=
  if message.base.unknownFields = none then pure []
  else mem.strings.load message.base.unknownFields

/-- What `message_t__get_packed_size` and `message_t__pack` read. -/
def MessageT.fields (mem : Mem) (message : MessageT) : Exec Fields := do
  let data ← strOrNull mem.strings message.data
  let key ← strOrNull mem.strings message.key
  let keys ← message.keyStrs mem
  let unknown ← message.unknown mem
  pure ⟨message.opcode, message.cType, message.dataSize, data, key, keys, unknown⟩

def nonEmpty (s : Option CStr) : Option CStr := if s = some .empty then none else s

def Fields.noEmpty (f : Fields) : Fields :=
  { f with data := nonEmpty f.data, key := nonEmpty f.key }

/-- The numbers fit 32 bits, and there are no unknown fields. -/
structure Fields.Fits (f : Fields) : Prop where
  opcode : IsInt f.opcode
  cType : IsInt f.cType
  dataSize : IsInt f.dataSize
  unknown : f.unknown = []

instance (f : Fields) : Decidable f.Fits :=
  decidable_of_iff (IsInt f.opcode ∧ IsInt f.cType ∧ IsInt f.dataSize ∧ f.unknown = [])
    ⟨fun ⟨ho, hc, hd, hu⟩ => ⟨ho, hc, hd, hu⟩, fun ⟨ho, hc, hd, hu⟩ => ⟨ho, hc, hd, hu⟩⟩

/-- Singular strings come back as strings, the missing ones empty. -/
def Fields.restored (f : Fields) : Fields :=
  { f with data := some (f.data.getD .empty), key := some (f.key.getD .empty) }

/-- The protobuf-c runtime with the code generated for `message_t`: unpacking
undoes packing, and an empty repeated field is a NULL array. -/
structure ProtobufC where
  pack : Fields → List UInt8
  unpack : Mem → List UInt8 → Option (MessageT × Mem)
  unpack_pack : ∀ (mem : Mem) (f : Fields), f.Fits → ∃ messageT mem',
    unpack mem (pack f) = some (messageT, mem') ∧ messageT.fields mem' = .ok f.restored ∧
      messageT.nKeys = f.keys.length ∧ (f.keys = [] → messageT.keys = none)

/-- A message leaves one memory and arrives in another: `to_messageT` and
packing on one side, unpacking and `to_message` on the other. -/
def transfer (pb : ProtobufC) (mem : Mem) (message : MessageT) (copies : Malloc (List UInt8))
    (there : Mem) (m : MessageMem) : Exec (Mem × Option MessageT × Mem) := do
  let (messageT, mem) ← toMessageT mem message copies
  let f ← messageT.fields mem
  match pb.unpack there (pb.pack f) with
  | none => pure (mem, none, there)
  | some (received, there) => do
    let (message, there) ← toMessage there (some received) m
    pure (mem, message, there)

end HashMapStorage
