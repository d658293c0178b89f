import HashMapStorage.Data
import HashMapStorage.Machine.Buffer

/-!
# Serialization (`serialization.c`)

A value is packed as its size and its bytes, an entry as its value, the size of
its key and the key with its NUL. A buffer is passed with its block, as long as
it was allocated, and a decoded key is the block it was copied into.
-/

namespace HashMapStorage

open Machine

def sizeofInt : Int := 4

/-- `malloc`, which may fail: a block with these contents. A negative size, a
huge `size_t`, is never available. -/
def mallocBytes (size : Int) (m : Option (Nat → UInt8)) : Option (List UInt8) :=
  if size < 0 then none else m.map fun fill => (List.range size.toNat).map fill

def dataToBuffer (data : Option DataT) (m : Option (Nat → UInt8)) :
    Exec (Int × Option (List UInt8)) :=
  match data with
  | none => pure (-1, none)
  | some data =>
    let bufferSize := toInt (data.datasize + sizeofInt)
    match mallocBytes bufferSize m with
    | none => pure (-1, none)
    | some data_buf => do
      let data_buf ← writeAt data_buf 0 (intBytes data.datasize)
      match data.data with
      | none => throw .nullPointer
      | some block =>
        let bytes ← readAt block 0 data.datasize
        let data_buf ← writeAt data_buf sizeofInt bytes
        pure (bufferSize, some data_buf)

/-- A `malloc` here that fails would be written to; it is given a size that the
copy fills. -/
def bufferToData (data_buf : Option (List UInt8)) (data_buf_size : Int) : Exec (Option DataT) :=
  match data_buf with
  | none => pure none
  | some data_buf =>
    if data_buf_size ≤ 0 then pure none
    else do
      let t ← readInt data_buf 0
      let d ← readAt data_buf sizeofInt t
      pure (dataCreate2 t (some d))

/-- `realloc` fails, leaves the block where it is with these contents behind it,
or moves it: the new address is dropped. -/
inductive Realloc
  | fails
  | inPlace (fill : Nat → UInt8)
  | moves

def entryToBuffer (entry : Option EntryT) (m : Option (Nat → UInt8)) (r : Realloc) :
    Exec (Int × Option (List UInt8)) :=
  match entry with
  | none => pure (-1, none)
  | some entry => do
    let (dataBufferSize, entry_buf) ← dataToBuffer (some entry.value) m
    match entry_buf with
    | none => pure (-1, none)
    | some entry_buf =>
      if dataBufferSize < 0 then pure (-1, some entry_buf)
      else
        let keySize := toInt (entry.key.bytes.length + 1)
        let total := dataBufferSize + keySize + sizeofInt
        match r with
        | .fails => pure (-1, some entry_buf)
        | .moves => throw .dangling
        | .inPlace fill =>
          let grown := (List.range (total.toNat - entry_buf.length)).map fill
          let entry_buf ← writeAt (entry_buf ++ grown) dataBufferSize (intBytes keySize)
          let key ← readAt entry.key.block 0 keySize
          let entry_buf ← writeAt entry_buf (dataBufferSize + sizeofInt) key
          pure (toInt total, some entry_buf)

/-- An entry as `buffer_to_entry` makes it: the key is what was copied, a string
or not. -/
structure DecodedEntry where
  key : List UInt8
  value : DataT
  deriving DecidableEq

def bufferToEntry (entry_buf : Option (List UInt8)) (entry_buf_size : Int) (m : DataMem) :
    Exec (Option DecodedEntry) :=
  match entry_buf with
  | none => pure none
  | some entry_buf =>
    if entry_buf_size ≤ 0 then pure none
    else do
      match ← dataDup (← bufferToData (some entry_buf) entry_buf_size) m with
      | none => pure none
      | some data =>
        let espaco := toInt (sizeofInt + data.datasize)
        -- `espaco` is added to the first number, not to the pointer
        let t ← readInt entry_buf 0
        let tamKey ← checkInt (t + espaco)
        let key ← readAt entry_buf (espaco + sizeofInt) tamKey
        pure (some ⟨key, data⟩)

end HashMapStorage
