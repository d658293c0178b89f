import HashMapStorage.NodeList
import HashMapStorage.Machine.Ledger

/-!
# The storage object by object (`data.c`, `entry.c`, `list.c`)

Every structure, string and array is an object of one heap, reached through
pointers that may dangle; what a function allocates and releases it allocates
and releases there. The functions are those that `Data` and `NodeList` model
on values, under the same names in the namespace `Objects`.
-/

namespace HashMapStorage

open Machine

structure DataObj where
  datasize : Int
  data : Ptr

structure EntryObj where
  key : Ptr
  value : Ptr

structure NodeObj where
  entrada : Ptr
  proximo : Ptr

structure TableObj where
  list : Ptr
  size : Int
  countLists : Int

/-- What a block of the heap holds; in an array of keys `none` is a slot that was not
written. -/
inductive Obj
  | bytes (bytes : List UInt8)
  | str (s : CStr)
  | data (data : DataObj)
  | entry (entry : EntryObj)
  | node (node : NodeObj)
  | list (list : ListT)
  | lists (lists : List Ptr)
  | table (table : TableObj)
  | keys (keys : List (Option Ptr))

namespace Obj

def asBytes : Obj → Option (List UInt8)
  | .bytes b => some b
  | _ => none

def asData : Obj → Option DataObj
  | .data b => some b
  | _ => none

def asStr : Obj → Option CStr
  | .str s => some s
  | _ => none

def asEntry : Obj → Option EntryObj
  | .entry b => some b
  | _ => none

def asNode : Obj → Option NodeObj
  | .node b => some b
  | _ => none

def asList : Obj → Option ListT
  | .list b => some b
  | _ => none

def asLists : Obj → Option (List Ptr)
  | .lists b => some b
  | _ => none

def asTable : Obj → Option TableObj
  | .table b => some b
  | _ => none

def asKeys : Obj → Option (List (Option Ptr))
  | .keys b => some b
  | _ => none

end Obj

/-- What `malloc` decides in one call: the addresses, and what the padding of a
structure and a block of bytes hold already. -/
structure ObjMem where
  malloc : Malloc Obj
  pad : List UInt8
  pad_length : pad.length = 4
  fill : Nat → UInt8

/-- An address as it lies in memory (addresses of user space have 47 bits). -/
def userAddress (a : Nat) : Nat := a % 2 ^ 47

def Obj.image (m : ObjMem) : Obj → Option (List UInt8)
  | .bytes b => some b
  | .data d => some (intBytes d.datasize ++ m.pad ++ natBytes 8 ((d.data.map userAddress).getD 0))
  | _ => none

namespace Objects

/-- Reads an object as `as` has it; one of another type is as bad as none. -/
def load (as : Obj → Option β) (h : Heap Obj) (p : Ptr) : Exec β := do
  match as (← h.load p) with
  | some v => pure v
  | none => throw .dangling

-- ---------------------------------------------------------------------------
-- data.c
-- ---------------------------------------------------------------------------

def dataCreate (h : Heap Obj) (size : Int) (m : ObjMem) : Exec (Ptr × Heap Obj) :=
  if size ≤ 0 then pure (none, h)
  else do
    let (pointer, h) := h.alloc m.malloc
    let (data, h) := h.place m.malloc (.bytes ((List.range size.toNat).map m.fill))
    let h ← h.store (some pointer) (.data ⟨size, some data⟩)
    pure (some pointer, h)

def dataDestroy (h : Heap Obj) (data : Ptr) : Exec (Heap Obj) :=
  match data with
  | none => pure h
  | some _ => do
    let d ← load Obj.asData h data
    let h ← h.free d.data
    h.free data

def copyBytes (h : Heap Obj) (dst src : Ptr) (n : Nat) (m : ObjMem) : Exec (Heap Obj) := do
  let source ← load (Obj.image m) h src
  let target ← load (Obj.image m) h dst
  let bytes ← memcpy target source n
  h.store dst (.bytes bytes)

def dataDup (h : Heap Obj) (data : Ptr) (m : ObjMem) : Exec (Ptr × Heap Obj) :=
  match data with
  | none => pure (none, h)
  | some _ => do
    let d ← load Obj.asData h data
    if d.data = none ∨ d.datasize ≤ 0 then pure (none, h)
    else
      let (pointer, h) := h.alloc m.malloc
      let (created, h) ← dataCreate h d.datasize m
      if created = none then pure (none, h)
      else
        -- `pointer->data` is the structure just created, not its block
        let h ← h.store (some pointer) (.data ⟨d.datasize, created⟩)
        let h ← copyBytes h created d.data d.datasize.toNat m
        pure (some pointer, h)

-- ---------------------------------------------------------------------------
-- entry.c
-- ---------------------------------------------------------------------------

def entryCreate (h : Heap Obj) (key data : Ptr) (m : ObjMem) : Ptr × Heap Obj :=
  if key = none ∨ data = none then (none, h)
  else
    let (entry, h) := h.place m.malloc (.entry ⟨key, data⟩)
    (some entry, h)

def entryDestroy (h : Heap Obj) (entry : Ptr) : Exec (Heap Obj) :=
  match entry with
  | none => pure h
  | some _ => do
    let e ← load Obj.asEntry h entry
    let h ← dataDestroy h e.value
    let h ← h.free e.key
    h.free entry

def strdup (h : Heap Obj) (s : Ptr) (m : ObjMem) : Exec (Nat × Heap Obj) := do
  let s ← load Obj.asStr h s
  pure (h.place m.malloc (.str s))

def entryDup (h : Heap Obj) (entry : Ptr) (m : ObjMem) : Exec (Ptr × Heap Obj) :=
  match entry with
  | none => pure (none, h)
  | some _ => do
    let e ← load Obj.asEntry h entry
    let (result, h) := h.alloc m.malloc
    let (key, h) ← strdup h e.key m
    let (value, h) ← dataDup h e.value m
    let h ← h.store (some result) (.entry ⟨some key, value⟩)
    pure (some result, h)

-- ---------------------------------------------------------------------------
-- list.c
-- ---------------------------------------------------------------------------

def listCreate (h : Heap Obj) (m : ObjMem) : Nat × Heap Obj :=
  h.place m.malloc (.list ⟨none, none, 0⟩)

def entryKey (h : Heap Obj) (entry : Ptr) : Exec CStr := do
  let e ← load Obj.asEntry h entry
  load Obj.asStr h e.key

def listGetLoop (h : Heap Obj) (key : Ptr) : (fuel : Nat) → (node : Ptr) → Exec Ptr
  | 0, _ => throw .diverges
  | _ + 1, none => pure none
  | fuel + 1, some a => do
    let node ← load Obj.asNode h (some a)
    if (← load Obj.asStr h key) = (← entryKey h node.entrada) then pure node.entrada
    else listGetLoop h key fuel node.proximo

def listGet (h : Heap Obj) (list key : Ptr) : Exec Ptr :=
  if list = none ∨ key = none then pure none
  else do
    let l ← load Obj.asList h list
    listGetLoop h key (h.top + 1) l.head

def listReplaceLoop (h : Heap Obj) (entry : Ptr) :
    (fuel : Nat) → (no : Ptr) → Exec (Int × Heap Obj)
  | 0, _ => throw .diverges
  | _ + 1, none => pure (-1, h)
  | fuel + 1, some a => do
    let no ← load Obj.asNode h (some a)
    if (← entryKey h no.entrada) = (← entryKey h entry) then
      let h ← entryDestroy h no.entrada
      let h ← h.store (some a) (.node { no with entrada := entry })
      pure (0, h)
    else listReplaceLoop h entry fuel no.proximo

def setProximo (h : Heap Obj) (atual proximo : Ptr) : Exec (Heap Obj) := do
  let node ← load Obj.asNode h atual
  h.store atual (.node { node with proximo })

def listAdd (h : Heap Obj) (list entry : Ptr) (m : ObjMem) : Exec (Int × Heap Obj) :=
  if list = none ∨ entry = none then pure (-1, h)
  else do
    let e ← load Obj.asEntry h entry
    let l ← load Obj.asList h list
    if (← listGet h list e.key) ≠ none then listReplaceLoop h entry (h.top + 1) l.head
    else
      let (addNode, h) := h.place m.malloc (.node ⟨entry, none⟩)
      match l.head, l.tail with
      | none, _ =>
        let size ← checkInt (l.size + 1)
        let h ← h.store list (.list { l with head := some addNode, size })
        pure (0, h)
      | some head, none =>
        let h ← setProximo h (some head) (some addNode)
        let size ← checkInt (l.size + 1)
        let h ← h.store list (.list { l with tail := some addNode, size })
        pure (0, h)
      | some _, some tail =>
        let h ← setProximo h (some tail) (some addNode)
        let size ← checkInt (l.size + 1)
        let h ← h.store list (.list { l with tail := some addNode, size })
        pure (0, h)

def listUnlink (h : Heap Obj) (atual : Ptr) : Exec (Heap Obj) := do
  let node ← load Obj.asNode h atual
  let del ← load Obj.asNode h node.proximo
  let h ← setProximo h atual del.proximo
  let del ← load Obj.asNode h node.proximo
  let h ← entryDestroy h del.entrada
  h.free node.proximo

def listRemoveLoop (h : Heap Obj) (list : Ptr) (l : ListT) (key : Ptr) :
    (fuel : Nat) → (atual : Ptr) → Exec (Int × Heap Obj)
  | 0, _ => throw .diverges
  | fuel + 1, atual => do
    let node ← load Obj.asNode h atual
    if node.proximo ≠ l.tail then
      let next ← load Obj.asNode h node.proximo
      if (← entryKey h next.entrada) = (← load Obj.asStr h key) then
        let h ← listUnlink h atual
        let size ← checkInt (l.size - 1)
        let h ← h.store list (.list { l with size })
        pure (0, h)
      else listRemoveLoop h list l key fuel node.proximo
    else
      let next ← load Obj.asNode h node.proximo
      if (← entryKey h next.entrada) = (← load Obj.asStr h key) then
        let h ← listUnlink h atual
        let size ← checkInt (l.size - 1)
        let h ← h.store list (.list { l with size, tail := atual })
        pure (0, h)
      else pure (-1, h)

def listRemove (h : Heap Obj) (list key : Ptr) : Exec (Int × Heap Obj) :=
  if list = none ∨ key = none then pure (-1, h)
  else do
    let l ← load Obj.asList h list
    match l.head with
    | none => pure (-1, h)
    | some head =>
      let atual ← load Obj.asNode h (some head)
      if (← entryKey h atual.entrada) = (← load Obj.asStr h key) then
        let h ← entryDestroy h atual.entrada
        let h ← h.free (some head)
        let size ← checkInt (l.size - 1)
        let h ← h.store list (.list { l with head := atual.proximo, size })
        pure (0, h)
      else listRemoveLoop h list l key (h.top + 1) (some head)

def listDestroyLoop : (fuel : Nat) → (atual : Ptr) → Heap Obj → Exec (Heap Obj)
  | 0, _, _ => throw .diverges
  | _ + 1, none, h => pure h
  | fuel + 1, some a, h => do
    let atual ← load Obj.asNode h (some a)
    let h ← entryDestroy h atual.entrada
    let h ← h.free (some a)
    listDestroyLoop fuel atual.proximo h

def listDestroy (h : Heap Obj) (list : Ptr) : Exec (Heap Obj) := do
  let l ← load Obj.asList h list
  let h ← listDestroyLoop (h.top + 1) l.head h
  h.free list

def listSize (h : Heap Obj) (list : Ptr) : Exec Int := do
  let l ← load Obj.asList h list
  pure l.size

def setKey (h : Heap Obj) (keys : Ptr) (i : Nat) (key : Ptr) : Exec (Heap Obj) := do
  let slots ← load Obj.asKeys h keys
  if i < slots.length then h.store keys (.keys (slots.set i (some key)))
  else throw .outOfBounds

def listGetKeysLoop (m : ObjMem) (rt : Ptr) :
    (fuel : Nat) → (node : Ptr) → (i : Nat) → Heap Obj → Exec (Heap Obj)
  | 0, _, _, _ => throw .diverges
  | _ + 1, none, i, h => setKey h rt i none
  | fuel + 1, some a, i, h => do
    let node ← load Obj.asNode h (some a)
    let e ← load Obj.asEntry h node.entrada
    let (key, h) ← strdup h e.key m
    let h ← setKey h rt i (some key)
    listGetKeysLoop m rt fuel node.proximo (i + 1) h

/-- A NULL or empty list gives an array of one slot that is not written. -/
def listGetKeys (h : Heap Obj) (list : Ptr) (m : ObjMem) : Exec (Nat × Heap Obj) :=
  match list with
  | none => pure (h.place m.malloc (.keys [none]))
  | some _ => do
    let l ← load Obj.asList h list
    if l.size = 0 then pure (h.place m.malloc (.keys [none]))
    else
      let slots ← checkInt (l.size + 1)
      let (rt, h) := h.place m.malloc (.keys (List.replicate slots.toNat none))
      let h ← listGetKeysLoop m (some rt) (h.top + 1) l.head 0 h
      pure (rt, h)

/-- `keys[i]`; a slot that was not written holds no pointer to go by. -/
def keyAt (h : Heap Obj) (keys : Ptr) (i : Nat) : Exec Ptr := do
  let slots ← load Obj.asKeys h keys
  match slots[i]? with
  | some (some key) => pure key
  | some none => throw .dangling
  | none => throw .outOfBounds

def listFreeKeysLoop (keys : Ptr) : (fuel : Nat) → (i : Nat) → Heap Obj → Exec (Heap Obj)
  | 0, _, _ => throw .diverges
  | fuel + 1, i, h => do
    let key ← keyAt h keys i
    if key = none then pure h
    else
      let h ← h.free key
      listFreeKeysLoop keys fuel (i + 1) h

def listFreeKeys (h : Heap Obj) (keys : Ptr) : Exec (Heap Obj) := do
  let slots ← load Obj.asKeys h keys
  let h ← listFreeKeysLoop keys (slots.length + 1) 0 h
  h.free keys

end Objects

end HashMapStorage
