import HashMapStorage.Objects
import HashMapStorage.Table

/-!
# The hash table object by object (`table.c`)

A table is reached through pointers all the way: to its structure, from there
to the array of its lists, to each list, node, entry, key and value.
-/

namespace HashMapStorage

open Machine

namespace Objects

def listAt (h : Heap Obj) (lists : Ptr) (i : Int) : Exec Ptr := do
  let lists ← load Obj.asLists h lists
  if i < 0 then throw .outOfBounds
  else
    match lists[i.toNat]? with
    | some list => pure list
    | none => throw .outOfBounds

def setListAt (h : Heap Obj) (lists : Ptr) (i : Nat) (list : Ptr) : Exec (Heap Obj) := do
  let slots ← load Obj.asLists h lists
  if i < slots.length then h.store lists (.lists (slots.set i list)) else throw .outOfBounds

def createLists (lists : Ptr) (m : ObjMem) : (left i : Nat) → Heap Obj → Exec (Heap Obj)
  | 0, _, h => pure h
  | left + 1, i, h => do
    let (list, h) := listCreate h m
    let h ← setListAt h lists i (some list)
    createLists lists m left (i + 1) h

/-- The slots of the array hold nothing until their lists are made. -/
def tableCreate (h : Heap Obj) (n : Int) (m : ObjMem) : Exec (Ptr × Heap Obj) :=
  if n ≤ 0 then pure (none, h)
  else do
    let (table, h) := h.alloc m.malloc
    let (list, h) := h.place m.malloc (.lists (List.replicate n.toNat none))
    let h ← h.store (some table) (.table ⟨some list, 0, n⟩)
    let h ← createLists (some list) m n.toNat 0 h
    pure (some table, h)

def destroyLists (lists : Ptr) : (left i : Nat) → Heap Obj → Exec (Heap Obj)
  | 0, _, h => pure h
  | left + 1, i, h => do
    let list ← listAt h lists i
    let h ← listDestroy h list
    destroyLists lists left (i + 1) h

def tableDestroy (h : Heap Obj) (table : Ptr) : Exec (Heap Obj) :=
  match table with
  | none => pure h
  | some _ => do
    let t ← load Obj.asTable h table
    if t.list = none then pure h
    else
      let h ← destroyLists t.list t.countLists.toNat 0 h
      let h ← h.free t.list
      h.free table

def setTableSize (h : Heap Obj) (table : Ptr) (size : Int) : Exec (Heap Obj) := do
  let t ← load Obj.asTable h table
  h.store table (.table { t with size })

def tableAddEntry (h : Heap Obj) (table : Ptr) (t : TableObj) (newKey key entry : Ptr)
    (m : ObjMem) : Exec (Int × Heap Obj) := do
  let indiceLista ← hash (← load Obj.asStr h newKey) t.countLists
  let list ← listAt h t.list indiceLista
  if (← listGet h list key) ≠ none then
    let (_, h) ← listRemove h list key
    let (_, h) ← listAdd h list entry m
    pure (0, h)
  else
    let (_, h) ← listAdd h list entry m
    let size ← checkInt (t.size + 1)
    let h ← setTableSize h table size
    pure (0, h)

def tablePut (h : Heap Obj) (table key value : Ptr) (m : ObjMem) : Exec (Int × Heap Obj) :=
  if table = none ∨ key = none ∨ value = none then pure (-1, h)
  else do
    let t ← load Obj.asTable h table
    if t.countLists = 0 then pure (-1, h)
    else
      let (newKey, h) ← strdup h key m
      let (newValue, h) ← dataDup h value m
      if newValue = none then pure (-1, h)
      else
        let (entry, h) := entryCreate h (some newKey) newValue m
        if entry = none then
          let h ← entryDestroy h entry
          pure (-1, h)
        else tableAddEntry h table t (some newKey) key entry m

def tableGetLoop (h : Heap Obj) (lists key : Ptr) (m : ObjMem) :
    (left i : Nat) → Exec (Ptr × Heap Obj)
  | 0, _ => pure (none, h)
  | left + 1, i => do
    let list ← listAt h lists i
    let entry ← listGet h list key
    if entry ≠ none then
      let e ← load Obj.asEntry h entry
      dataDup h e.value m
    else tableGetLoop h lists key m left (i + 1)

def tableGet (h : Heap Obj) (table key : Ptr) (m : ObjMem) : Exec (Ptr × Heap Obj) :=
  if table = none ∨ key = none then pure (none, h)
  else do
    let t ← load Obj.asTable h table
    if t.countLists = 0 then pure (none, h)
    else tableGetLoop h t.list key m t.countLists.toNat 0

def tableDel (h : Heap Obj) (table key : Ptr) : Exec (Int × Heap Obj) :=
  if table = none ∨ key = none then pure (-1, h)
  else do
    let t ← load Obj.asTable h table
    if t.countLists = 0 then pure (-1, h)
    else
      let indiceLista ← hash (← load Obj.asStr h key) t.countLists
      let list ← listAt h t.list indiceLista
      if (← listGet h list key) ≠ none then
        let (_, h) ← listRemove h list key
        let size ← checkInt (t.size - 1)
        let h ← setTableSize h table size
        pure (0, h)
      else pure (-1, h)

def tableSize (h : Heap Obj) (table : Ptr) : Exec Int :=
  match table with
  | none => pure (-1)
  | some _ => do
    let t ← load Obj.asTable h table
    pure t.size

/-- The inner loop of `table_get_keys`; an unwritten slot is copied as it is. -/
def moveKeys (finalArray newArray : Ptr) :
    (left j tamanho : Nat) → Heap Obj → Exec (Nat × Heap Obj)
  | 0, _, tamanho, h => pure (tamanho, h)
  | left + 1, j, tamanho, h => do
    let source ← load Obj.asKeys h newArray
    let target ← load Obj.asKeys h finalArray
    match source[j]? with
    | none => throw .outOfBounds
    | some slot =>
      if tamanho < target.length then
        let h ← h.store finalArray (.keys (target.set tamanho slot))
        moveKeys finalArray newArray left (j + 1) (tamanho + 1) h
      else throw .outOfBounds

def tableGetKeysLoop (lists finalArray : Ptr) (m : ObjMem) :
    (left i tamanho : Nat) → Heap Obj → Exec (Heap Obj)
  | 0, _, tamanho, h => setKey h finalArray tamanho none
  | left + 1, i, tamanho, h => do
    let list ← listAt h lists i
    let (newArray, h) ← listGetKeys h list m
    let size ← listSize h list
    let (tamanho, h) ← moveKeys finalArray (some newArray) size.toNat 0 tamanho h
    let h ← h.free (some newArray)
    tableGetKeysLoop lists finalArray m left (i + 1) tamanho h

/-- `table->size` is read before the table is compared with NULL. -/
def tableGetKeys (h : Heap Obj) (table : Ptr) (m : ObjMem) : Exec (Ptr × Heap Obj) := do
  let t ← load Obj.asTable h table
  let slots ← checkInt (t.size + 1)
  let (finalArray, h) := h.place m.malloc (.keys (List.replicate slots.toNat none))
  let h ← tableGetKeysLoop t.list (some finalArray) m t.countLists.toNat 0 0 h
  pure (some finalArray, h)

def tableFreeKeys (h : Heap Obj) (keys : Ptr) : Exec (Heap Obj) := listFreeKeys h keys

end Objects

end HashMapStorage
