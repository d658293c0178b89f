import HashMapStorage.NodeList

/-!
# The hash table (`table.c`)

A table is passed by reference like a list; its keys and values may still be
NULL. The array of lists is as long as `countLists` says from `table_create`
on, so a bucket index is good when it is in range for the array.
-/

namespace HashMapStorage

open Machine

structure TableT where
  list : List ListT
  size : Int
  countLists : Int
  counted : countLists = list.length
  nodes : Heap NodeT

def tableCreate (n : Int) : Option TableT :=
  if h : n ≤ 0 then none
  else some
    { list := List.replicate n.toNat listCreate, size := 0, countLists := n
      counted := by rw [List.length_replicate]; omega
      nodes := .empty }

def hashLoop : (count : Int) → List UInt8 → Exec Int
  | count, [] => pure count
  | count, b :: key => do
    let count ← checkInt (count + charValue b)
    hashLoop count key

/-- The remainder is C's: it has the sign of the sum. -/
def hash (key : CStr) (size : Int) : Exec Int := do
  let count ← hashLoop 0 key.bytes
  pure (count.tmod size)

namespace TableT

def listAt (table : TableT) (i : Int) : Exec ListT :=
  if i < 0 then throw .outOfBounds
  else
    match table.list[i.toNat]? with
    | some list => pure list
    | none => throw .outOfBounds

def setList (table : TableT) (i : Int) (nodes : Heap NodeT) (list : ListT) : TableT :=
  { table with
    list := table.list.set i.toNat list
    counted := by simp [table.counted]
    nodes }

end TableT

structure PutMem where
  data : DataMem
  node : Malloc NodeT

def tablePut (table : TableT) (key : Option CStr) (value : Option DataT) (m : PutMem) :
    Exec (Int × TableT) :=
  match key, value with
  | some key, some value =>
    if table.countLists = 0 then pure (-1, table)
    else do
      match entryCreate (some key) (← dataDup (some value) m.data) with
      | none => pure (-1, table)
      | some entry =>
        let indiceLista ← hash key table.countLists
        let list ← table.listAt indiceLista
        match ← listGet table.nodes list (some key) with
        | some _ =>
          let (_, nodes, list) ← listRemove table.nodes list (some key)
          let (_, nodes, list) ← listAdd nodes list entry m.node
          pure (0, table.setList indiceLista nodes list)
        | none =>
          let (_, nodes, list) ← listAdd table.nodes list entry m.node
          let size ← checkInt (table.size + 1)
          pure (0, { table.setList indiceLista nodes list with size })
  | _, _ => pure (-1, table)

def tableGetLoop (h : Heap NodeT) (key : CStr) (m : DataMem) : List ListT → Exec (Option DataT)
  | [] => pure none
  | list :: rest => do
    match ← listGet h list (some key) with
    | some entry => dataDup (some entry.value) m
    | none => tableGetLoop h key m rest

def tableGet (table : TableT) (key : Option CStr) (m : DataMem) : Exec (Option DataT) :=
  match key with
  | none => pure none
  | some key =>
    if table.countLists = 0 then pure none
    else tableGetLoop table.nodes key m table.list

def tableDel (table : TableT) (key : Option CStr) : Exec (Int × TableT) :=
  match key with
  | none => pure (-1, table)
  | some key =>
    if table.countLists = 0 then pure (-1, table)
    else do
      let indiceLista ← hash key table.countLists
      let list ← table.listAt indiceLista
      match ← listGet table.nodes list (some key) with
      | some _ =>
        let (_, nodes, list) ← listRemove table.nodes list (some key)
        let size ← checkInt (table.size - 1)
        pure (0, { table.setList indiceLista nodes list with size })
      | none => pure (-1, table)

def tableSize (table : TableT) : Int := table.size

/-- The inner loop of `table_get_keys`: `left` slots of `newArray` from `j` on
are copied into `finalArray` from `tamanho` on. -/
def copyKeysLoop (newArray : List Slot) :
    (left j : Nat) → (finalArray : List Slot) → (tamanho : Nat) → Exec (List Slot × Nat)
  | 0, _, finalArray, tamanho => pure (finalArray, tamanho)
  | left + 1, j, finalArray, tamanho =>
    match newArray[j]? with
    | none => throw .outOfBounds
    | some slot =>
      if tamanho < finalArray.length then
        copyKeysLoop newArray left (j + 1) (finalArray.set tamanho slot) (tamanho + 1)
      else throw .outOfBounds

def tableGetKeysLoop (h : Heap NodeT) :
    List ListT → (finalArray : List Slot) → (tamanho : Nat) → Exec (List Slot)
  | [], finalArray, tamanho =>
    if tamanho < finalArray.length then pure (finalArray.set tamanho .null)
    else throw .outOfBounds
  | list :: rest, finalArray, tamanho => do
    let newArray ← listGetKeys h list
    let (finalArray, tamanho) ← copyKeysLoop newArray list.size.toNat 0 finalArray tamanho
    tableGetKeysLoop h rest finalArray tamanho

def tableGetKeys (table : TableT) : Exec (List Slot) := do
  let slots ← checkInt (table.size + 1)
  tableGetKeysLoop table.nodes table.list (List.replicate slots.toNat .unset) 0

end HashMapStorage
