import HashMapStorage.Data
import HashMapStorage.Machine.Chain

/-!
# The chained list (`list.c`)

The nodes of all lists live in one heap, which every operation takes and
returns; a list is passed by reference, so its NULL test is its caller's. The
loops follow the chain with the size of the heap as fuel: a walk that outlasts
it goes round a cycle and never ends.
-/

namespace HashMapStorage

open Machine

structure NodeT where
  entrada : EntryT
  proximo : Ptr
  deriving DecidableEq

structure ListT where
  head : Ptr
  tail : Ptr
  size : Int
  deriving DecidableEq, Inhabited

def listCreate : ListT := ⟨none, none, 0⟩

def listGetLoop (h : Heap NodeT) (key : CStr) : (fuel : Nat) → (node : Ptr) → Exec (Option EntryT)
  | 0, _ => throw .diverges
  | _ + 1, none => pure none
  | fuel + 1, some a => do
    let node ← h.load (some a)
    if key = node.entrada.key then pure (some node.entrada)
    else listGetLoop h key fuel node.proximo

def listGet (h : Heap NodeT) (list : ListT) (key : Option CStr) : Exec (Option EntryT) :=
  match key with
  | none => pure none
  | some key => listGetLoop h key (h.top + 1) list.head

def listReplaceLoop (h : Heap NodeT) (entry : EntryT) :
    (fuel : Nat) → (no : Ptr) → Exec (Int × Heap NodeT)
  | 0, _ => throw .diverges
  | _ + 1, none => pure (-1, h)
  | fuel + 1, some a => do
    let no ← h.load (some a)
    if no.entrada.key = entry.key then
      let h ← h.store (some a) { no with entrada := entry }
      pure (0, h)
    else listReplaceLoop h entry fuel no.proximo

/-- `atual->proximo = proximo`, through a pointer that need not be valid. -/
def setProximo (h : Heap NodeT) (atual : Ptr) (proximo : Ptr) : Exec (Heap NodeT) := do
  let node ← h.load atual
  h.store atual { node with proximo }

def listAdd (h : Heap NodeT) (list : ListT) (entry : EntryT) (m : Malloc NodeT) :
    Exec (Int × Heap NodeT × ListT) := do
  match ← listGet h list (some entry.key) with
  | some _ =>
    let (result, h) ← listReplaceLoop h entry (h.top + 1) list.head
    pure (result, h, list)
  | none =>
    let (addNode, h) := h.alloc m
    let h ← h.store (some addNode) ⟨entry, none⟩
    match list.head, list.tail with
    | none, _ =>
      let size ← checkInt (list.size + 1)
      pure (0, h, { list with head := some addNode, size })
    | some head, none =>
      let h ← setProximo h (some head) (some addNode)
      let size ← checkInt (list.size + 1)
      pure (0, h, { list with tail := some addNode, size })
    | some _, some tail =>
      let h ← setProximo h (some tail) (some addNode)
      let size ← checkInt (list.size + 1)
      pure (0, h, { list with tail := some addNode, size })

def listUnlink (h : Heap NodeT) (list : ListT) (atual : Ptr) : Exec (Heap NodeT × ListT) := do
  let node ← h.load atual
  let del ← h.load node.proximo
  let h ← setProximo h atual del.proximo
  let h ← h.free node.proximo
  let size ← checkInt (list.size - 1)
  pure (h, { list with size })

/-- The loop of `list_remove` and what follows it. The loop leaves `atual` one
node before `list->tail`; the code behind it follows `atual->proximo` without
a test. -/
def listRemoveLoop (h : Heap NodeT) (list : ListT) (key : CStr) :
    (fuel : Nat) → (atual : Ptr) → Exec (Int × Heap NodeT × ListT)
  | 0, _ => throw .diverges
  | fuel + 1, atual => do
    let node ← h.load atual
    if node.proximo ≠ list.tail then
      let next ← h.load node.proximo
      if next.entrada.key = key then
        let (h, list) ← listUnlink h list atual
        pure (0, h, list)
      else listRemoveLoop h list key fuel node.proximo
    else
      let next ← h.load node.proximo
      if next.entrada.key = key then
        let (h, list) ← listUnlink h list atual
        pure (0, h, { list with tail := atual })
      else pure (-1, h, list)

def listRemove (h : Heap NodeT) (list : ListT) (key : Option CStr) :
    Exec (Int × Heap NodeT × ListT) :=
  match key, list.head with
  | none, _ => pure (-1, h, list)
  | _, none => pure (-1, h, list)
  | some key, some head => do
    let atual ← h.load (some head)
    if atual.entrada.key = key then
      let h ← h.free (some head)
      let size ← checkInt (list.size - 1)
      pure (0, h, { list with head := atual.proximo, size })
    else listRemoveLoop h list key (h.top + 1) (some head)

/-- A slot of an array of strings: what `malloc` left there, NULL or a string. -/
inductive Slot
  | unset
  | null
  | str (s : CStr)
  deriving DecidableEq

def listGetKeysLoop (h : Heap NodeT) :
    (fuel : Nat) → (node : Ptr) → (rt : List Slot) → (i : Nat) → Exec (List Slot)
  | 0, _, _, _ => throw .diverges
  | _ + 1, none, rt, i => if i < rt.length then pure (rt.set i .null) else throw .outOfBounds
  | fuel + 1, some a, rt, i => do
    let node ← h.load (some a)
    if i < rt.length then
      listGetKeysLoop h fuel node.proximo (rt.set i (.str node.entrada.key)) (i + 1)
    else throw .outOfBounds

/-- An empty list gives an array of one slot that is not written. -/
def listGetKeys (h : Heap NodeT) (list : ListT) : Exec (List Slot) :=
  if list.size = 0 then pure [.unset]
  else do
    let slots ← checkInt (list.size + 1)
    listGetKeysLoop h (h.top + 1) list.head (List.replicate slots.toNat .unset) 0

end HashMapStorage
