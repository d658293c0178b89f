import HashMapStorage.Covering
import HashMapStorage.ObjectKeys

/-!
# A table and its caller

The caller makes the arguments of every call of its own memory and releases
them behind it; what `table_get` returns it keeps until it destroys it, and
what `table_get_keys` returns it reads and releases at once. `Shelf` is what
the caller may rely on: a finite map, the copies it holds, and what has leaked.
-/

namespace HashMapStorage

open Machine

structure Storage where
  heap : Heap Obj
  table : Ptr
  copies : List Ptr

inductive StorageCall
  | put (key : CStr) (value : DataT) (m : ObjMem)
  | get (key : CStr) (m : ObjMem)
  | del (key : CStr) (m : ObjMem)
  | size
  | keys (m : ObjMem)
  | release (i : Nat)

inductive StorageReply
  | code (result : Int)
  | copy (data : Option DataT)
  | number (n : Int)
  | keys (keys : List CStr)
  deriving DecidableEq

namespace Objects

def makeData (h : Heap Obj) (value : DataT) (m : ObjMem) : Nat × Heap Obj :=
  match value.data with
  | none => h.place m.malloc (.data ⟨value.datasize, none⟩)
  | some bytes =>
    let (block, h) := h.place m.malloc (.bytes bytes)
    h.place m.malloc (.data ⟨value.datasize, some block⟩)

def readData (h : Heap Obj) (p : Ptr) : Exec (Option DataT) :=
  match p with
  | none => pure none
  | some _ => do
    let d ← load Obj.asData h p
    match d.data with
    | none => pure (some ⟨d.datasize, none⟩)
    | some _ =>
      let bytes ← load Obj.asBytes h d.data
      pure (some ⟨d.datasize, some bytes⟩)

def readKeys (h : Heap Obj) (keys : Ptr) : (fuel i : Nat) → Exec (List CStr)
  | 0, _ => throw .diverges
  | fuel + 1, i => do
    let key ← keyAt h keys i
    if key = none then pure []
    else
      let s ← load Obj.asStr h key
      let others ← readKeys h keys fuel (i + 1)
      pure (s :: others)

def holdsKey (h : Heap Obj) (key : CStr) : (fuel : Nat) → (node : Ptr) → Exec Bool
  | 0, _ => throw .diverges
  | _ + 1, none => pure false
  | fuel + 1, some a => do
    let node ← load Obj.asNode h (some a)
    if key = (← entryKey h node.entrada) then pure true else holdsKey h key fuel node.proximo

def objShape : NodeShape Obj Ptr where
  item o := o.asNode.bind NodeObj.entrada
  next o := o.asNode.bind NodeObj.proximo

/-- A new key would not be linked behind a stale tail, and can be counted. -/
def appendable (h : Heap Obj) (table : Ptr) (key : CStr) : Bool :=
  match (do
    let t ← load Obj.asTable h table
    let i ← hash key t.countLists
    let list ← listAt h t.list i
    let l ← load Obj.asList h list
    let found ← holdsKey h key (h.top + 1) l.head
    pure (t, l, found) : Exec (TableObj × ListT × Bool)) with
  | .ok (t, l, false) =>
    !staleTail objShape h l.head l.tail && decide (IsInt (t.size + 1))
  | _ => true

end Objects

/-- `data_dup` returns NULL for it. -/
def DataT.void (value : DataT) : Prop := value.data = none ∨ value.datasize ≤ 0

instance (value : DataT) : Decidable value.void := inferInstanceAs (Decidable (_ ∨ _))

namespace Storage

def perform (s : Storage) : StorageCall → Exec (StorageReply × Storage)
  | .put key value m => do
    let (k, h) := s.heap.place m.malloc (.str key)
    let (v, h) := Objects.makeData h value m
    let (result, h) ← Objects.tablePut h s.table (some k) (some v) m
    let h ← Objects.dataDestroy h (some v)
    let h ← h.free (some k)
    pure (.code result, { s with heap := h })
  | .get key m => do
    let (k, h) := s.heap.place m.malloc (.str key)
    let (p, h) ← Objects.tableGet h s.table (some k) m
    let h ← h.free (some k)
    let data ← Objects.readData h p
    pure (.copy data, { s with heap := h, copies := if p = none then s.copies else p :: s.copies })
  | .del key m => do
    let (k, h) := s.heap.place m.malloc (.str key)
    let (result, h) ← Objects.tableDel h s.table (some k)
    let h ← h.free (some k)
    pure (.code result, { s with heap := h })
  | .size => do
    let n ← Objects.tableSize s.heap s.table
    pure (.number n, s)
  | .keys m => do
    let (p, h) ← Objects.tableGetKeys s.heap s.table m
    let slots ← Objects.load Obj.asKeys h p
    let keys ← Objects.readKeys h p slots.length 0
    let h ← Objects.tableFreeKeys h p
    pure (.keys keys, { s with heap := h })
  | .release i =>
    match s.copies[i]? with
    | none => pure (.copy none, s)
    | some p => do
      let data ← Objects.readData s.heap p
      let h ← Objects.dataDestroy s.heap p
      pure (.copy data, { s with heap := h, copies := s.copies.eraseIdx i })

def run (s : Storage) : List StorageCall → Exec (List StorageReply × Storage)
  | [] => pure ([], s)
  | call :: calls => do
    let (reply, s) ← s.perform call
    let (replies, s) ← s.run calls
    pure (reply :: replies, s)

def hashes (s : Storage) (key : CStr) : Bool :=
  match Objects.load Obj.asTable s.heap s.table with
  | .ok t => Hashed t.countLists key
  | .error _ => false

/-- The key has a list, and a value fits the structure that its copy is made in
and would not be linked behind a stale tail. -/
def ready (s : Storage) : StorageCall → Bool
  | .put key value _ =>
    value.void || (s.hashes key && value.Valid && value.datasize ≤ sizeofDataT &&
      Objects.appendable s.heap s.table key)
  | .del key _ => s.hashes key
  | .keys _ =>
    match Objects.tableSize s.heap s.table with
    | .ok n => n < intMax
    | .error _ => false
  | _ => true

def runReady (s : Storage) : List StorageCall → Bool
  | [] => true
  | call :: calls =>
    s.ready call &&
      match s.perform call with
      | .ok (_, s) => s.runReady calls
      | .error _ => true

def create (h : Heap Obj) (n : Int) (m : ObjMem) : Exec Storage := do
  let (table, heap) ← Objects.tableCreate h n m
  pure ⟨heap, table, []⟩

end Storage

-- ---------------------------------------------------------------------------
-- What the caller relies on
-- ---------------------------------------------------------------------------

structure Shelf where
  contents : Contents
  copies : List (List UInt8)
  losses : List Loss

namespace Shelf

def empty : Shelf := ⟨noContents, [], []⟩

def after (s : Shelf) : StorageCall → Shelf
  | .put key value _ =>
    { s with
      contents := if value.void then s.contents
        else Function.update s.contents key (some value.bytes)
      losses := Objects.putLoss key value ++ s.losses }
  | .get key _ =>
    match s.contents key with
    | none => s
    | some bytes =>
      { s with copies := bytes :: s.copies, losses := .bytes bytes.length :: s.losses }
  | .del key _ => { s with contents := Function.update s.contents key none }
  | .release i => { s with copies := s.copies.eraseIdx i }
  | .size | .keys _ => s

def afterAll (s : Shelf) (calls : List StorageCall) : Shelf := calls.foldl after s

def Answers (s : Shelf) : StorageCall → StorageReply → Prop
  | .put _ value _, reply => reply = .code (if value.void then -1 else 0)
  | .get key _, reply => ∃ d, reply = .copy d ∧ Returns (s.contents key) d
  | .del key _, reply => reply = .code (if (s.contents key).isSome then 0 else -1)
  | .size, reply => ∃ keys, s.contents.Lists keys ∧ reply = .number keys.length
  | .keys _, reply => ∃ keys, s.contents.Lists keys ∧ reply = .keys keys
  | .release i, reply => ∃ d, reply = .copy d ∧ Returns s.copies[i]? d

def AnswersAll (s : Shelf) : List StorageCall → List StorageReply → Prop
  | [], [] => True
  | call :: calls, reply :: replies =>
    s.Answers call reply ∧ (s.after call).AnswersAll calls replies
  | _, _ => False

end Shelf

end HashMapStorage
