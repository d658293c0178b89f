import HashMapStorage.Machine.Deferred
import HashMapStorage.Delivery
import HashMapStorage.Snapshot
import HashMapStorage.Verify

/-!
# What the server does for its clients

To its clients the server is a deferred store: `invoke` numbers the writes, the
worker applies and counts them, and GET, SIZE, GETKEYS and VERIFY say something
about what has been applied or counted so far. Here is that store, and which
event of it a step of the server shows: what goes into the queue, what comes
out of it, and what `invoke` writes into the message it answers.
-/

namespace HashMapStorage

open Machine

-- ---------------------------------------------------------------------------
-- The store
-- ---------------------------------------------------------------------------

/-- The bytes that a PUT asks to store: the first `data_size` of its string and
the NUL behind it. -/
def Fields.value (f : Fields) : Option (List UInt8) :=
  if f.dataSize ≤ 0 then none else f.data.map fun s => s.block.take f.dataSize.toNat

/-- What the write means: a PUT without a key or without a value asks for nothing. -/
def Contents.write (m : Contents) (f : Fields) : Contents :=
  match f.key with
  | none => m
  | some key =>
    if f.opcode = opPut then
      match f.value with
      | none => m
      | some bytes => Function.update m key (some bytes)
    else Function.update m key none

inductive Query
  | get (key : Option CStr)
  | size
  | keys
  deriving DecidableEq

inductive Reply
  | value (bytes : Option (List UInt8))
  | number (n : Int)
  | keys (keys : List CStr)
  deriving DecidableEq

structure Contents.Lists (m : Contents) (keys : List CStr) : Prop where
  nodup : keys.Nodup
  mem : ∀ key, key ∈ keys ↔ (m key).isSome

inductive Contents.Replies (m : Contents) : Query → Reply → Prop
  | get : m.Replies (.get key) (.value (key.bind m))
  | size : m.Lists keys → m.Replies .size (.number keys.length)
  | keys : m.Lists keys → m.Replies .keys (.keys keys)

def tableStore : Store Contents Fields Query Reply := ⟨noContents, Contents.write, Contents.Replies⟩

abbrev Event := DeferredEvent Fields Query Reply

-- ---------------------------------------------------------------------------
-- What steps show
-- ---------------------------------------------------------------------------

namespace Server

def valueOf (s : Server) (msg : MessageT) : Option (List UInt8) :=
  match blockOrNull s.mem.strings msg.data with
  | .ok block => block.map fun block => block.take msg.dataSize.toNat
  | .error _ => none

/-- What the main thread finds out in the first step of `invoke`, and puts into
the message: on a GETKEYS, the number of keys. -/
def answers (s s' : Server) (p : Nat) : List Event :=
  match s'.messages.cell p with
  | none => []
  | some msg =>
    if outOfRange s.received.opcode s.received.cType then []
    else if s.received.opcode = opSize then [.read .size (.number msg.dataSize)]
    else if s.received.opcode = opGet then
      [.read (.get s.received.key) (.value (s'.valueOf msg))]
    else if s.received.opcode = opGetkeys then [.read .size (.number msg.nKeys)]
    else if s.received.opcode = opVerify then
      [.ask s.received.dataSize (decide (msg.dataSize = 0))]
    else []

def shows (s : Server) (a : ServerStep) (s' : Server) : List Event :=
  match a with
  | .skel (.invoke (some p) _ _) => s.answers s' p
  | .skel (.enqueue _) => [.accept s.lastAssigned s.received]
  | .skel .getKeys =>
    match s'.main with
    | .copyKeys _ chaves => [.read .keys (.keys (storedKeys chaves))]
    | _ => []
  | .skel (.execute _ _) => (s'.executed.drop s.executed.length).map .apply
  | .skel .finish => [.confirm s.opCount]
  | _ => []

/-- The blocks of the write that the worker is about to execute have not been
released. -/
def unreleased (s : Server) : ServerStep → Bool
  | .skel (.execute _ _) =>
    match s.worker with
    | .execute a => (s.tasks.cell a).all fun task =>
        (s.writes[task.opN.toNat]?).all fun w => !w.released
    | _ => true
  | _ => true

/-- Each task holds NULL in its link when it is queued. The worker's call of a
table function is defined, on a table and on blocks that are still there, and
links no new key through a stale tail pointer. The blocks are released behind the
reply, so that a write is executed within its own request. -/
def orderly (s : Server) (a : ServerStep) : Bool :=
  s.unreleased a &&
    match a with
    | .skel a => s.toSkel.freshNull a && s.toSkel.worksInPlace a
    | _ => true

-- ---------------------------------------------------------------------------
-- Blocks that stay as they are
-- ---------------------------------------------------------------------------

end Server

def HoldsStr (h : Strings) (p : Ptr) (s : Option CStr) : Prop :=
  blockOrNull h p = .ok (s.map CStr.block)

theorem HoldsStr.read (hs : HoldsStr h p s) : strOrNull h p = .ok s := strOrNull_block hs

theorem HoldsStr.grows (hs : HoldsStr h p s) (hg : h.Grows h') : HoldsStr h' p s :=
  blockOrNull_grows hg hs

theorem HoldsStr.thinned (hs : HoldsStr h p s) (hg : Heap.Grows h' h) (hf : freed h' p = false) :
    HoldsStr h' p s := by
  rw [HoldsStr, blockOrNull_frame, hs]
  rintro a rfl
  cases hc : h'.cell a with
  | none => simp [freed, hc] at hf
  | some block => exact (hg a block hc).symm

theorem placeStr_holds (h : Strings) (m : Malloc (List UInt8)) (s : Option CStr) :
    HoldsStr (placeStr h m s).2 (placeStr h m s).1 s := by
  cases s with
  | none => rfl
  | some s =>
    obtain ⟨-, hload⟩ := newStr_spec h m s
    obtain ⟨a, ha, hc⟩ := Heap.load_ok hload
    simp only [placeStr] at ha ⊢
    rw [ha, HoldsStr, blockOrNull, Heap.load_some hc]
    rfl

theorem placeMessage_holds (mem : Mem) (f : Fields) (m : MessageMem) :
    let message := (placeMessage mem f m).1
    let strings := (placeMessage mem f m).2.strings
    HoldsStr strings message.key f.key ∧ HoldsStr strings message.data f.data ∧
      message.cType = f.cType := by
  have hdata := placeStr_holds mem.strings m.string f.data
  have hkey := placeStr_holds (placeStr mem.strings m.string f.data).2 m.string f.key
  obtain ⟨hg, -⟩ := placeStr_spec (placeStr mem.strings m.string f.data).2 m.string f.key
  unfold placeMessage
  dsimp only
  split
  · exact ⟨hkey, hdata.grows hg, rfl⟩
  · obtain ⟨hg', -⟩ := newStrs_spec m.string
      (placeStr (placeStr mem.strings m.string f.data).2 m.string f.key).2 f.keys
    exact ⟨hkey.grows hg', (hdata.grows hg).grows hg', rfl⟩

theorem free_thins {h h' : Heap α} (hf : h.free p = .ok h') : Heap.Grows h' h := by
  intro a v hc
  cases p with
  | none =>
    cases hf
    exact hc
  | some b =>
    obtain ⟨-, rfl⟩ := Heap.free_ok hf
    have hne : a ≠ b := by
      rintro rfl
      rw [Heap.set_cell] at hc
      cases hc
    rwa [Heap.set_cell_ne _ _ hne] at hc

theorem freeKeysLoop_thins (h : freeKeysLoop array left i mem = .ok mem') :
    Heap.Grows mem'.strings mem.strings := by
  induction left generalizing i mem with
  | zero =>
    cases h
    exact .refl _
  | succ left ih =>
    obtain ⟨key, -, h⟩ := seq_ok h
    obtain ⟨strings, hfree, h⟩ := seq_ok h
    exact (ih h).trans (free_thins hfree)

theorem freeMessage_thins {message : MessageT} (h : freeMessage mem message = .ok mem') :
    Heap.Grows mem'.strings mem.strings := by
  obtain ⟨strings₁, hfree₁, h⟩ := seq_ok h
  obtain ⟨strings₂, hfree₂, h⟩ := seq_ok h
  have hthins := (free_thins hfree₂).trans (free_thins hfree₁)
  dsimp only at h
  split at h
  · obtain ⟨mem₂, hloop, h⟩ := seq_ok h
    obtain ⟨arrays, -, h⟩ := seq_ok h
    cases h
    exact (freeKeysLoop_thins hloop).trans hthins
  · cases h
    exact hthins

theorem releaseMessage_thins (h : releaseMessage messages mem p = .ok (messages', mem')) :
    Heap.Grows mem'.strings mem.strings := by
  obtain ⟨message, -, h⟩ := seq_ok h
  obtain ⟨mem₁, hmem, h⟩ := seq_ok h
  obtain ⟨messages₁, -, h⟩ := seq_ok h
  cases h
  exact freeMessage_thins hmem

/-- The write's blocks are there, as they were received. -/
structure Write.Whole (w : Write) (h : Strings) : Prop where
  key : HoldsStr h w.key w.request.key
  data : HoldsStr h w.data w.request.data

theorem Write.Whole.grows {w : Write} (hw : w.Whole h) (hg : h.Grows h') : w.Whole h' :=
  ⟨hw.key.grows hg, hw.data.grows hg⟩

theorem Write.Whole.thinned {w : Write} (hw : w.Whole h) (hg : Heap.Grows h' h)
    (hr : (w.after h').released = false) : w.Whole h' := by
  simp only [Write.after, Bool.or_eq_false_iff] at hr
  exact ⟨hw.key.thinned hg hr.1.2, hw.data.thinned hg hr.2⟩

namespace Server

/-- The worker executes a write whose blocks have been released, and they still hold
what was received: in a memory that has them beside all that is allocated the call
is defined and links no new key through a stale tail pointer, and it leaves the
table that the step leaves. -/
def outlasts (s : Server) : ServerStep → Prop
  | .skel (.execute m undefined) =>
    s.destroyed = false ∧ ∃ a task w table strings table', s.worker = .execute a ∧
      s.tasks.cell a = some task ∧ s.writes[task.opN.toNat]? = some w ∧ s.table = some table ∧
      s.mem.strings.Grows strings ∧ w.Whole strings ∧ task.linkable table strings = true ∧
      executeTask table strings task m = .ok table' ∧
      s.tableAfter task m undefined = some table'
  | _ => False

/-- The worker's calls find what they need: it is there, or it has been released and
nothing has been put in its place. -/
def lasting (s : Server) (a : ServerStep) : Prop := s.orderly a = true ∨ s.outlasts a

end Server

end HashMapStorage
