import HashMapStorage.Fifo
import HashMapStorage.Machine.System
import HashMapStorage.Message
import HashMapStorage.Table

/-!
# The server's skeleton (`table_skel.c`)

Two threads: the main thread calls `invoke` for one message after the other and
in the end `table_skel_destroy`; the worker runs `process_task`. A step is what
one of them does without the other seeing anything in between: a test of a
shared variable, a lock, the inside of a critical section, a call of a table
function. Where the messages come from, and what the allocator returns, is part
of the step. Outside `invoke` the main thread may do anything to the messages.

A step that is undefined on the queue or on a message is not possible. Where
the worker's call of a table function is undefined, the step names the table
that is left: neither the queue nor the threads depend on it. `table_lock` is
left out, only the worker takes it.
-/

namespace HashMapStorage

open Machine

inductive Thread
  | main
  | worker
  deriving DecidableEq

inductive MainPc
  | idle
  | lock (msg : Nat) (put : Bool)
  | enqueue (msg : Nat) (put : Bool)
  | signal (msg : Nat)
  | unlock (msg : Nat)
  | getKeys (msg : Nat)
  | copyKeys (msg : Nat) (chaves : List Slot)
  | returned (msg : Ptr) (result : Int)
  | clearFlag
  | stopSignal
  | join
  | deleteQueue
  | done
  deriving DecidableEq

inductive WorkerPc
  | test
  | acquire
  | look
  | waiting
  | woken
  | pop
  | execute (task : Nat)
  | finish (task : Nat)
  | leave
  | send
  | done
  deriving DecidableEq

/-- The globals of `table_skel.c` and the two threads. Beside them: whether
`table_destroy` has released the table, what `invoke` was called with last and the
numbers of the tasks that this call has put in the queue, and the numbers of all
tasks put in the queue and of those executed. -/
structure Skel where
  table : Option TableT
  destroyed : Bool
  queue : Fifo
  tasks : Heap TaskT
  lastAssigned : Int
  opCount : Int
  queueLock : Option Thread
  flag : Int
  messageServer : Ptr
  messages : Heap MessageT
  mem : Mem
  main : MainPc
  worker : WorkerPc
  request : Option MessageT
  given : List Int
  accepted : List Int
  executed : List Int

def tableSkelInit (n_lists : Int) (messages : Heap MessageT) (mem : Mem) : Option Skel :=
  if n_lists < 1 then none
  else some
    { table := tableCreate n_lists, destroyed := false
      queue := fifoCreate, tasks := .empty, lastAssigned := 0, opCount := 0
      queueLock := none, flag := 1
      messageServer := none, messages, mem
      main := .idle, worker := .test
      request := none, given := [], accepted := [], executed := [] }

-- ---------------------------------------------------------------------------
-- The branches of `invoke`
-- ---------------------------------------------------------------------------

def placeBlock (h : Strings) (m : Malloc (List UInt8)) : Option (List UInt8) → Ptr × Strings
  | none => (none, h)
  | some block =>
    let (a, h) := h.alloc m
    (some a, h.set a (some block))

/-- What `invoke` does not look at further. The compiler makes the enumerations
unsigned: a negative opcode is above 60, a negative content type is not below 10. -/
def outOfRange (opcode cType : Int) : Prop := opcode < 10 ∨ opcode > 60 ∨ 0 ≤ cType ∧ cType < 10

instance (opcode cType : Int) : Decidable (outOfRange opcode cType) :=
  inferInstanceAs (Decidable (_ ∨ _))

def invokeSize (table : TableT) (msg : MessageT) : MessageT :=
  { msg with opcode := opSize + 1, cType := ctResult, dataSize := tableSize table }

def invokeGet (table : TableT) (mem : Mem) (msg : MessageT) (data : DataMem)
    (string : Malloc (List UInt8)) : Exec (MessageT × Mem) := do
  let key ← strOrNull mem.strings msg.key
  let d ← tableGet table key data
  let msg := { msg with opcode := opGet + 1, cType := ctValue }
  match d with
  | none => pure ({ msg with dataSize := 0, data := none }, mem)
  | some d =>
    let (block, strings) := placeBlock mem.strings string d.data
    pure ({ msg with dataSize := d.datasize, data := block }, { mem with strings })

/-- The loop over `chaves`: the strings before the NULL are copied into the
array from index `i` on. -/
def copyChavesLoop (string : Malloc (List UInt8)) (keys : Ptr) :
    List Slot → (i : Nat) → Mem → Exec Mem
  | [], _, _ => throw .outOfBounds
  | .null :: _, _, mem => pure mem
  | .unset :: _, _, _ => throw .dangling
  | .str key :: chaves, i, mem => do
    let (copy, strings) := newStr mem.strings string key
    let arrays ← setSlot mem.arrays keys i copy
    copyChavesLoop string keys chaves (i + 1) ⟨strings, arrays⟩

/-- The array has as many slots as the table has entries now; `slots` is what
they hold before. -/
def invokeKeys (table : TableT) (mem : Mem) (msg : MessageT) (chaves : List Slot)
    (m : MessageMem) : Exec (MessageT × Mem) := do
  let (array, arrays) := mem.arrays.alloc m.array
  let arrays := arrays.set array (some ((List.range (tableSize table).toNat).map m.slots))
  let mem ← copyChavesLoop m.string (some array) chaves 0 { mem with arrays }
  pure ({ msg with keys := some array }, mem)

def verifyLoop (tasks : Heap TaskT) (op_n : Int) : (fuel : Nat) → (atual : Ptr) → Exec Bool
  | 0, _ => throw .diverges
  | _ + 1, none => pure false
  | fuel + 1, some a => do
    let task ← tasks.load (some a)
    if task.opN = op_n then pure true else verifyLoop tasks op_n fuel task.proximo

def Skel.verify (s : Skel) (op_n : Int) : Exec Int := do
  if ← verifyLoop s.tasks op_n (s.tasks.top + 1) s.queue.head then pure (-1)
  else if op_n ≥ s.opCount ∨ op_n < 0 then pure (-1)
  else pure 0

/-- The task of a PUT or a DEL; a DEL leaves two members as `malloc` did. -/
def newTask (junk : TaskT) (number : Int) (put : Bool) (msg : MessageT) : TaskT :=
  if put then
    { junk with opN := number, op := 1, key := msg.key, data := msg.data, datasize := msg.dataSize }
  else { junk with opN := number, op := 0, key := msg.key }

@[simp] theorem newTask_opN (junk : TaskT) (number : Int) (put : Bool) (msg : MessageT) :
    (newTask junk number put msg).opN = number := by
  cases put <;> rfl

@[simp] theorem newTask_proximo (junk : TaskT) (number : Int) (put : Bool) (msg : MessageT) :
    (newTask junk number put msg).proximo = junk.proximo := by
  cases put <;> rfl

def executeTask (table : TableT) (strings : Strings) (task : TaskT) (m : PutMem) :
    Exec TableT := do
  let key ← strOrNull strings task.key
  if task.op = 0 then
    let (_, table) ← tableDel table key
    pure table
  else
    let data ← blockOrNull strings task.data
    let (_, table) ← tablePut table key (dataCreate2 task.datasize data) m
    pure table

-- ---------------------------------------------------------------------------
-- Steps
-- ---------------------------------------------------------------------------

/-- `outside`: the main thread, outside `invoke`, leaves the messages like this.
`wake`: `pthread_cond_wait` returns without a signal. `sent` tells whether the
writes of `sendMessage` succeed. -/
inductive SkelStep
  | outside (messages : Heap MessageT) (mem : Mem)
  | invoke (msg : Ptr) (data : DataMem) (string : Malloc (List UInt8))
  | lock
  | enqueue (task : Malloc TaskT)
  | signal
  | unlock
  | getKeys
  | copyKeys (m : MessageMem)
  | destroy
  | clearFlag
  | stopSignal
  | join
  | deleteQueue
  | test
  | acquire
  | look
  | wake
  | reacquire
  | pop
  | execute (m : PutMem) (undefined : TableT)
  | finish
  | leave
  | send (string : Malloc (List UInt8)) (sent : Bool)

namespace Skel

def answer (s : Skel) (p : Nat) (msg : MessageT) (mem : Mem) : Skel :=
  { s with messages := s.messages.set p (some msg), mem, main := .returned (some p) 0 }

/-- `invoke` up to the point where it has to wait, or to its end. -/
def invoke (s : Skel) (table : TableT) (p : Nat) (msg : MessageT) (data : DataMem)
    (string : Malloc (List UInt8)) : Exec Skel :=
  if outOfRange msg.opcode msg.cType then
    pure { s with main := .returned (some p) (-1) }
  else
    let s := { s with messageServer := some p }
    if msg.opcode = opSize then pure (s.answer p (invokeSize table msg) s.mem)
    else if msg.opcode = opDel then pure { s with main := .lock p false }
    else if msg.opcode = opGet then do
      let (msg, mem) ← invokeGet table s.mem msg data string
      pure (s.answer p msg mem)
    else if msg.opcode = opPut then pure { s with main := .lock p true }
    else if msg.opcode = opGetkeys then
      let msg : MessageT :=
        { msg with
          opcode := opGetkeys + 1, cType := ctKeys, nKeys := (tableSize table % 2 ^ 64).toNat }
      if tableSize table = 0 then pure (s.answer p { msg with keys := none } s.mem)
      else pure { s with messages := s.messages.set p (some msg), main := .getKeys p }
    else if msg.opcode = opVerify then do
      let verificado ← s.verify msg.dataSize
      let msg := { msg with opcode := opVerify + 1, cType := ctResult, dataSize := verificado }
      pure (s.answer p msg s.mem)
    else
      let msg := { msg with opcode := opError, cType := ctNone }
      pure { s with messages := s.messages.set p (some msg), main := .returned (some p) (-1) }

/-- `sendMessage`; where a write fails it releases the message. -/
def sendMessage (s : Skel) (string : Malloc (List UInt8)) (sent : Bool) : Exec Skel := do
  let msg ← s.messages.load s.messageServer
  let (messageT, mem) ← toMessageT s.mem msg string
  let _ ← messageT.fields mem
  if sent then pure { s with mem }
  else
    let (messages, mem) ← releaseMessage s.messages mem s.messageServer
    pure { s with messages, mem }

def tableAfter (s : Skel) (task : TaskT) (m : PutMem) (undefined : TableT) : Option TableT :=
  s.table.map fun table =>
    if s.destroyed then undefined
    else
      match executeTask table s.mem.strings task m with
      | .ok table => table
      | .error _ => undefined

/-- The inside of the critical section of `invoke`. -/
def enqueue (s : Skel) (p : Nat) (put : Bool) (m : Malloc TaskT) : Exec Skel := do
  let msg ← s.messages.load (some p)
  let task := newTask (m.junk s.tasks) s.lastAssigned put msg
  let (a, tasks) := s.tasks.alloc m
  let (tasks, queue) ← fifoAdd (tasks.set a (some task)) s.queue (some a)
  let opcode := if put then opPut + 1 else opDel + 1
  let msg := { msg with cType := ctNone, opcode, dataSize := s.lastAssigned }
  let lastAssigned ← checkInt (s.lastAssigned + 1)
  pure { s with
    tasks, queue, lastAssigned
    messages := s.messages.set p (some msg)
    main := .signal p
    given := s.given ++ [task.opN]
    accepted := s.accepted ++ [task.opN] }

/-- `pthread_cond_signal`: a signal nobody waits for is lost. -/
def signalled : WorkerPc → WorkerPc
  | .waiting => .woken
  | pc => pc

def mainStep (s : Skel) : SkelStep → Option Skel
  | .outside messages mem =>
    match s.main with
    | .idle | .returned _ _ => some { s with messages, mem, main := .idle }
    | _ => none
  | .invoke msg data string =>
    match s.main, s.table, msg with
    | .idle, some table, some p => do
      let message ← s.messages.cell p
      let s := { s with request := some message, given := [] }
      (s.invoke table p message data string).toOption
    | .idle, _, _ => some { s with request := none, given := [], main := .returned msg (-1) }
    | _, _, _ => none
  | .lock =>
    match s.main, s.queueLock with
    | .lock p put, none => some { s with queueLock := some .main, main := .enqueue p put }
    | _, _ => none
  | .enqueue m =>
    match s.main with
    | .enqueue p put => (s.enqueue p put m).toOption
    | _ => none
  | .signal =>
    match s.main with
    | .signal p => some { s with worker := signalled s.worker, main := .unlock p }
    | _ => none
  | .unlock =>
    match s.main with
    | .unlock p => some { s with queueLock := none, main := .returned (some p) 0 }
    | _ => none
  | .getKeys =>
    match s.main, s.table with
    | .getKeys p, some table => do
      let chaves ← (tableGetKeys table).toOption
      some { s with main := .copyKeys p chaves }
    | _, _ => none
  | .copyKeys m =>
    match s.main, s.table with
    | .copyKeys p chaves, some table => do
      let msg ← s.messages.cell p
      let (msg, mem) ← (invokeKeys table s.mem msg chaves m).toOption
      some (s.answer p msg mem)
    | _, _ => none
  | .destroy =>
    match s.main with
    | .idle | .returned _ _ => some { s with destroyed := s.table.isSome, main := .clearFlag }
    | _ => none
  | .clearFlag =>
    match s.main with
    | .clearFlag => some { s with flag := 0, main := .stopSignal }
    | _ => none
  | .stopSignal =>
    match s.main with
    | .stopSignal => some { s with worker := signalled s.worker, main := .join }
    | _ => none
  | .join =>
    match s.main, s.worker with
    | .join, .done => some { s with main := .deleteQueue }
    | _, _ => none
  | .deleteQueue =>
    match s.main with
    | .deleteQueue => do
      let (tasks, strings) ← (fifoDelete s.tasks s.mem.strings s.queue).toOption
      some { s with tasks, mem := { s.mem with strings }, main := .done }
    | _ => none
  | _ => none

def workerStep (s : Skel) : SkelStep → Option Skel
  | .test =>
    match s.worker with
    | .test => some { s with worker := if s.flag ≠ 0 then .acquire else .send }
    | _ => none
  | .acquire =>
    match s.worker, s.queueLock with
    | .acquire, none => some { s with queueLock := some .worker, worker := .look }
    | _, _ => none
  | .look =>
    match s.worker with
    | .look =>
      if s.queue.size = 0 then some { s with queueLock := none, worker := .waiting }
      else some { s with worker := .pop }
    | _ => none
  | .wake =>
    match s.worker with
    | .waiting => some { s with worker := .woken }
    | _ => none
  | .reacquire =>
    match s.worker, s.queueLock with
    | .woken, none => some { s with queueLock := some .worker, worker := .pop }
    | _, _ => none
  | .pop =>
    match s.worker with
    | .pop =>
      if s.queue.size > 0 ∧ s.queue.head ≠ none then do
        let (task, queue) ← (pop s.tasks s.queue).toOption
        let task ← task
        some { s with queue, worker := .execute task }
      else some { s with worker := .leave }
    | _ => none
  | .execute m undefined =>
    match s.worker with
    | .execute a => do
      let task ← s.tasks.cell a
      some { s with
        table := s.tableAfter task m undefined
        worker := .finish a
        executed := s.executed ++ [task.opN] }
    | _ => none
  | .finish =>
    match s.worker with
    | .finish a => do
      let opCount ← (checkInt (s.opCount + 1)).toOption
      let tasks ← (s.tasks.free (some a)).toOption
      some { s with opCount, tasks, worker := .leave }
    | _ => none
  | .leave =>
    match s.worker with
    | .leave => some { s with queueLock := none, worker := .test }
    | _ => none
  | .send string sent =>
    match s.worker with
    | .send => do
      let s ← (s.sendMessage string sent).toOption
      some { s with worker := .done }
    | _ => none
  | _ => none

def step (s : Skel) (a : SkelStep) : Option Skel := (s.mainStep a).or (s.workerStep a)

end Skel

end HashMapStorage
