import HashMapStorage.Skel
import HashMapStorage.TableRuns

/-!
# The client's stub (`client_stub.c`)

`rtable_put` and `rtable_get`: the request each makes, its way to the server,
and what `rtable_get` makes of the response. An `Exchange` puts a value and
later asks for it; in between the worker executes the put and other calls on
the table follow.
-/

namespace HashMapStorage

open Machine

/-- The request of `rtable_put`; it returns -1 where the checks fail. -/
def putRequest (key : Ptr) (datasize : Int) (data : Ptr) : Option MessageT :=
  let request : MessageT := ⟨⟨none⟩, opPut, ctEntry, datasize, data, key, 0, none⟩
  if request.key = none ∨ request.data = none ∨ request.dataSize < 0 then none else some request

def getRequest (key : Ptr) : Option MessageT :=
  if key = none then none else some ⟨⟨none⟩, opGet, ctKey, 0, none, key, 0, none⟩

structure TripMem where
  made : MessageMem
  copies : Malloc (List UInt8)
  received : MessageMem

/-- `to_message` on the request, then `network_send_receive` up to the server. -/
def sendRequest (pb : ProtobufC) (client : Mem) (request : MessageT) (there : Mem) (t : TripMem) :
    Exec (Mem × Option MessageT × Mem) := do
  let (message, client) ← toMessage client (some request) t.made
  match message with
  | none => pure (client, none, there)
  | some message => transfer pb client message t.copies there t.received

/-- `rtable_get` from the response on; a missing response is written to. -/
def getResult (client : Mem) (response : Option MessageT) (m : DataMem) : Exec (Option DataT) :=
  match response with
  | none => throw .nullPointer
  | some response =>
    if response.dataSize > 0 then do
      let data ← blockOrNull client.strings response.data
      dataDup (dataCreate2 response.dataSize data) m
    else pure (dataCreate2 1 (some CStr.empty.block))

def MessageT.asks (msg : MessageT) (opcode : Int) : Prop :=
  ¬ outOfRange msg.opcode msg.cType ∧ msg.opcode = opcode

instance (msg : MessageT) (opcode : Int) : Decidable (msg.asks opcode) :=
  inferInstanceAs (Decidable (_ ∧ _))

-- ---------------------------------------------------------------------------
-- A value put and asked for
-- ---------------------------------------------------------------------------

/-- The memories of the callers of `rtable_put` and `rtable_get` and of the server
when their requests arrive, what becomes of its strings until the worker executes
the task (`meanwhile`), and the calls on the table from then to the second request. -/
structure Exchange where
  writer : Mem
  key : Ptr
  datasize : Int
  data : Ptr
  sent : TripMem
  server : Mem
  meanwhile : Strings → Strings
  junk : TaskT
  number : Int
  stored : PutMem
  between : List TableOp
  reader : Mem
  name : Ptr
  asked : TripMem
  serving : Mem
  found : DataMem
  answer : Malloc (List UInt8)
  replied : Malloc (List UInt8)
  received : MessageMem
  result : DataMem

namespace Exchange

/-- `rtable_put`, its task, and the table the worker leaves. -/
def put (x : Exchange) (pb : ProtobufC) (table : TableT) : Exec TableT :=
  match putRequest x.key x.datasize x.data with
  | none => pure table
  | some request => do
    let (_, message, server) ← sendRequest pb x.writer request x.server x.sent
    match message with
    | none => pure table
    | some message =>
      if message.asks opPut then
        executeTask table (x.meanwhile server.strings) (newTask x.junk x.number true message)
          x.stored
      else pure table

def reply (x : Exchange) (pb : ProtobufC) (client server : Mem) (message : MessageT) :
    Exec (Option DataT) := do
  let (_, response, client) ← transfer pb server message x.replied client x.received
  getResult client response x.result

def get (x : Exchange) (pb : ProtobufC) (table : TableT) : Exec (Option DataT) :=
  match getRequest x.name with
  | none => pure none
  | some request => do
    let (client, message, server) ← sendRequest pb x.reader request x.serving x.asked
    match message with
    | none => getResult client none x.result
    | some message =>
      if message.asks opGet then do
        let (message, server) ← invokeGet table server message x.found x.answer
        x.reply pb client server message
      else getResult client none x.result

def run (x : Exchange) (pb : ProtobufC) (table : TableT) : Exec (Option DataT) := do
  let table ← x.put pb table
  let (_, table) ← table.run x.between
  x.get pb table

def Returns (x : Exchange) (pb : ProtobufC) (table : TableT) (bytes : List UInt8) : Prop :=
  ∃ d, x.run pb table = .ok (some d) ∧ d.datasize = x.datasize ∧ d.bytes = bytes

end Exchange

end HashMapStorage
