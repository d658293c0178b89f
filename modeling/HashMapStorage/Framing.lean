import HashMapStorage.Machine.System
import HashMapStorage.Machine.Word

/-!
# Framing on a connection (`write_all`, `read_all`)

A message travels as its length, a native `int`, and its bytes. `write_all` and
`read_all` repeat a system call that may transfer less than asked for; how much
each call transfers, and whether it fails, is the schedule's. The system here
is one side that sends a list of messages (`network_send`), the bytes under
way, and the other side that receives as many (`network_receive`).
-/

namespace HashMapStorage

open Machine

/-- A number of bytes, or -1 with EINTR in `errno` or with anything else there. -/
inductive IoResult
  | count (n : Nat)
  | interrupted
  | error
  deriving DecidableEq

def IoResult.transferred : IoResult → Nat
  | .count n => n
  | _ => 0

-- ---------------------------------------------------------------------------
-- The two loops
-- ---------------------------------------------------------------------------

inductive Iteration (σ : Type)
  | continues (loop : σ)
  | returns (value : Int)

structure WriteAll where
  bufsize : Int
  buf : List UInt8
  len : Int
  deriving DecidableEq

def writeAll (buf : List UInt8) : WriteAll := ⟨buf.length, buf, buf.length⟩

def WriteAll.body (loop : WriteAll) : IoResult → Iteration WriteAll
  | .interrupted => .continues loop
  | .error => .returns (-1)
  | .count res => .continues { loop with buf := loop.buf.drop res, len := loop.len - res }

/-- The variables of `read_all`; `stored` is what lies before the pointer, and
`null` tells that the pointer was set to 0. -/
structure ReadAll where
  bufsize : Int
  stored : List UInt8
  null : Bool
  len : Int
  deriving DecidableEq

def readAll (len : Int) : ReadAll := ⟨len, [], false, len⟩

def ReadAll.body (loop : ReadAll) (stream : List UInt8) : IoResult → Iteration ReadAll
  | .interrupted => .continues loop
  | .error => .returns (-1)
  | .count res =>
    .continues { loop with
      stored := loop.stored ++ stream.take res
      len := loop.len - res
      null := loop.null || res == 0 }

-- ---------------------------------------------------------------------------
-- A connection
-- ---------------------------------------------------------------------------

inductive Part
  | length
  | body
  deriving DecidableEq

def Part.bytes (message : List UInt8) : Part → List UInt8
  | .length => intBytes message.length
  | .body => message

def Part.rest (message : List UInt8) : Part → List UInt8
  | .length => message
  | .body => []

inductive SendStage
  | idle
  | writing (part : Part) (message : List UInt8) (loop : WriteAll)
  | failed

/-- `returned`: for every call of `write_all` so far, the length asked for and
the result. -/
structure Sender where
  messages : List (List UInt8)
  stage : SendStage
  returned : List (Int × Int)

inductive ReceiveStage
  | idle
  | reading (part : Part) (loop : ReadAll)
  | failed

structure Receiver where
  left : Nat
  stage : ReceiveStage
  received : List (List UInt8)
  returned : List (Int × Int)

structure Connection where
  sender : Sender
  stream : List UInt8
  receiver : Receiver

def Connection.start (messages : List (List UInt8)) : Connection where
  sender := ⟨messages, .idle, []⟩
  stream := []
  receiver := ⟨messages.length, .idle, [], []⟩

/-- What `network_send` does with a result of `write_all`: a short one closes
the connection. -/
def Sender.wrote (s : Sender) (part : Part) (message : List UInt8) (nbytes : Int) : Sender :=
  let len : Int := (part.bytes message).length
  { s with
    returned := s.returned ++ [(len, nbytes)]
    stage :=
      if nbytes ≠ len then .failed
      else
        match part with
        | .length => .writing .body message (writeAll message)
        | .body => .idle }

/-- What `network_receive` does with a result of `read_all`: it only looks for
a negative one. -/
def Receiver.read (s : Receiver) (part : Part) (loop : ReadAll) (nbytes : Int) : Receiver :=
  let s := { s with returned := s.returned ++ [(loop.bufsize, nbytes)] }
  if nbytes < 0 then { s with stage := .failed }
  else
    match part with
    | .length => { s with stage := .reading .body (readAll (bytesInt loop.stored)) }
    | .body => { s with stage := .idle, received := s.received ++ [loop.stored] }

/-- `send` and `receive` are the steps that are no system call: to start a message
or to leave a loop whose `len` is used up. -/
inductive Action
  | send
  | write (res : IoResult)
  | receive
  | read (res : IoResult)
  deriving DecidableEq

def Sender.send (s : Sender) : Option Sender :=
  match s.stage with
  | .idle =>
    match s.messages with
    | [] => none
    | message :: messages =>
      some { s with
        messages
        stage := .writing .length message (writeAll (Part.length.bytes message)) }
  | .writing part message loop =>
    if loop.len > 0 then none else some (s.wrote part message loop.bufsize)
  | .failed => none

def Receiver.receive (s : Receiver) : Option Receiver :=
  match s.stage with
  | .idle =>
    match s.left with
    | 0 => none
    | left + 1 => some { s with left, stage := .reading .length (readAll 4) }
  | .reading part loop => if loop.len > 0 then none else some (s.read part loop loop.bufsize)
  | .failed => none

/-- A `write` transfers at least one byte and no more than it is given. -/
def WriteAll.allows (loop : WriteAll) : IoResult → Bool
  | .count n => 1 ≤ n && n ≤ loop.len
  | _ => true

/-- A `read` transfers at least one byte, no more than it is asked for and than
there is; nothing once the other side has closed and all is read. -/
def ReadAll.allows (loop : ReadAll) (c : Connection) : IoResult → Bool
  | .count 0 => (match c.sender.stage with | .failed => true | _ => false) && c.stream.isEmpty
  | .count n => n ≤ loop.len && n ≤ c.stream.length
  | _ => true

def Connection.step (c : Connection) : Action → Option Connection
  | .send => c.sender.send.map fun sender => { c with sender }
  | .write res =>
    match c.sender.stage with
    | .writing part message loop =>
      if loop.len > 0 ∧ loop.allows res = true then
        match loop.body res with
        | .continues loop' =>
          some { c with
            sender := { c.sender with stage := .writing part message loop' }
            stream := c.stream ++ loop.buf.take res.transferred }
        | .returns value => some { c with sender := c.sender.wrote part message value }
      else none
    | _ => none
  | .receive => c.receiver.receive.map fun receiver => { c with receiver }
  | .read res =>
    match c.receiver.stage with
    | .reading part loop =>
      if loop.len > 0 ∧ loop.allows c res = true then
        match loop.body c.stream res with
        | .continues loop' =>
          some { c with
            receiver := { c.receiver with stage := .reading part loop' }
            stream := c.stream.drop res.transferred }
        | .returns value => some { c with receiver := c.receiver.read part loop value }
      else none
    | _ => none

end HashMapStorage
