import HashMapStorage.Skel

/-!
# Requests served (`network_main_loop`, `network_server_close`)

What the network loop does with one message after the other, around the
skeleton: `network_receive`, `invoke`, `network_send`, `free_message`. For the
skeleton all but `invoke` is a change of the messages. The connections are a
system of their own (`ServerLoop`), and the bytes of a reply are not followed.

Each accepted write is recorded with the request it came from and the pointers
`invoke` stored in its task.
-/

namespace HashMapStorage

open Machine

inductive NetPc
  | poll
  | received (msg : Nat)
  | invoked (msg : Nat)
  | replied (msg : Nat)
  | closed
  deriving DecidableEq

/-- An accepted write: the request as it was received, the pointers stored in
its task, and whether one of their blocks was released since. -/
structure Write where
  request : Fields
  key : Ptr
  data : Ptr
  released : Bool
  deriving DecidableEq

def freed (h : Strings) (p : Ptr) : Bool := p.any fun a => (h.cell a).isNone

def Write.after (w : Write) (h : Strings) : Write :=
  { w with released := w.released || freed h w.key || freed h w.data }

/-- `received` is what the message in service said when it arrived. -/
structure Server extends Skel where
  net : NetPc
  received : Fields
  writes : List Write

def placeStr (h : Strings) (m : Malloc (List UInt8)) : Option CStr → Ptr × Strings
  | none => (none, h)
  | some s => newStr h m s

def placeMessage (mem : Mem) (f : Fields) (m : MessageMem) : MessageT × Mem :=
  let (data, strings) := placeStr mem.strings m.string f.data
  let (key, strings) := placeStr strings m.string f.key
  if f.keys = [] then
    (⟨⟨none⟩, f.opcode, f.cType, f.dataSize, data, key, 0, none⟩, ⟨strings, mem.arrays⟩)
  else
    let (ps, strings) := newStrs m.string strings f.keys
    let (array, arrays) := mem.arrays.alloc m.array
    (⟨⟨none⟩, f.opcode, f.cType, f.dataSize, data, key, f.keys.length, some array⟩,
      ⟨strings, arrays.set array (some (ps ++ [none]))⟩)

def MessageT.bad (message : MessageT) : Bool := message.opcode = opBad || message.cType = ctBad

/-- `drop`: a bad message is released. `reply`: `network_send`, or the release of a
message for which `invoke` did not return 0. -/
inductive ServerStep
  | receive (f : Fields) (struct : Malloc MessageT) (m : MessageMem)
  | drop
  | skel (a : SkelStep)
  | reply (string : Malloc (List UInt8)) (sent : Bool)
  | release

namespace Server

/-- What the main thread may do in the skeleton now. -/
def allows (s : Server) : SkelStep → Bool
  | .outside _ _ => false
  | .invoke msg _ _ =>
    match s.net with
    | .received p => msg = some p && (s.messages.cell p).any fun message => !message.bad
    | _ => false
  | .lock | .enqueue _ | .signal | .unlock | .getKeys | .copyKeys _ =>
    match s.net with
    | .invoked _ => true
    | _ => false
  | .destroy => s.net = .poll
  | _ => true

def netAfter (s : Server) : SkelStep → NetPc
  | .invoke (some p) _ _ => .invoked p
  | .destroy => .closed
  | _ => s.net

def writesAfter (s : Server) : SkelStep → List Write
  | .enqueue _ =>
    match s.main with
    | .enqueue p _ =>
      match s.messages.cell p with
      | some msg => s.writes ++ [⟨s.received, msg.key, msg.data, false⟩]
      | none => s.writes
    | _ => s.writes
  | _ => s.writes

def pack (s : Server) (p : Nat) (string : Malloc (List UInt8)) : Exec Mem := do
  let message ← s.messages.load (some p)
  let (messageT, mem) ← toMessageT s.mem message string
  let _ ← messageT.fields mem
  pure mem

/-- The skeleton's step, and the loop's own variables after it. -/
def plan (s : Server) : ServerStep → Option (SkelStep × NetPc × Fields × List Write)
  | .receive f struct m =>
    match s.net with
    | .poll =>
      let f := f.noEmpty
      let (message, mem) := placeMessage s.mem f m
      let (p, messages) := s.messages.alloc struct
      some (.outside (messages.set p (some message)) mem, .received p, f, s.writes)
    | _ => none
  | .drop =>
    match s.net with
    | .received p => do
      let message ← s.messages.cell p
      let (messages, mem) ← (releaseMessage s.messages s.mem (some p)).toOption
      if message.bad then some (.outside messages mem, .poll, s.received, s.writes) else none
    | _ => none
  | .skel a => if s.allows a then some (a, s.netAfter a, s.received, s.writesAfter a) else none
  | .reply string sent =>
    match s.net, s.main with
    | .invoked p, .returned _ result =>
      if result ≠ 0 then do
        let (messages, mem) ← (releaseMessage s.messages s.mem (some p)).toOption
        some (.outside messages mem, .poll, s.received, s.writes)
      else do
        let mem ← (s.pack p string).toOption
        if sent then some (.outside s.messages mem, .replied p, s.received, s.writes)
        else
          let (messages, mem) ← (releaseMessage s.messages mem (some p)).toOption
          some (.outside messages mem, .replied p, s.received, s.writes)
    | _, _ => none
  | .release =>
    match s.net with
    | .replied p => do
      let (messages, mem) ← (releaseMessage s.messages s.mem (some p)).toOption
      some (.outside messages mem, .poll, s.received, s.writes)
    | _ => none

def step (s : Server) (a : ServerStep) : Option Server := do
  let (b, net, received, writes) ← s.plan a
  let skel ← s.toSkel.step b
  some { toSkel := skel, net, received, writes := writes.map fun w => w.after skel.mem.strings }

end Server

def serverInit (n_lists : Int) (mem : Mem) : Option Server := do
  let skel ← tableSkelInit n_lists .empty mem
  some { toSkel := skel, net := .poll, received := ⟨0, 0, 0, none, none, [], []⟩, writes := [] }

end HashMapStorage
