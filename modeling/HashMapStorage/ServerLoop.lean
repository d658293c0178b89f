import HashMapStorage.Machine.System

/-!
# The connection table of the server (`network_main_loop`)

The loop as a system of its own: what `poll`, `accept` and the calls that serve
a request report is part of each step. A message's content plays no part here,
only how serving it ends. It does not end for a client that closes its end, on
which `network_receive` reads for ever: a run stops there, and what is said about
rounds is said of those in which the calls return.
-/

namespace HashMapStorage

open Machine

def NFDESC : Nat := 20

structure Revents where
  pollin : Bool
  pollhup : Bool
  deriving DecidableEq

def Revents.none : Revents := ⟨false, false⟩

/-- `struct pollfd`; `events` tells whether POLLIN is asked for. -/
structure PollFd where
  fd : Int
  events : Bool
  revents : Revents
  deriving DecidableEq

inductive LoopPc
  | test
  | poll
  | accept
  | scan
  | hup
  | done
  deriving DecidableEq

/-- `clients` are the sockets accepted and not closed since. -/
structure ServerLoop where
  connections : List PollFd
  nfds : Nat
  i : Nat
  interrupt : Int
  pc : LoopPc
  clients : List Int

def ServerLoop.start (listening_socket : Int) : ServerLoop where
  connections := ⟨listening_socket, true, .none⟩ :: List.replicate (NFDESC - 1) ⟨-1, false, .none⟩
  nfds := 1
  i := NFDESC
  interrupt := 1
  pc := .test
  clients := []

/-- How serving a slot with POLLIN ends: `network_receive` returns NULL, after
closing the socket or not, the message has `OP_BAD` or `CT_BAD`, `invoke` does not
return 0, or `network_send` fails and closes the socket. -/
inductive Outcome
  | unreadable (closed : Bool)
  | bad
  | rejected
  | answered
  | unanswered
  deriving DecidableEq

/-- What the calls in the step report. `beyond` is what lies behind the array, for a
shift that reads there. -/
inductive LoopStep
  | signal
  | test
  | poll (result : Option (Nat → Revents))
  | accept (fd : Int)
  | serve (outcome : Outcome) (beyond : PollFd)
  | hup (beyond : PollFd)

/-- `for(int j = i; j < nfds; j++) connections[j] = connections[j+1];` -/
def shiftLoop (beyond : PollFd) : (left j : Nat) → List PollFd → List PollFd
  | 0, _, connections => connections
  | left + 1, j, connections =>
    shiftLoop beyond left (j + 1) (connections.set j (connections.getD (j + 1) beyond))

namespace ServerLoop

def slot (s : ServerLoop) (i : Nat) : PollFd := s.connections.getD i ⟨-1, false, .none⟩

/-- `close(fd)`; a descriptor that is not open is left alone. -/
def close (s : ServerLoop) (fd : Int) : ServerLoop := { s with clients := s.clients.erase fd }

def clearSlot (s : ServerLoop) : ServerLoop :=
  { s with connections := s.connections.set s.i { s.slot s.i with fd := -1 } }

def shift (s : ServerLoop) (beyond : PollFd) : ServerLoop :=
  { s with
    connections := shiftLoop beyond (s.nfds - s.i) s.i s.connections
    nfds := s.nfds - 1 }

/-- `poll` ignores a slot whose `fd` is negative. -/
def pollResult (s : ServerLoop) (revents : Nat → Revents) : List PollFd :=
  s.connections.mapIdx fun k p =>
    if k < s.nfds then { p with revents := if p.fd < 0 then .none else revents k } else p

def ready (connections : List PollFd) (nfds : Nat) : Bool :=
  (connections.take nfds).any fun p => p.revents ≠ .none

/-- A descriptor that `accept` can return: -1, or one that is not open (0 stays
open all along). -/
def acceptable (s : ServerLoop) (fd : Int) : Bool :=
  fd = -1 || (0 < fd && fd ∉ s.clients)

def accepted (s : ServerLoop) (fd : Int) : ServerLoop :=
  let connections := s.connections.set s.nfds { s.slot s.nfds with fd }
  if fd > 0 then
    { s with
      connections := connections.set s.nfds { s.slot s.nfds with fd, events := true }
      nfds := s.nfds + 1
      clients := s.clients ++ [fd] }
  else { s with connections }

/-- The body of the `for` loop behind POLLIN, up to its `continue` or to the
test of POLLHUP. A negative descriptor is unreadable. -/
def serve (s : ServerLoop) (outcome : Outcome) (beyond : PollFd) : Option ServerLoop :=
  let fd := (s.slot s.i).fd
  if fd < 0 ∧ outcome ≠ .unreadable false then none
  else
    match outcome with
    | .unreadable closed =>
      let s := if closed then s.close fd else s
      -- `i--` and the loop's `i++`
      some { ((s.close fd).clearSlot).shift beyond with pc := .scan }
    | .bad => some { ((s.close fd).clearSlot).shift beyond with pc := .scan }
    | .rejected => some { (s.close fd).clearSlot with i := s.i + 1, pc := .scan }
    | .answered => some { s with pc := .hup }
    | .unanswered => some { s.close fd with pc := .hup }

def step (s : ServerLoop) : LoopStep → Option ServerLoop
  | .signal => some { s with interrupt := 0 }
  | .test =>
    match s.pc with
    | .test => some { s with pc := if s.interrupt ≠ 0 then .poll else .done }
    | _ => none
  | .poll result =>
    match s.pc, result with
    | .poll, none => some { s with pc := .test }
    | .poll, some revents =>
      let connections := s.pollResult revents
      if ready connections s.nfds then some { s with connections, pc := .accept }
      else some { s with connections, i := 1, pc := .scan }
    | _, _ => none
  | .accept fd =>
    match s.pc with
    | .accept =>
      if (s.slot 0).revents.pollin ∧ s.nfds < NFDESC then
        if s.acceptable fd then some { s.accepted fd with i := 1, pc := .scan } else none
      else some { s with i := 1, pc := .scan }
    | _ => none
  | .serve outcome beyond =>
    match s.pc with
    | .scan =>
      if s.i < s.nfds then
        if (s.slot s.i).revents.pollin then s.serve outcome beyond else some { s with pc := .hup }
      else some { s with pc := .poll }
    | _ => none
  | .hup beyond =>
    match s.pc with
    | .hup =>
      if (s.slot s.i).revents.pollhup then
        let s' := ((s.close (s.slot s.i).fd).clearSlot).shift beyond
        some { s' with i := s.i + 1, pc := .scan }
      else some { s with i := s.i + 1, pc := .scan }
    | _ => none

end ServerLoop

end HashMapStorage
