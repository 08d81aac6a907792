import Lwipc.Lib.Runs
import Lwipc.SocketTransport
import Mathlib.Logic.Function.Basic

/-!
# The server of `SocketTransport`

The threads of one `SocketServer`: the one that calls `start` and `stop`, the accept thread and one
thread for each connection. A block under a mutex is one step, and so is every other access to what
the threads share. Descriptors are numbers: what a number refers to is looked up when it is used, and
a closed number may be given out again. Connections have numbers of their own, in the order in which
they were accepted.

Which connections wait in the queue of the listening socket is not recorded: `::accept` on a socket
that listens can return one at any time.
-/

namespace Lwipc.SocketServer

open LittleEndian IPCMessage SocketTransport

/-- What a descriptor refers to. -/
inductive Desc
  | socket
  | listening
  /-- a listening socket after `shutdown` -/
  | shut
  | conn (c : Nat)
  deriving DecidableEq

/-- How far a connection has come: with the accept thread up to `listed`, then in `handle_client`. -/
inductive Phase
  | accepted
  | rejected
  | listed
  /-- before the load of `running_` -/
  | top
  /-- in `recv_all` for the length, with the bytes read so far -/
  | len (got : List Byte)
  /-- in `recv_all` for the `total` bytes of a message -/
  | buf (total : Nat) (got : List Byte)
  | callback (m : IPCMessage)
  | erase
  | close
  | finished

structure Conn where
  fd : Nat
  phase : Phase
  /-- bytes that have arrived and were not read -/
  inbox : List Byte
  /-- the peer has closed the connection -/
  hungUp : Bool

/-- The accept thread in `accept_loop`. -/
inductive AccPc
  | socket
  | bind
  | listen
  /-- before the `close` and the reset of `listen_fd_` after a failure -/
  | drop
  | reset
  | loop
  | accept
  /-- in `::accept`, called with this descriptor -/
  | accepting (fd : Option Nat)
  | limit (c : Nat)
  | reap (c : Nat)
  | spawn (c : Nat)
  | done

/-- The thread that calls `start` and `stop`, in `stop` unless it is `idle`. -/
inductive CtlPc
  | idle
  | store
  | test
  | shutdown
  | close
  | reset
  | joinAccept
  /-- holding `clients_mutex_`, before the `i`-th thread -/
  | joinClients (i : Nat)

/-- A `std::thread` in `client_threads_`. It is joinable until it is joined, also when the function it
runs has returned. -/
structure Handle where
  conn : Nat
  joinable : Bool

structure Server where
  running : Bool
  /-- nothing stands for `-1` -/
  listenFd : Option Nat
  /-- `accept_thread_`, if it is joinable -/
  acc : Option AccPc
  hasCallback : Bool
  clientFds : List Nat
  clientThreads : List Handle
  ctl : CtlPc
  table : Nat → Option Desc
  conns : Nat → Conn
  /-- the number of connections accepted so far -/
  accepted : Nat

inductive Event
  | started
  | stopped
  | spawned (c : Nat)
  | callback (c : Nat) (m : IPCMessage)
  /-- `close` for a connection, and what the descriptor referred to -/
  | closed (c : Nat) (hit : Option Desc)
  /-- `broadcast` has written to this -/
  | sent (d : Option Desc)

/-- What a call to the system returns to the accept thread. -/
inductive Outcome
  | ok
  | fail
  | fd (n : Nat)

inductive Act
  | start (cb : Bool)
  | stop
  /-- the next step of `stop` -/
  | ctl
  /-- the next step of the accept thread -/
  | acc (out : Outcome)
  /-- the next step of a handler; `k` is what `::recv` returns -/
  | handler (c k : Nat)
  | broadcast
  /-- the peer sends or closes the connection -/
  | send (c : Nat) (bytes : List Byte)
  | hangUp (c : Nat)
  /-- from now on `::recv` on the connection fails, whatever the reason -/
  | abort (c : Nat)

namespace Server

/-- What a descriptor member refers to. -/
def lookup (s : Server) (fd : Option Nat) : Option Desc := fd.bind s.table

def setDesc (s : Server) (fd : Option Nat) (d : Option Desc) : Server :=
  { s with
    table :=
      match fd with
      | some n => Function.update s.table n d
      | none => s.table }

def setConn (s : Server) (c : Nat) (x : Conn) : Server :=
  { s with conns := Function.update s.conns c x }

def setPhase (s : Server) (c : Nat) (p : Phase) : Server :=
  s.setConn c { s.conns c with phase := p }

/-- A handler has finished its thread function. -/
def returned (s : Server) (c : Nat) : Bool :=
  match (s.conns c).phase with
  | .finished => true
  | _ => false

end Server

def clientCount (s : Server) : Nat := s.clientFds.length

def start (s : Server) (cb : Bool) : Option (Server × List Event) :=
  match s.ctl with
  | .idle =>
    if s.running then some (s, [])
    else some ({ s with hasCallback := cb, running := true, acc := some .socket }, [.started])
  | _ => none

/-- The steps of `stop`. -/
def stopStep (s : Server) : Option (Server × List Event) :=
  match s.ctl with
  | .idle => none
  | .store => some ({ s with running := false, ctl := .test }, [])
  | .test => some ({ s with ctl := if s.listenFd.isSome then .shutdown else .joinAccept }, [])
  | .shutdown =>
    -- a socket that does not listen is not connected, and the call fails
    let s' := if s.lookup s.listenFd = some .listening then s.setDesc s.listenFd (some .shut) else s
    some ({ s' with ctl := .close }, [])
  | .close => some ({ s.setDesc s.listenFd none with ctl := .reset }, [])
  | .reset => some ({ s with listenFd := none, ctl := .joinAccept }, [])
  | .joinAccept =>
    match s.acc with
    | none | some .done => some ({ s with acc := none, ctl := .joinClients 0 }, [])
    | some _ => none
  | .joinClients i =>
    match s.clientThreads[i]? with
    | some h =>
      if h.joinable = true ∧ s.returned h.conn = false then none
      else some ({ s with
        clientThreads := s.clientThreads.set i { h with joinable := false }
        ctl := .joinClients (i + 1) }, [])
    | none => some ({ s with clientThreads := [], ctl := .idle }, [.stopped])

/-- `reap_done_threads` -/
def reapDoneThreads (threads : List Handle) : List Handle := threads.filter (·.joinable)

/-- The steps of `accept_loop`. `clients_mutex_` is free for them: `stop` takes it when this thread has
ended. -/
def acceptStep (maxClients : Int) (s : Server) : Option AccPc → Outcome → Option (Server × List Event)
  | some .socket, .fd n =>
    if s.table n = none then
      some ({ s.setDesc (some n) (some .socket) with listenFd := some n, acc := some .bind }, [])
    else none
  | some .socket, .fail => some ({ s with listenFd := none, acc := some .done }, [])
  | some .bind, .ok =>
    if s.lookup s.listenFd = some .socket then some ({ s with acc := some .listen }, []) else none
  | some .bind, .fail => some ({ s with acc := some .drop }, [])
  | some .listen, .ok =>
    if s.lookup s.listenFd = some .socket then
      some ({ s.setDesc s.listenFd (some .listening) with acc := some .loop }, [])
    else none
  | some .listen, .fail => some ({ s with acc := some .drop }, [])
  | some .drop, .ok => some ({ s.setDesc s.listenFd none with acc := some .reset }, [])
  | some .reset, .ok => some ({ s with listenFd := none, acc := some .done }, [])
  | some .loop, .ok => some ({ s with acc := some (if s.running then .accept else .done) }, [])
  | some .accept, .ok => some ({ s with acc := some (.accepting s.listenFd) }, [])
  | some (.accepting l), .fd n =>
    if s.lookup l = some .listening ∧ s.table n = none then
      some ({ (s.setDesc (some n) (some (.conn s.accepted))).setConn s.accepted ⟨n, .accepted, [], false⟩
        with accepted := s.accepted + 1, acc := some (.limit s.accepted) }, [])
    else none
  | some (.accepting _), .fail => some ({ s with acc := some .done }, [])
  | some (.limit c), .ok =>
    let fd := (s.conns c).fd
    if maxClients ≤ s.clientFds.length then
      some ({ (s.setDesc (some fd) none).setPhase c .rejected with acc := some .loop },
        [.closed c (s.table fd)])
    else
      some ({ s.setPhase c .listed with clientFds := s.clientFds ++ [fd], acc := some (.reap c) }, [])
  | some (.reap c), .ok =>
    some ({ s with clientThreads := reapDoneThreads s.clientThreads, acc := some (.spawn c) }, [])
  | some (.spawn c), .ok =>
    some ({ s.setPhase c .top with
      clientThreads := s.clientThreads ++ [⟨c, true⟩], acc := some .loop }, [.spawned c])
  | _, _ => none

/-- The length has been read: the message follows, or it is refused. -/
def afterLen (got : List Byte) : Phase :=
  if got.length < 4 then .len got
  else if fromLE got < 64 ∨ fromLE got > kMaxMessageSize then .erase
  else .buf (fromLE got) []

/-- All bytes of a message have been read: it goes to the callback if it is valid. -/
def afterBuf (total : Nat) (got : List Byte) : Phase :=
  if got.length < total then .buf total got
  else if (fromBuffer got).valid then .callback (fromBuffer got) else .erase

/-- A `::recv` for `n` bytes that returns `k`, and what `next` makes of the bytes. It waits while there
are no bytes and the connection is open on both sides. -/
def recv (s : Server) (c n k : Nat) (next : List Byte → Phase) : Option (Server × List Event) :=
  let x := s.conns c
  if k = 0 then
    if (x.hungUp = true ∧ x.inbox = []) ∨ s.table x.fd ≠ some (.conn c) then
      some (s.setPhase c .erase, [])
    else none
  else if s.table x.fd = some (.conn c) ∧ k ≤ n ∧ k ≤ x.inbox.length then
    some (s.setConn c { x with phase := next (x.inbox.take k), inbox := x.inbox.drop k }, [])
  else none

/-- The steps of `handle_client`. -/
def handleStep (s : Server) (c k : Nat) : Option (Server × List Event) :=
  let fd := (s.conns c).fd
  match (s.conns c).phase with
  | .top => some (s.setPhase c (if s.running then .len [] else .erase), [])
  | .len got => recv s c (4 - got.length) k fun bs => afterLen (got ++ bs)
  | .buf total got => recv s c (total - got.length) k fun bs => afterBuf total (got ++ bs)
  | .callback m => some (s.setPhase c .top, if s.hasCallback then [.callback c m] else [])
  | .erase => some ({ s.setPhase c .close with clientFds := s.clientFds.erase fd }, [])
  | .close => some ((s.setDesc (some fd) none).setPhase c .finished, [.closed c (s.table fd)])
  | _ => none

def step (maxClients : Int) (s : Server) : Act → Option (Server × List Event)
  | .start cb => start s cb
  | .stop =>
    match s.ctl with
    | .idle => some ({ s with ctl := .store }, [])
    | _ => none
  | .ctl => stopStep s
  | .acc out => acceptStep maxClients s s.acc out
  | .handler c k => if c < s.accepted then handleStep s c k else none
  | .broadcast => some (s, s.clientFds.map fun fd => .sent (s.table fd))
  | .send c bytes =>
    let x := s.conns c
    if c < s.accepted ∧ x.hungUp = false then
      some (s.setConn c { x with inbox := x.inbox ++ bytes }, [])
    else none
  | .hangUp c =>
    if c < s.accepted then some (s.setConn c { s.conns c with hungUp := true }, []) else none
  | .abort c =>
    if c < s.accepted then some (s.setConn c { s.conns c with hungUp := true, inbox := [] }, []) else none

def init : Server where
  running := false
  listenFd := none
  acc := none
  hasCallback := false
  clientFds := []
  clientThreads := []
  ctl := .idle
  table := fun _ => none
  conns := fun _ => ⟨0, .rejected, [], false⟩
  accepted := 0

def machine (maxClients : Int) : Machine Server Act Event := ⟨init, step maxClients⟩

end Lwipc.SocketServer
