import Lwipc.ServerDelivery
import Lwipc.SocketClient

/-!
# Clients, network and server

The clients of `SocketClient` and the threads of `SocketServer`, with connections between them: what
`::send` takes from a client arrives at the server in order and in pieces of any size, and any
connection may break.

The server sees one socket behind each of its connections, so what it delivers can be compared with what
the clients sent.
-/

namespace Lwipc.SocketNetwork

open LittleEndian IPCMessage SocketTransport Machine

structure Net where
  clients : SocketClient.State
  server : SocketServer.Server
  /-- the socket at the other end of each accepted connection -/
  peer : Nat → Nat
  /-- the number of bytes of its stream that have arrived -/
  arrived : Nat → Nat

inductive Act
  | client (a : SocketClient.Act)
  | server (a : SocketServer.Act)
  /-- `::accept` returns `fd` for the connection of socket `k` -/
  | accept (fd k : Nat)
  /-- the next `n` bytes of a connection arrive -/
  | deliver (c n : Nat)
  /-- everything has arrived and the client has shut the connection down -/
  | fin (c : Nat)
  | reset (c : Nat)

inductive Event
  | client (e : SocketClient.Event)
  | server (e : SocketServer.Event)

/-- What the threads of the server do by themselves. -/
def isLocal (s : SocketServer.Server) : SocketServer.Act → Bool
  | .send _ _ | .hangUp _ | .abort _ => false
  | .acc (.fd _) =>
    match s.acc with
    | some .socket => true
    | _ => false
  | _ => true

namespace Net

/-- The bytes that the client of a connection has sent. -/
def sent (s : Net) (c : Nat) : List Byte := (s.clients.socks (s.peer c)).stream

end Net

/-- A step of the server in the network. -/
def serverStep (maxClients : Int) (s : Net) (a : SocketServer.Act) : Option (Net × List Event) :=
  (SocketServer.step maxClients s.server a).map fun (x, o) => ({ s with server := x }, o.map .server)

def step (maxClients : Int) (s : Net) : Act → Option (Net × List Event)
  | .client a =>
    (SocketClient.step s.clients a).map fun (x, o) => ({ s with clients := x }, o.map .client)
  | .server a => if isLocal s.server a = true then serverStep maxClients s a else none
  | .accept fd k =>
    match s.server.acc with
    | some (.accepting _) =>
      if (s.clients.socks k).connected = true ∧ ∀ c < s.server.accepted, s.peer c ≠ k then
        serverStep maxClients { s with
          peer := Function.update s.peer s.server.accepted k
          arrived := Function.update s.arrived s.server.accepted 0 } (.acc (.fd fd))
      else none
    | _ => none
  | .deliver c n =>
    if s.arrived c + n ≤ (s.sent c).length then
      serverStep maxClients { s with arrived := Function.update s.arrived c (s.arrived c + n) }
        (.send c (((s.sent c).drop (s.arrived c)).take n))
    else none
  | .fin c =>
    if (s.clients.socks (s.peer c)).ended = true ∧ s.arrived c = (s.sent c).length then
      serverStep maxClients s (.hangUp c)
    else none
  | .reset c => serverStep maxClients s (.abort c)

def init : Net where
  clients := SocketClient.init
  server := SocketServer.init
  peer := fun _ => 0
  arrived := fun _ => 0

def machine (maxClients : Int) : Machine Net Act Event := ⟨init, step maxClients⟩

def clientEvents (tr : List Event) : List SocketClient.Event :=
  tr.filterMap fun | .client e => some e | .server _ => none

def serverEvents (tr : List Event) : List SocketServer.Event :=
  tr.filterMap fun | .server e => some e | .client _ => none

/-- What the steps of the network bring to the server. -/
def inputs (s : Net) (a : Act) (s' : Net) : List SocketServer.Input :=
  match a with
  | .server a => SocketServer.inputs s.server a s'.server
  | .deliver c n => [.bytes c (((s.sent c).drop (s.arrived c)).take n)]
  | .reset c => [.reset c]
  | _ => []

/-- The clients do not send on a connection with a torn frame, and the server is given a callback. -/
def Proper (tr : List Event) (s : Net) : Act → Prop
  | .client a => SocketClient.Careful (clientEvents tr) s.clients a
  | .server a => SocketServer.WithCallback (serverEvents tr) s.server a
  | _ => True

variable {maxClients : Int} {s s' : Net} {tr o : List Event} {H : List SocketServer.Input} {a : Act}
  {c c' k n : Nat}

@[simp] theorem clientEvents_append (tr o : List Event) :
    clientEvents (tr ++ o) = clientEvents tr ++ clientEvents o := List.filterMap_append

@[simp] theorem serverEvents_append (tr o : List Event) :
    serverEvents (tr ++ o) = serverEvents tr ++ serverEvents o := List.filterMap_append

theorem clientEvents_client (o : List SocketClient.Event) : clientEvents (o.map .client) = o := by
  rw [clientEvents, List.filterMap_map]
  exact List.filterMap_some

theorem clientEvents_server (o : List SocketServer.Event) : clientEvents (o.map .server) = [] :=
  filterMap_map_eq_nil (fun _ => rfl) o

theorem serverEvents_server (o : List SocketServer.Event) : serverEvents (o.map .server) = o := by
  rw [serverEvents, List.filterMap_map]
  exact List.filterMap_some

theorem serverEvents_client (o : List SocketClient.Event) : serverEvents (o.map .client) = [] :=
  filterMap_map_eq_nil (fun _ => rfl) o

theorem exists_of_serverStep {b : SocketServer.Act} (h : serverStep maxClients s b = some (s', o)) :
    ∃ x e, SocketServer.step maxClients s.server b = some (x, e) ∧ s' = { s with server := x } ∧
      o = e.map .server := by
  obtain ⟨⟨x, e⟩, hs, heq⟩ := Option.map_eq_some_iff.1 h
  obtain ⟨rfl, rfl⟩ := Prod.mk.inj heq
  exact ⟨x, e, hs, rfl, rfl⟩

section
variable {x y : SocketServer.Server} {e : List SocketServer.Event} {b : SocketServer.Act}

/-- A connection is accepted only in `::accept`. -/
theorem accepted_of_isLocal (h : SocketServer.step maxClients x b = some (y, e))
    (hl : isLocal x b = true) : y.accepted = x.accepted := by
  have hrecv : ∀ {c n k next}, SocketServer.recv x c n k next = some (y, e) → y.accepted = x.accepted := by
    intro c n k next h
    unfold SocketServer.recv at h
    split at h
    all_goals
      obtain ⟨-, h⟩ := Option.ite_none_right_eq_some.1 h
      obtain ⟨rfl, -⟩ := Prod.mk.inj (Option.some.inj h)
      rfl
  cases b with
  | start cb =>
    have h : SocketServer.start x cb = some (y, e) := h
    unfold SocketServer.start at h
    split at h
    · split at h
      all_goals
        obtain ⟨rfl, -⟩ := Prod.mk.inj (Option.some.inj h)
        rfl
    · cases h
  | stop =>
    simp only [SocketServer.step] at h
    split at h
    · obtain ⟨rfl, -⟩ := Prod.mk.inj (Option.some.inj h)
      rfl
    · cases h
  | ctl => exact (SocketServer.stopStep_frame h).2.1
  | acc out =>
    have h : SocketServer.acceptStep maxClients x x.acc out = some (y, e) := h
    generalize hacc : x.acc = pc at h
    unfold SocketServer.acceptStep at h
    split at h
    case h_11 =>
      simp only [isLocal, hacc] at hl
      cases hl
    case h_16 => cases h
    case h_1 | h_3 | h_5 =>
      obtain ⟨-, h⟩ := Option.ite_none_right_eq_some.1 h
      obtain ⟨rfl, -⟩ := Prod.mk.inj (Option.some.inj h)
      rfl
    case h_13 =>
      split at h
      all_goals
        obtain ⟨rfl, -⟩ := Prod.mk.inj (Option.some.inj h)
        rfl
    all_goals
      obtain ⟨rfl, -⟩ := Prod.mk.inj (Option.some.inj h)
      rfl
  | handler c k =>
    obtain ⟨-, h⟩ := Option.ite_none_right_eq_some.1 h
    unfold SocketServer.handleStep at h
    split at h
    case h_2 | h_3 => exact hrecv h
    case h_7 => cases h
    all_goals
      obtain ⟨rfl, -⟩ := Prod.mk.inj (Option.some.inj h)
      rfl
  | broadcast =>
    obtain ⟨rfl, -⟩ := Prod.mk.inj (Option.some.inj h)
    rfl
  | send | hangUp | abort => cases hl

theorem accepted_of_accept {fd : Nat} {l : Option Nat} (hacc : x.acc = some (.accepting l))
    (h : SocketServer.step maxClients x (.acc (.fd fd)) = some (y, e)) :
    y.accepted = x.accepted + 1 := by
  simp only [SocketServer.step, SocketServer.acceptStep, hacc] at h
  obtain ⟨-, h⟩ := Option.ite_none_right_eq_some.1 h
  obtain ⟨rfl, -⟩ := Prod.mk.inj (Option.some.inj h)
  rfl

/-- A peer does not change the number of connections, and acts on an accepted one. -/
theorem accepted_of_peer (hb : (∃ c bs, b = .send c bs) ∨ (∃ c, b = .hangUp c) ∨ ∃ c, b = .abort c)
    (h : SocketServer.step maxClients x b = some (y, e)) : y.accepted = x.accepted := by
  rcases hb with ⟨c, bs, rfl⟩ | ⟨c, rfl⟩ | ⟨c, rfl⟩
  all_goals
    obtain ⟨-, h⟩ := Option.ite_none_right_eq_some.1 h
    obtain ⟨rfl, -⟩ := Prod.mk.inj (Option.some.inj h)
    rfl

end

/-- The clients and the server each run by themselves, and the stream of a connection is what has arrived
of the stream of one socket. -/
structure Linked (maxClients : Int) (tr : List Event) (H : List SocketServer.Input) (s : Net) : Prop where
  clients : SocketClient.machine.Runs SocketClient.Careful (clientEvents tr) s.clients
  server : (SocketServer.machine maxClients).Observed SocketServer.WithCallback SocketServer.inputs
    (serverEvents tr) H s.server
  arrived : ∀ c < s.server.accepted, s.arrived c ≤ (s.sent c).length
  stream : ∀ c < s.server.accepted, SocketServer.streamOf c H = (s.sent c).take (s.arrived c)
  inj : ∀ c < s.server.accepted, ∀ c' < s.server.accepted, s.peer c = s.peer c' → c = c'

namespace Linked

theorem client {b : SocketClient.Act} (h : Linked maxClients tr H s)
    (hok : SocketClient.Careful (clientEvents tr) s.clients b)
    (hs : step maxClients s (.client b) = some (s', o)) : Linked maxClients (tr ++ o) (H ++ []) s' := by
  obtain ⟨⟨x, e⟩, hx, heq⟩ := Option.map_eq_some_iff.1 hs
  obtain ⟨rfl, rfl⟩ := Prod.mk.inj heq
  have hinv := SocketClient.Inv.of_runs h.clients
  have hgrow := fun c =>
    SocketClient.stream_prefix hinv (SocketClient.move_of_step hinv hx) (s.peer c)
  refine ⟨?_, ?_, fun c hc => ?_, fun c hc => ?_, h.inj⟩
  · rw [clientEvents_append, clientEvents_client]
    exact h.clients.step hok hx
  · rw [serverEvents_append, serverEvents_client, List.append_nil, List.append_nil]
    exact h.server
  · exact (h.arrived c hc).trans (hgrow c).length_le
  · obtain ⟨rest, hrest⟩ := hgrow c
    rw [List.append_nil, h.stream c hc]
    show _ = ((x.socks (s.peer c)).stream).take (s.arrived c)
    rw [← hrest]
    exact (List.take_append_of_le_length (h.arrived c hc)).symm

/-- A step of the server that brings no bytes and no connection. -/
theorem quiet {b : SocketServer.Act} {x : SocketServer.Server} {e : List SocketServer.Event}
    (h : Linked maxClients tr H s) (hok : SocketServer.WithCallback (serverEvents tr) s.server b)
    (hx : SocketServer.step maxClients s.server b = some (x, e)) (hacc : x.accepted = s.server.accepted)
    (hbytes : ∀ c, SocketServer.streamOf c (SocketServer.inputs s.server b x) = []) :
    Linked maxClients (tr ++ e.map .server) (H ++ SocketServer.inputs s.server b x)
      { s with server := x } := by
  refine ⟨?_, ?_, fun c hc => h.arrived c (hacc ▸ hc), fun c hc => ?_, fun c hc c' hc' => ?_⟩
  · rw [clientEvents_append, clientEvents_server, List.append_nil]
    exact h.clients
  · rw [serverEvents_append, serverEvents_server]
    exact h.server.step hok hx
  · rw [SocketServer.streamOf_append, hbytes, List.append_nil]
    exact h.stream c (hacc ▸ hc)
  · exact h.inj c (hacc ▸ hc) c' (hacc ▸ hc')

theorem accept {fd : Nat} {l : Option Nat} {x : SocketServer.Server} {e : List SocketServer.Event}
    (h : Linked maxClients tr H s) (hacc : s.server.acc = some (.accepting l))
    (hk : ∀ c < s.server.accepted, s.peer c ≠ k)
    (hx : SocketServer.step maxClients s.server (.acc (.fd fd)) = some (x, e)) :
    Linked maxClients (tr ++ e.map .server) (H ++ [])
      { s with
        server := x
        peer := Function.update s.peer s.server.accepted k
        arrived := Function.update s.arrived s.server.accepted 0 } := by
  have hnew := accepted_of_accept hacc hx
  have hok : SocketServer.WithCallback (serverEvents tr) s.server (.acc (.fd fd)) := trivial
  -- the new connection, or an old one with its socket
  have hcases : ∀ c < x.accepted, c = s.server.accepted ∨ c < s.server.accepted ∧
      Function.update s.peer s.server.accepted k c = s.peer c ∧
      Function.update s.arrived s.server.accepted 0 c = s.arrived c := by
    intro c hc
    rcases Nat.lt_succ_iff_lt_or_eq.1 (show c < s.server.accepted + 1 from hnew ▸ hc) with hlt | heq
    · have hne := Nat.ne_of_lt hlt
      exact .inr ⟨hlt, Function.update_of_ne hne _ _, Function.update_of_ne hne _ _⟩
    · exact .inl heq
  refine ⟨?_, ?_, fun c hc => ?_, fun c hc => ?_, fun c hc c' hc' hpeer => ?_⟩
  · rw [clientEvents_append, clientEvents_server, List.append_nil]
    exact h.clients
  · rw [serverEvents_append, serverEvents_server]
    exact h.server.step hok hx
  · rcases hcases c hc with rfl | ⟨hlt, hp, ha⟩
    · simp only [Function.update_self]
      exact Nat.zero_le _
    · simp only [Net.sent, hp, ha]
      exact h.arrived c hlt
  · rw [List.append_nil]
    rcases hcases c hc with rfl | ⟨hlt, hp, ha⟩
    · simp only [Function.update_self, List.take_zero]
      exact ((SocketServer.served_of_observed h.server _).1 le_rfl).1
    · simp only [Net.sent, hp, ha]
      exact h.stream c hlt
  · rcases hcases c hc with rfl | ⟨hlt, hp, -⟩ <;> rcases hcases c' hc' with rfl | ⟨hlt', hp', -⟩
    · rfl
    · simp only [Function.update_self, hp'] at hpeer
      exact absurd hpeer.symm (hk c' hlt')
    · simp only [Function.update_self, hp] at hpeer
      exact absurd hpeer (hk c hlt)
    · simp only [hp, hp'] at hpeer
      exact h.inj c hlt c' hlt' hpeer

theorem deliver {x : SocketServer.Server} {e : List SocketServer.Event} (h : Linked maxClients tr H s)
    (hle : s.arrived c + n ≤ (s.sent c).length)
    (hx : SocketServer.step maxClients s.server (.send c (((s.sent c).drop (s.arrived c)).take n)) =
      some (x, e)) :
    Linked maxClients (tr ++ e.map .server) (H ++ [.bytes c (((s.sent c).drop (s.arrived c)).take n)])
      { s with server := x, arrived := Function.update s.arrived c (s.arrived c + n) } := by
  have hacc : x.accepted = s.server.accepted := accepted_of_peer (.inl ⟨_, _, rfl⟩) hx
  have hok : SocketServer.WithCallback (serverEvents tr) s.server
    (.send c (((s.sent c).drop (s.arrived c)).take n)) := trivial
  refine ⟨?_, ?_, fun c' hc => ?_, fun c' hc => ?_, fun c' hc d hd => ?_⟩
  · rw [clientEvents_append, clientEvents_server, List.append_nil]
    exact h.clients
  · rw [serverEvents_append, serverEvents_server]
    exact h.server.step hok hx
  · by_cases heq : c' = c
    · subst heq
      simp only [Function.update_self]
      exact hle
    · simp only [Function.update_of_ne heq]
      exact h.arrived c' (hacc ▸ hc)
  · have hold := h.stream c' (hacc ▸ hc)
    rw [SocketServer.streamOf_append, hold]
    by_cases heq : c' = c
    · subst heq
      simp only [Function.update_self, SocketServer.streamOf, SocketServer.Input.bytesFor,
        List.flatMap_singleton, if_true]
      rw [← List.take_add]
      rfl
    · simp only [Function.update_of_ne heq, SocketServer.streamOf, SocketServer.Input.bytesFor,
        List.flatMap_singleton, if_neg (Ne.symm heq), List.append_nil]
      rfl
  · exact h.inj c' (hacc ▸ hc) d (hacc ▸ hd)

theorem step (h : Linked maxClients tr H s) (hok : Proper tr s a)
    (hs : step maxClients s a = some (s', o)) : Linked maxClients (tr ++ o) (H ++ inputs s a s') s' := by
  cases a with
  | client b => exact h.client hok hs
  | server b =>
    obtain ⟨hlocal, hs⟩ := Option.ite_none_right_eq_some.1 hs
    obtain ⟨x, e, hx, rfl, rfl⟩ := exists_of_serverStep hs
    refine h.quiet hok hx (accepted_of_isLocal hx hlocal) fun c => ?_
    cases b with
    | send | hangUp | abort => cases hlocal
    | _ => rfl
  | accept fd k =>
    simp only [SocketNetwork.step] at hs
    split at hs
    · rename_i l hacc
      obtain ⟨⟨-, hk⟩, hs⟩ := Option.ite_none_right_eq_some.1 hs
      obtain ⟨x, e, hx, rfl, rfl⟩ := exists_of_serverStep hs
      exact h.accept hacc hk hx
    · cases hs
  | deliver c n =>
    obtain ⟨hle, hs⟩ := Option.ite_none_right_eq_some.1 hs
    obtain ⟨x, e, hx, rfl, rfl⟩ := exists_of_serverStep hs
    exact h.deliver hle hx
  | fin c =>
    obtain ⟨-, hs⟩ := Option.ite_none_right_eq_some.1 hs
    obtain ⟨x, e, hx, rfl, rfl⟩ := exists_of_serverStep hs
    exact h.quiet (b := .hangUp c) trivial hx (accepted_of_peer (.inr (.inl ⟨c, rfl⟩)) hx) fun _ => rfl
  | reset c =>
    obtain ⟨x, e, hx, rfl, rfl⟩ := exists_of_serverStep hs
    exact h.quiet (b := .abort c) trivial hx (accepted_of_peer (.inr (.inr ⟨c, rfl⟩)) hx) fun _ => rfl

theorem of_observed (h : (machine maxClients).Observed Proper inputs tr H s) : Linked maxClients tr H s := by
  induction h with
  | init => exact ⟨.init, .init, nofun, nofun, nofun⟩
  | step _ hok hs ih => exact ih.step hok hs

end Linked

/-! ### What arrives of what was sent -/

/-- Frames at the start of what has arrived of a stream of frames hold the first messages. -/
theorem contents_of_frames {ms : List IPCMessage} {fs : List (List Byte)} {part st : List Byte}
    (hfs : ∀ f ∈ fs, IsFrame f) (hp : fs.flatten <+: st) (hpart : Partial part)
    (hst : st <+: (ms.map frame).flatten ++ part) : fs.map frameContents <+: ms.map contents := by
  obtain ⟨gs, hgs, hpre, hmax⟩ := exists_frames st
  have hr : ∀ j : Nat, 0 < (fun _ => (1 : Int)) j := fun _ => Int.one_pos
  have hloop := handleLoop_eq (i := 0) hr hgs hpre hmax (Nat.lt_succ_self gs.length)
  have hclient := handleClient_of_handleLoop hloop []
  rw [map_fst_receipts] at hclient
  have hfirst : gs.map frameContents <+: ms.map contents := by
    rw [← hclient]
    exact handleClient_in_order hpart hst
  exact ((prefix_of_frames hgs hpre hmax hfs hp).map frameContents).trans hfirst

theorem isFrame_frame {m : IPCMessage} (h : Deliverable m) : IsFrame (frame m) := by
  obtain ⟨hv, hd, hmax⟩ := h
  have hsmall : kMaxMessageSize < 2 ^ 32 := by decide
  have htotal : fromLE ((frame m).take 4) = 64 + m.data.length := by
    have := fromLE_take_frame m []
    rwa [List.append_nil, Nat.mod_eq_of_lt (by omega)] at this
  have hdrop : (frame m).drop 4 = m.toBuffer := by
    have := drop_frame m []
    rwa [List.append_nil, List.append_nil] at this
  refine ⟨?_, ?_, ?_, ?_⟩
  · omega
  · omega
  · rw [length_frame, htotal]
    omega
  · rw [hdrop]
    exact accepts_of_valid (m.valid_of_fromBuffer hv hd)

/-- The messages whose `send` on the socket behind a connection has returned true. -/
def sentOn (tr : List Event) (s : Net) (c : Nat) : List IPCMessage :=
  completed (SocketClient.eventsOn (s.peer c) (clientEvents tr))

/-- In every run of clients, network and server, in which clients do not send on a connection with a torn
frame: every connection of the server belongs to a socket of its own, and the callback is called on
behalf of it with the messages whose `send` there returned true, in this order, none twice. When all
bytes have arrived and nothing is left to be read, it was called with all of them, if the receiver
takes such messages, the connection was not reset and `stop` not called. -/
theorem delivered_end_to_end (h : (machine maxClients).Observed Proper inputs tr H s)
    (hc : c < s.server.accepted) :
    (∀ c' < s.server.accepted, s.peer c' = s.peer c → c' = c) ∧
      SocketServer.callbacksOf c (serverEvents tr) <+: (sentOn tr s c).map contents ∧
      ((∀ m ∈ sentOn tr s c, Deliverable m) → s.arrived c = (s.sent c).length →
        (s.server.conns c).settled → ¬ SocketServer.Cut c H →
        SocketServer.callbacksOf c (serverEvents tr) = (sentOn tr s c).map contents) := by
  have hlink := Linked.of_observed h
  have hstream := hlink.stream c hc
  obtain ⟨fs, hfs, hp, hout, hall⟩ := (SocketServer.served_of_observed hlink.server c).2.exists_frames
  obtain ⟨t, hrun, hst, -⟩ := SocketClient.Sender.of_runs hlink.clients (s.peer c)
  obtain ⟨part, hframes, hpart⟩ := (inv_of_runs hrun).stream_eq
  rw [hst] at hframes
  have hsent : s.sent c = ((sentOn tr s c).map frame).flatten ++ part := hframes
  have hpre : SocketServer.callbacksOf c (serverEvents tr) <+: (sentOn tr s c).map contents := by
    rw [hout]
    refine contents_of_frames hfs hp hpart ?_
    rw [hstream, ← hsent]
    exact List.take_prefix _ _
  refine ⟨fun c' hc' hpeer => hlink.inj c' hc' c hc hpeer, hpre, fun hms harr hset hcut => ?_⟩
  -- every message is in a frame, and there are no more frames than those delivered
  have hframe : ∀ f ∈ (sentOn tr s c).map frame, IsFrame f := by
    intro f hf
    obtain ⟨m, hm, rfl⟩ := List.mem_map.1 hf
    exact isFrame_frame (hms m hm)
  have hle := (prefix_of_frames hfs hp (hall hset hcut) hframe (by
    rw [hstream, harr, List.take_length, hsent]
    exact List.prefix_append _ _)).length_le
  refine hpre.eq_of_length_le ?_
  rw [hout, List.length_map, List.length_map]
  rwa [List.length_map] at hle

/-- A test for the part of `Proper` that is about the server. -/
def startsWithCallback (s : Net) : Act → Bool
  | .server a => SocketServer.startsWithCallback s.server a
  | _ => true

/-- Not a `send` that has failed. -/
def Event.unfailed : Event → Bool
  | .client (.sock _ (.ret _ false _)) => false
  | _ => true

theorem not_torn (h : tr.all Event.unfailed = true) (k : Nat) :
    ¬ Torn (SocketClient.eventsOn k (clientEvents tr)) := by
  rintro ⟨m, sent, -, hmem⟩
  obtain ⟨e, he, hon⟩ := List.mem_filterMap.1 hmem
  obtain ⟨d, hd, hde⟩ := List.mem_filterMap.1 he
  cases d with
  | server => cases hde
  | client e' =>
    cases hde
    cases e with
    | sock l e =>
      simp only [SocketClient.Event.on] at hon
      split at hon
      · cases hon
        have hfail := List.all_eq_true.1 h _ hd
        cases hfail
      · cases hon
    | _ => cases hon

theorem proper_of_unfailed (h : tr.all Event.unfailed = true) (ha : startsWithCallback s a = true) :
    Proper tr s a := by
  cases a with
  | client b =>
    cases b with
    | send i m => exact fun k _ => not_torn h k
    | _ => trivial
  | server b => exact SocketServer.withCallback_of_test (serverEvents tr) s.server b ha
  | _ => trivial

/-- Two clients, the later one accepted first: its message has arrived, and two bytes of the other's. -/
theorem delivered_end_to_end_two : ∃ (tr : List Event) (s : Net) (m : IPCMessage),
    m.data = [7] ∧ sentOn tr s 0 = [m] ∧ s.peer 0 = 1 ∧
      SocketServer.callbacksOf 0 (serverEvents tr) = [m.contents] := by
  let m (b : Byte) : IPCMessage := new .default (some fun _ => b) 1
  let acts : List Act :=
    [.client (.connect 0), .client (.connect 1), .client (.socket 0 (some 3)), .client (.socket 1 (some 4)),
      .client (.resolve 1 true), .client (.resolve 0 true), .client (.reach 0 true),
      .client (.reach 1 true)] ++ SocketServer.listenActs.map .server ++
    [.accept 4 1, .server (.acc .ok), .server (.acc .ok), .server (.acc .ok), .client (.send 0 (m 5)),
      .client (.send 1 (m 7)), .client (.accept 0 2), .client (.accept 1 4), .deliver 0 3,
      .server (.handler 0 0), .server (.handler 0 2), .server (.acc .ok), .server (.acc .ok), .accept 5 0,
      .deliver 1 2, .client (.accept 1 65), .deliver 0 66, .server (.handler 0 2), .server (.handler 0 65),
      .server (.handler 0 0), .server (.handler 0 0)]
  have hexec : (((machine 8).restrict startsWithCallback).watch inputs (machine 8).init acts).map
      (fun r => (sentOn r.1 r.2.2 0, r.2.2.peer 0,
        r.1.all Event.unfailed && (r.2.2.server.conns 0).phase.receives &&
          (r.2.2.server.conns 0).inbox.isEmpty,
        decide (0 < r.2.2.server.accepted ∧ r.2.2.arrived 0 = (r.2.2.sent 0).length ∧
          .reset 0 ∉ r.2.1 ∧ .stop ∉ r.2.1))) = some ([m 7], 1, true, true) := by
    decide +kernel
  obtain ⟨tr, H, s, hrun, hend⟩ := exists_of_watch_restrict (fun _ s a => startsWithCallback s a = true)
    (fun _ _ _ h => h) hexec
  simp only [Prod.mk.injEq, Bool.and_eq_true, List.isEmpty_iff, decide_eq_true_eq] at hend
  obtain ⟨hsent, hpeer, ⟨⟨hall, hrecv⟩, hin⟩, hacc, harr, hreset, hstop⟩ := hend
  have hrun : (machine 8).Observed Proper inputs tr H s := by
    refine hrun.mono_of (B := fun tr => tr.all Event.unfailed = true) (fun tr o hb => ?_)
      (fun _ _ _ hb h => proper_of_unfailed hb h) hall
    rw [List.all_append, Bool.and_eq_true] at hb
    exact hb.1
  refine ⟨tr, s, m 7, rfl, hsent, hpeer, ?_⟩
  have hdeliver := (delivered_end_to_end hrun hacc).2.2 ?_ harr (.inl ⟨hrecv, hin⟩)
    (fun hcut => hcut.elim hreset hstop)
  · rw [hdeliver, hsent]
    rfl
  · rw [hsent]
    simp only [List.mem_singleton, forall_eq, Deliverable]
    decide +kernel

end Lwipc.SocketNetwork
