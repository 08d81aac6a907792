import Lwipc.SocketServer

/-!
# The moves of the server

The phases of a connection by what they say about its descriptor and its handler, and the steps of
`step` one by one: `Move` has a constructor for each thing a thread can do, with the guard under which
it does it.
-/

namespace Lwipc.SocketServer

open LittleEndian IPCMessage SocketTransport

namespace Phase

/-- In the loop of `handle_client`, or behind it with the descriptor still in the list. -/
def inLoop : Phase → Bool
  | .top | .len _ | .buf _ _ | .callback _ | .erase => true
  | _ => false

/-- The descriptor is in `client_fds_`: it was put there and its handler has not erased it. -/
def isListed : Phase → Bool
  | .listed => true
  | p => p.inLoop

/-- A handler thread is at work. -/
def isHandled : Phase → Bool
  | .close => true
  | p => p.inLoop

/-- A handler thread was started. -/
def hasThread : Phase → Bool
  | .finished => true
  | p => p.isHandled

/-- The connection was not closed yet. -/
def isOpen : Phase → Bool
  | .rejected | .finished => false
  | _ => true

/-- `recv_all` goes on only while bytes are missing. -/
def Short : Phase → Prop
  | .len got => got.length < 4
  | .buf total got => got.length < total
  | _ => True

variable {p : Phase}

theorem isListed_of_inLoop (h : p.inLoop = true) : p.isListed = true := by
  cases p <;> first | rfl | cases h

theorem isHandled_of_inLoop (h : p.inLoop = true) : p.isHandled = true := by
  cases p <;> first | rfl | cases h

theorem hasThread_of_inLoop (h : p.inLoop = true) : p.hasThread = true := by
  cases p <;> first | rfl | cases h

theorem isOpen_of_isListed (h : p.isListed = true) : p.isOpen = true := by
  cases p <;> first | rfl | cases h

theorem isOpen_of_isHandled (h : p.isHandled = true) : p.isOpen = true := by
  cases p <;> first | rfl | cases h

theorem isOpen_of_inLoop (h : p.inLoop = true) : p.isOpen = true :=
  isOpen_of_isListed (isListed_of_inLoop h)

theorem isOpen_cases (h : p.isOpen = true) : p = .accepted ∨ p = .listed ∨ p.isHandled = true := by
  cases p <;> simp_all [isOpen, isHandled, inLoop]

end Phase

theorem inLoop_afterLen (got : List Byte) : (afterLen got).inLoop = true := by
  unfold afterLen
  split
  · rfl
  · split <;> rfl

theorem inLoop_afterBuf (total : Nat) (got : List Byte) : (afterBuf total got).inLoop = true := by
  unfold afterBuf
  split
  · rfl
  · split <;> rfl

theorem short_afterLen (got : List Byte) : (afterLen got).Short := by
  unfold afterLen
  split
  · assumption
  · split
    · trivial
    · show 0 < fromLE got
      omega

theorem short_afterBuf (total : Nat) (got : List Byte) : (afterBuf total got).Short := by
  unfold afterBuf
  split
  · assumption
  · split <;> trivial

/-- What a step can do. Handlers and peers that change nothing but their connection are taken
together. -/
inductive Move (maxClients : Int) (s : Server) : Server → List Event → Prop
  | idle : Move maxClients s s []
  | start (cb : Bool) (hctl : s.ctl = .idle) (hrun : s.running = false) :
      Move maxClients s { s with hasCallback := cb, running := true, acc := some .socket } [.started]
  | stop (hctl : s.ctl = .idle) : Move maxClients s { s with ctl := .store } []
  | store (hctl : s.ctl = .store) : Move maxClients s { s with running := false, ctl := .test } []
  | test (hctl : s.ctl = .test) :
      Move maxClients s { s with ctl := if s.listenFd.isSome then .shutdown else .joinAccept } []
  | shutdown (hctl : s.ctl = .shutdown) (hl : s.lookup s.listenFd = some .listening) :
      Move maxClients s { s.setDesc s.listenFd (some .shut) with ctl := .close } []
  | shutdownOther (hctl : s.ctl = .shutdown) (hl : s.lookup s.listenFd ≠ some .listening) :
      Move maxClients s { s with ctl := .close } []
  | closeListen (hctl : s.ctl = .close) :
      Move maxClients s { s.setDesc s.listenFd none with ctl := .reset } []
  | resetListen (hctl : s.ctl = .reset) :
      Move maxClients s { s with listenFd := none, ctl := .joinAccept } []
  | joinAccept (hctl : s.ctl = .joinAccept) (hacc : s.acc = none ∨ s.acc = some .done) :
      Move maxClients s { s with acc := none, ctl := .joinClients 0 } []
  | joinClient (i : Nat) (h : Handle) (hctl : s.ctl = .joinClients i) (hh : s.clientThreads[i]? = some h)
      (hdone : h.joinable = true → s.returned h.conn = true) :
      Move maxClients s { s with
        clientThreads := s.clientThreads.set i { h with joinable := false }
        ctl := .joinClients (i + 1) } []
  | stopped (i : Nat) (hctl : s.ctl = .joinClients i) (hi : s.clientThreads[i]? = none) :
      Move maxClients s { s with clientThreads := [], ctl := .idle } [.stopped]
  | socket (n : Nat) (hacc : s.acc = some .socket) (hn : s.table n = none) :
      Move maxClients s
        { s.setDesc (some n) (some .socket) with listenFd := some n, acc := some .bind } []
  | socketFail (hacc : s.acc = some .socket) :
      Move maxClients s { s with listenFd := none, acc := some .done } []
  | bind (hacc : s.acc = some .bind) (hl : s.lookup s.listenFd = some .socket) :
      Move maxClients s { s with acc := some .listen } []
  | setupFail (hacc : s.acc = some .bind ∨ s.acc = some .listen) :
      Move maxClients s { s with acc := some .drop } []
  | listen (hacc : s.acc = some .listen) (hl : s.lookup s.listenFd = some .socket) :
      Move maxClients s { s.setDesc s.listenFd (some .listening) with acc := some .loop } []
  | dropListen (hacc : s.acc = some .drop) :
      Move maxClients s { s.setDesc s.listenFd none with acc := some .reset } []
  | dropReset (hacc : s.acc = some .reset) :
      Move maxClients s { s with listenFd := none, acc := some .done } []
  | loop (hacc : s.acc = some .loop) :
      Move maxClients s { s with acc := some (if s.running then .accept else .done) } []
  | accept (hacc : s.acc = some .accept) :
      Move maxClients s { s with acc := some (.accepting s.listenFd) } []
  | accepted (l : Option Nat) (n : Nat) (hacc : s.acc = some (.accepting l))
      (hl : s.lookup l = some .listening) (hn : s.table n = none) :
      Move maxClients s
        { (s.setDesc (some n) (some (.conn s.accepted))).setConn s.accepted ⟨n, .accepted, [], false⟩
          with accepted := s.accepted + 1, acc := some (.limit s.accepted) } []
  | acceptFail (l : Option Nat) (hacc : s.acc = some (.accepting l)) :
      Move maxClients s { s with acc := some .done } []
  | reject (c : Nat) (hacc : s.acc = some (.limit c)) (hfull : maxClients ≤ s.clientFds.length) :
      Move maxClients s
        { (s.setDesc (some (s.conns c).fd) none).setPhase c .rejected with acc := some .loop }
        [.closed c (s.table (s.conns c).fd)]
  | list (c : Nat) (hacc : s.acc = some (.limit c)) (hroom : s.clientFds.length < maxClients) :
      Move maxClients s { s.setPhase c .listed with
        clientFds := s.clientFds ++ [(s.conns c).fd], acc := some (.reap c) } []
  | reap (c : Nat) (hacc : s.acc = some (.reap c)) :
      Move maxClients s
        { s with clientThreads := reapDoneThreads s.clientThreads, acc := some (.spawn c) } []
  | spawn (c : Nat) (hacc : s.acc = some (.spawn c)) :
      Move maxClients s { s.setPhase c .top with
        clientThreads := s.clientThreads ++ [⟨c, true⟩], acc := some .loop } [.spawned c]
  | handle (c : Nat) (x : Conn) (o : List Event) (hc : c < s.accepted)
      (hold : (s.conns c).phase.inLoop = true) (hnew : x.phase.inLoop = true) (hshort : x.phase.Short)
      (hfd : x.fd = (s.conns c).fd) (ho : o = [] ∨ ∃ m, o = [.callback c m]) :
      Move maxClients s (s.setConn c x) o
  | erase (c : Nat) (hc : c < s.accepted) (hp : (s.conns c).phase = .erase) :
      Move maxClients s
        { s.setPhase c .close with clientFds := s.clientFds.erase (s.conns c).fd } []
  | close (c : Nat) (hc : c < s.accepted) (hp : (s.conns c).phase = .close) :
      Move maxClients s ((s.setDesc (some (s.conns c).fd) none).setPhase c .finished)
        [.closed c (s.table (s.conns c).fd)]
  | broadcast : Move maxClients s s (s.clientFds.map fun fd => .sent (s.table fd))
  | peer (c : Nat) (x : Conn) (hc : c < s.accepted) (hp : x.phase = (s.conns c).phase)
      (hfd : x.fd = (s.conns c).fd) : Move maxClients s (s.setConn c x) []

variable {maxClients : Int} {s s' : Server} {o : List Event} {a : Act} {c k n : Nat}

theorem move_of_start {cb : Bool} (h : start s cb = some (s', o)) : Move maxClients s s' o := by
  unfold start at h
  split at h
  · rename_i hctl
    split at h
    · obtain ⟨rfl, rfl⟩ := Prod.mk.inj (Option.some.inj h)
      exact .idle
    · rename_i hrun
      obtain ⟨rfl, rfl⟩ := Prod.mk.inj (Option.some.inj h)
      exact .start cb hctl (by simpa using hrun)
  · cases h

theorem move_of_stopStep (h : stopStep s = some (s', o)) : Move maxClients s s' o := by
  unfold stopStep at h
  split at h
  · cases h
  · rename_i hctl
    obtain ⟨rfl, rfl⟩ := Prod.mk.inj (Option.some.inj h)
    exact .store hctl
  · rename_i hctl
    obtain ⟨rfl, rfl⟩ := Prod.mk.inj (Option.some.inj h)
    exact .test hctl
  · rename_i hctl
    obtain ⟨rfl, rfl⟩ := Prod.mk.inj (Option.some.inj h)
    by_cases hl : s.lookup s.listenFd = some .listening
    · rw [if_pos hl]
      exact .shutdown hctl hl
    · rw [if_neg hl]
      exact .shutdownOther hctl hl
  · rename_i hctl
    obtain ⟨rfl, rfl⟩ := Prod.mk.inj (Option.some.inj h)
    exact .closeListen hctl
  · rename_i hctl
    obtain ⟨rfl, rfl⟩ := Prod.mk.inj (Option.some.inj h)
    exact .resetListen hctl
  · rename_i hctl
    split at h
    · rename_i hacc
      obtain ⟨rfl, rfl⟩ := Prod.mk.inj (Option.some.inj h)
      exact .joinAccept hctl (.inl hacc)
    · rename_i hacc
      obtain ⟨rfl, rfl⟩ := Prod.mk.inj (Option.some.inj h)
      exact .joinAccept hctl (.inr hacc)
    · cases h
  · rename_i i hctl
    split at h
    · rename_i x hx
      split at h
      · cases h
      · rename_i hwait
        obtain ⟨rfl, rfl⟩ := Prod.mk.inj (Option.some.inj h)
        exact .joinClient i x hctl hx (by simpa using hwait)
    · rename_i hnone
      obtain ⟨rfl, rfl⟩ := Prod.mk.inj (Option.some.inj h)
      exact .stopped i hctl hnone

theorem move_of_acceptStep {out : Outcome} (h : acceptStep maxClients s s.acc out = some (s', o)) :
    Move maxClients s s' o := by
  generalize hacc : s.acc = pc at h
  unfold acceptStep at h
  split at h
  · split at h
    · rename_i hn
      obtain ⟨rfl, rfl⟩ := Prod.mk.inj (Option.some.inj h)
      exact .socket _ hacc hn
    · cases h
  · obtain ⟨rfl, rfl⟩ := Prod.mk.inj (Option.some.inj h)
    exact .socketFail hacc
  · split at h
    · rename_i hl
      obtain ⟨rfl, rfl⟩ := Prod.mk.inj (Option.some.inj h)
      exact .bind hacc hl
    · cases h
  · obtain ⟨rfl, rfl⟩ := Prod.mk.inj (Option.some.inj h)
    exact .setupFail (.inl hacc)
  · split at h
    · rename_i hl
      obtain ⟨rfl, rfl⟩ := Prod.mk.inj (Option.some.inj h)
      exact .listen hacc hl
    · cases h
  · obtain ⟨rfl, rfl⟩ := Prod.mk.inj (Option.some.inj h)
    exact .setupFail (.inr hacc)
  · obtain ⟨rfl, rfl⟩ := Prod.mk.inj (Option.some.inj h)
    exact .dropListen hacc
  · obtain ⟨rfl, rfl⟩ := Prod.mk.inj (Option.some.inj h)
    exact .dropReset hacc
  · obtain ⟨rfl, rfl⟩ := Prod.mk.inj (Option.some.inj h)
    exact .loop hacc
  · obtain ⟨rfl, rfl⟩ := Prod.mk.inj (Option.some.inj h)
    exact .accept hacc
  · split at h
    · rename_i hl
      obtain ⟨rfl, rfl⟩ := Prod.mk.inj (Option.some.inj h)
      exact .accepted _ _ hacc hl.1 hl.2
    · cases h
  · obtain ⟨rfl, rfl⟩ := Prod.mk.inj (Option.some.inj h)
    exact .acceptFail _ hacc
  · split at h
    · rename_i hfull
      obtain ⟨rfl, rfl⟩ := Prod.mk.inj (Option.some.inj h)
      exact .reject _ hacc hfull
    · rename_i hroom
      obtain ⟨rfl, rfl⟩ := Prod.mk.inj (Option.some.inj h)
      exact .list _ hacc (by omega)
  · obtain ⟨rfl, rfl⟩ := Prod.mk.inj (Option.some.inj h)
    exact .reap _ hacc
  · obtain ⟨rfl, rfl⟩ := Prod.mk.inj (Option.some.inj h)
    exact .spawn _ hacc
  · cases h

theorem move_of_recv {next : List Byte → Phase} (hc : c < s.accepted)
    (hold : (s.conns c).phase.inLoop = true) (hnew : ∀ bs, (next bs).inLoop = true ∧ (next bs).Short)
    (h : recv s c n k next = some (s', o)) : Move maxClients s s' o := by
  unfold recv at h
  split at h
  · obtain ⟨-, h⟩ := Option.ite_none_right_eq_some.1 h
    obtain ⟨rfl, rfl⟩ := Prod.mk.inj (Option.some.inj h)
    exact .handle c _ [] hc hold rfl trivial rfl (.inl rfl)
  · obtain ⟨-, h⟩ := Option.ite_none_right_eq_some.1 h
    obtain ⟨rfl, rfl⟩ := Prod.mk.inj (Option.some.inj h)
    exact .handle c _ [] hc hold (hnew _).1 (hnew _).2 rfl (.inl rfl)

theorem move_of_handleStep (hc : c < s.accepted) (h : handleStep s c k = some (s', o)) :
    Move maxClients s s' o := by
  unfold handleStep at h
  split at h
  · rename_i hp
    obtain ⟨rfl, rfl⟩ := Prod.mk.inj (Option.some.inj h)
    refine .handle c _ [] hc (by rw [hp]; rfl) ?_ ?_ rfl (.inl rfl)
    · cases s.running <;> rfl
    · cases s.running
      · trivial
      · exact Nat.succ_pos 3
  · rename_i hp
    exact move_of_recv hc (by rw [hp]; rfl) (fun _ => ⟨inLoop_afterLen _, short_afterLen _⟩) h
  · rename_i hp
    exact move_of_recv hc (by rw [hp]; rfl) (fun _ => ⟨inLoop_afterBuf _ _, short_afterBuf _ _⟩) h
  · rename_i m hp
    obtain ⟨rfl, rfl⟩ := Prod.mk.inj (Option.some.inj h)
    refine .handle c _ _ hc (by rw [hp]; rfl) rfl trivial rfl ?_
    cases s.hasCallback
    · exact .inl rfl
    · exact .inr ⟨m, rfl⟩
  · rename_i hp
    obtain ⟨rfl, rfl⟩ := Prod.mk.inj (Option.some.inj h)
    exact .erase c hc hp
  · rename_i hp
    obtain ⟨rfl, rfl⟩ := Prod.mk.inj (Option.some.inj h)
    exact .close c hc hp
  · cases h

theorem move_of_step (h : step maxClients s a = some (s', o)) : Move maxClients s s' o := by
  cases a with
  | start cb => exact move_of_start h
  | stop =>
    simp only [step] at h
    split at h
    · rename_i hctl
      obtain ⟨rfl, rfl⟩ := Prod.mk.inj (Option.some.inj h)
      exact .stop hctl
    · cases h
  | ctl => exact move_of_stopStep h
  | acc out => exact move_of_acceptStep h
  | handler c k =>
    obtain ⟨hc, h⟩ := Option.ite_none_right_eq_some.1 h
    exact move_of_handleStep hc h
  | broadcast =>
    obtain ⟨rfl, rfl⟩ := Prod.mk.inj (Option.some.inj h)
    exact .broadcast
  | send c bytes =>
    obtain ⟨⟨hc, -⟩, h⟩ := Option.ite_none_right_eq_some.1 h
    obtain ⟨rfl, rfl⟩ := Prod.mk.inj (Option.some.inj h)
    exact .peer c _ hc rfl rfl
  | hangUp c =>
    obtain ⟨hc, h⟩ := Option.ite_none_right_eq_some.1 h
    obtain ⟨rfl, rfl⟩ := Prod.mk.inj (Option.some.inj h)
    exact .peer c _ hc rfl rfl
  | abort c =>
    obtain ⟨hc, h⟩ := Option.ite_none_right_eq_some.1 h
    obtain ⟨rfl, rfl⟩ := Prod.mk.inj (Option.some.inj h)
    exact .peer c _ hc rfl rfl

/-! ### What the steps leave alone -/

theorem setPhase_conns (s : Server) (c : Nat) (p : Phase) :
    (s.setPhase c p).conns c = { s.conns c with phase := p } := Function.update_self _ _ _

theorem accepted_le_of_move (h : Move maxClients s s' o) : s.accepted ≤ s'.accepted := by
  cases h with
  | accepted => exact Nat.le_succ _
  | _ => exact le_rfl

/-- A handler writes its connection, the list and the table. -/
theorem handleStep_frame (h : handleStep s c k = some (s', o)) : ∃ x fds table,
    s' = { s with conns := Function.update s.conns c x, clientFds := fds, table := table } := by
  have hrecv : ∀ {n next}, recv s c n k next = some (s', o) → ∃ x, s' = s.setConn c x := by
    intro n next h
    unfold recv at h
    split at h
    all_goals
      obtain ⟨-, h⟩ := Option.ite_none_right_eq_some.1 h
      obtain ⟨rfl, -⟩ := Prod.mk.inj (Option.some.inj h)
      exact ⟨_, rfl⟩
  unfold handleStep at h
  split at h
  case h_2 | h_3 =>
    obtain ⟨x, rfl⟩ := hrecv h
    exact ⟨x, s.clientFds, s.table, rfl⟩
  case h_7 => cases h
  all_goals
    obtain ⟨rfl, -⟩ := Prod.mk.inj (Option.some.inj h)
    exact ⟨_, _, _, rfl⟩

theorem handleStep_other {c' : Nat} (h : handleStep s c k = some (s', o)) (hne : c' ≠ c) :
    s'.conns c' = s.conns c' := by
  obtain ⟨x, fds, table, rfl⟩ := handleStep_frame h
  exact Function.update_of_ne hne _ _

/-- `stop` leaves the connections alone, and the accept thread but for joining it. -/
theorem stopStep_frame (h : stopStep s = some (s', o)) :
    s'.conns = s.conns ∧ s'.accepted = s.accepted ∧
      (s'.acc = s.acc ∨ s'.acc = none ∧ ∀ pc, s.acc = some pc → pc = .done) := by
  unfold stopStep at h
  split at h
  case h_4 =>
    obtain ⟨rfl, -⟩ := Prod.mk.inj (Option.some.inj h)
    dsimp only
    split <;> exact ⟨rfl, rfl, .inl rfl⟩
  case h_7 =>
    split at h
    case h_3 => cases h
    all_goals
      rename_i hacc
      obtain ⟨rfl, -⟩ := Prod.mk.inj (Option.some.inj h)
      refine ⟨rfl, rfl, .inr ⟨rfl, fun pc hpc => ?_⟩⟩
      rw [hacc] at hpc
      cases hpc
    rfl
  case h_8 =>
    split at h
    · split at h
      · cases h
      · obtain ⟨rfl, -⟩ := Prod.mk.inj (Option.some.inj h)
        exact ⟨rfl, rfl, .inl rfl⟩
    · obtain ⟨rfl, -⟩ := Prod.mk.inj (Option.some.inj h)
      exact ⟨rfl, rfl, .inl rfl⟩
  case h_1 => cases h
  all_goals
    obtain ⟨rfl, -⟩ := Prod.mk.inj (Option.some.inj h)
    exact ⟨rfl, rfl, .inl rfl⟩

end Lwipc.SocketServer
