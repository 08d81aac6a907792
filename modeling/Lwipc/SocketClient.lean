import Lwipc.Lib.Runs
import Lwipc.SocketTransport
import Mathlib.Logic.Function.Basic

/-!
# The clients of `SocketTransport`

Any number of `SocketClient` objects with the descriptors and the sockets behind them. Each object is
used by one thread at a time, the threads interleave call by call to the system. Sockets have numbers of
their own, in the order in which they were created; a closed descriptor may be given out again.

What the stream of one socket sees of its client are the steps of `SocketTransport`.
-/

namespace Lwipc.SocketClient

open LittleEndian IPCMessage SocketTransport Machine

/-- Where the thread of a client is. -/
inductive Pc
  | idle
  /-- in `connect`: before `::socket`, `getaddrinfo` and `::connect` -/
  | socket
  | resolve
  | reach
  /-- before the `close` after a failure -/
  | drop
  /-- in `disconnect`, behind `shutdown` -/
  | close
  /-- in `send`, with the number of bytes of the frame taken so far -/
  | send (m : IPCMessage) (sent : Nat)

structure Client where
  /-- nothing stands for `-1` -/
  fd : Option Nat
  pc : Pc

structure Sock where
  connected : Bool
  /-- after `shutdown` -/
  ended : Bool
  /-- the bytes taken by `::send` -/
  stream : List Byte

structure State where
  clients : Nat → Client
  table : Nat → Option Nat
  socks : Nat → Sock
  /-- the number of sockets created so far -/
  created : Nat

inductive Act
  | connect (i : Nat)
  /-- what `::socket`, `getaddrinfo` and `::connect` return -/
  | socket (i : Nat) (fd : Option Nat)
  | resolve (i : Nat) (ok : Bool)
  | reach (i : Nat) (ok : Bool)
  | drop (i : Nat)
  | disconnect (i : Nat)
  | close (i : Nat)
  | send (i : Nat) (m : IPCMessage)
  /-- `::send` returns `k` -/
  | accept (i k : Nat)
  /-- `::send` returns zero or less -/
  | fail (i : Nat)

inductive Event
  | connected (i k : Nat)
  /-- `connect` has thrown -/
  | threw (i : Nat)
  /-- `close`, and the socket that the descriptor referred to -/
  | closed (i : Nat) (hit : Option Nat)
  /-- `send` without a connection -/
  | refused (i : Nat) (m : IPCMessage)
  /-- a `send` on socket `k` -/
  | sock (k : Nat) (e : SocketTransport.Event)

namespace State

/-- The socket of a client. -/
def sockOf (s : State) (i : Nat) : Option Nat := (s.clients i).fd.bind s.table

def setClient (s : State) (i : Nat) (x : Client) : State :=
  { s with clients := Function.update s.clients i x }

def setPc (s : State) (i : Nat) (pc : Pc) : State := s.setClient i { s.clients i with pc := pc }

def setSock (s : State) (k : Nat) (x : Sock) : State :=
  { s with socks := Function.update s.socks k x }

/-- `::socket` returns descriptor `n`. -/
def newSock (s : State) (i n : Nat) : State :=
  { (s.setClient i ⟨some n, .resolve⟩).setSock s.created ⟨false, false, []⟩ with
    table := Function.update s.table n (some s.created), created := s.created + 1 }

/-- `close`, and `fd_` set to `-1` -/
def closeFd (s : State) (i : Nat) : State :=
  { s.setClient i ⟨none, .idle⟩ with
    table :=
      match (s.clients i).fd with
      | some n => Function.update s.table n none
      | none => s.table }

end State

/-- The event of a `send` by client `i`. -/
def sockEvent (s : State) (i : Nat) (e : SocketTransport.Event) : List Event :=
  match s.sockOf i with
  | some k => [.sock k e]
  | none => []

/-- `::send` returns `n > 0`. -/
def accept (s : State) (i n : Nat) (m : IPCMessage) (sent : Nat) : Option (State × List Event) :=
  match s.sockOf i with
  | some k =>
    let x := s.socks k
    if x.connected = true ∧ x.ended = false ∧ 0 < n ∧ n ≤ request m sent then
      let s' := s.setSock k { x with stream := x.stream ++ ((frame m).drop sent).take n }
      if sent + n = (frame m).length then some (s'.setPc i .idle, [.sock k (.ret m true (sent + n))])
      else some (s'.setPc i (.send m (sent + n)), [])
    else none
  | none => none

def step (s : State) : Act → Option (State × List Event)
  | .connect i =>
    match (s.clients i).pc with
    | .idle => some (if (s.clients i).fd.isSome then s else s.setPc i .socket, [])
    | _ => none
  | .socket i fd =>
    match (s.clients i).pc, fd with
    | .socket, none => some (s.setClient i ⟨none, .idle⟩, [.threw i])
    | .socket, some n =>
      if s.table n = none then some (s.newSock i n, []) else none
    | _, _ => none
  | .resolve i ok =>
    match (s.clients i).pc with
    | .resolve => some (s.setPc i (if ok then .reach else .drop), [])
    | _ => none
  | .reach i ok =>
    match (s.clients i).pc, s.sockOf i with
    | .reach, some k =>
      if ok then
        some ((s.setSock k { s.socks k with connected := true }).setPc i .idle, [.connected i k])
      else some (s.setPc i .drop, [])
    | _, _ => none
  | .drop i =>
    match (s.clients i).pc with
    | .drop => some (s.closeFd i, [.closed i (s.sockOf i), .threw i])
    | _ => none
  | .disconnect i =>
    match (s.clients i).pc with
    | .idle =>
      match (s.clients i).fd, s.sockOf i with
      | some _, some k => some ((s.setSock k { s.socks k with ended := true }).setPc i .close, [])
      | some _, none => some (s.setPc i .close, [])
      | none, _ => some (s, [])
    | _ => none
  | .close i =>
    match (s.clients i).pc with
    | .close => some (s.closeFd i, [.closed i (s.sockOf i)])
    | _ => none
  | .send i m =>
    match (s.clients i).pc with
    | .idle =>
      if (s.clients i).fd.isSome then some (s.setPc i (.send m 0), sockEvent s i (.call m))
      else some (s, [.refused i m])
    | _ => none
  | .accept i n =>
    match (s.clients i).pc with
    | .send m sent => accept s i n m sent
    | _ => none
  | .fail i =>
    match (s.clients i).pc with
    | .send m sent => some (s.setPc i .idle, sockEvent s i (.ret m false sent))
    | _ => none

def init : State where
  clients := fun _ => ⟨none, .idle⟩
  table := fun _ => none
  socks := fun _ => ⟨false, false, []⟩
  created := 0

def machine : Machine State Act Event := ⟨init, step⟩

/-! ### Descriptors -/

/-- Every descriptor that is open is the `fd_` of one client, and no two refer to one socket. -/
structure Owned (fds table : Nat → Option Nat) (created : Nat) : Prop where
  refers : ∀ i n, fds i = some n → ∃ k, table n = some k
  owner : ∀ n k, table n = some k → ∃ i, fds i = some n
  inj : ∀ i j n, fds i = some n → fds j = some n → i = j
  sock_inj : ∀ n n' k, table n = some k → table n' = some k → n = n'
  lt : ∀ n k, table n = some k → k < created

namespace Owned

variable {fds table : Nat → Option Nat} {created i n : Nat}

theorem socket (h : Owned fds table created) (hfd : fds i = none) (hn : table n = none) :
    Owned (Function.update fds i (some n)) (Function.update table n (some created)) (created + 1) := by
  -- no client holds the new number
  have hfree : ∀ j, fds j ≠ some n := by
    intro j hj
    obtain ⟨k, hk⟩ := h.refers j n hj
    rw [hn] at hk
    cases hk
  have hfds : ∀ j m, Function.update fds i (some n) j = some m ↔ j = i ∧ m = n ∨ fds j = some m := by
    intro j m
    by_cases hj : j = i
    · subst hj
      simp [hfd, eq_comm]
    · simp [hj]
  have htable : ∀ m k, Function.update table n (some created) m = some k ↔
      m = n ∧ k = created ∨ table m = some k := by
    intro m k
    by_cases hm : m = n
    · subst hm
      simp [hn, eq_comm]
    · simp [hm]
  refine ⟨fun j m hj => ?_, fun m k hm => ?_, fun j j' m hj hj' => ?_, fun m m' k hm hm' => ?_,
    fun m k hm => ?_⟩
  · rcases (hfds j m).1 hj with ⟨-, rfl⟩ | hj
    · exact ⟨created, (htable m created).2 (.inl ⟨rfl, rfl⟩)⟩
    · obtain ⟨k, hk⟩ := h.refers j m hj
      exact ⟨k, (htable m k).2 (.inr hk)⟩
  · rcases (htable m k).1 hm with ⟨rfl, -⟩ | hm
    · exact ⟨i, (hfds i m).2 (.inl ⟨rfl, rfl⟩)⟩
    · obtain ⟨j, hj⟩ := h.owner m k hm
      exact ⟨j, (hfds j m).2 (.inr hj)⟩
  · rcases (hfds j m).1 hj with ⟨hji, hmn⟩ | hold <;> rcases (hfds j' m).1 hj' with ⟨hji', hmn'⟩ | hold'
    · rw [hji, hji']
    · exact absurd (hmn ▸ hold') (hfree j')
    · exact absurd (hmn' ▸ hold) (hfree j)
    · exact h.inj j j' m hold hold'
  · rcases (htable m k).1 hm with ⟨hmn, hk⟩ | hold <;> rcases (htable m' k).1 hm' with ⟨hmn', hk'⟩ | hold'
    · rw [hmn, hmn']
    · exact absurd (hk ▸ h.lt m' k hold') (Nat.lt_irrefl _)
    · exact absurd (hk' ▸ h.lt m k hold) (Nat.lt_irrefl _)
    · exact h.sock_inj m m' k hold hold'
  · rcases (htable m k).1 hm with ⟨-, rfl⟩ | hm
    · exact Nat.lt_succ_self _
    · exact Nat.lt_succ_of_lt (h.lt m k hm)

theorem close (h : Owned fds table created) (hfd : fds i = some n) :
    Owned (Function.update fds i none) (Function.update table n none) created := by
  have hfds : ∀ j m, Function.update fds i none j = some m ↔ j ≠ i ∧ fds j = some m := by
    intro j m
    by_cases hj : j = i
    · subst hj
      simp
    · simp [hj]
  have htable : ∀ m k, Function.update table n none m = some k ↔ m ≠ n ∧ table m = some k := by
    intro m k
    by_cases hm : m = n
    · subst hm
      simp
    · simp [hm]
  refine ⟨fun j m hj => ?_, fun m k hm => ?_, fun j j' m hj hj' => ?_, fun m m' k hm hm' => ?_,
    fun m k hm => ?_⟩
  · obtain ⟨hne, hj⟩ := (hfds j m).1 hj
    obtain ⟨k, hk⟩ := h.refers j m hj
    refine ⟨k, (htable m k).2 ⟨?_, hk⟩⟩
    rintro rfl
    exact hne (h.inj j i m hj hfd)
  · obtain ⟨hne, hm⟩ := (htable m k).1 hm
    obtain ⟨j, hj⟩ := h.owner m k hm
    refine ⟨j, (hfds j m).2 ⟨?_, hj⟩⟩
    rintro rfl
    rw [hfd] at hj
    exact hne (Option.some.inj hj).symm
  · exact h.inj j j' m ((hfds j m).1 hj).2 ((hfds j' m).1 hj').2
  · exact h.sock_inj m m' k ((htable m k).1 hm).2 ((htable m' k).1 hm').2
  · exact h.lt m k ((htable m k).1 hm).2

end Owned

/-- What the place of a client says about its socket. -/
def Pc.Fits : Pc → Option Sock → Prop
  | .idle, x => ∀ y ∈ x, y.connected = true ∧ y.ended = false
  | .socket, x => x = none
  | .resolve, x | .reach, x | .drop, x => x = some ⟨false, false, []⟩
  | .close, x => ∃ y, x = some y ∧ y.ended = true
  | .send m sent, x => ∃ y, x = some y ∧ y.connected = true ∧ y.ended = false ∧ sent < (frame m).length

structure Inv (s : State) : Prop where
  owned : Owned (fun i => (s.clients i).fd) s.table s.created
  fits : ∀ i, (s.clients i).pc.Fits ((s.sockOf i).map s.socks)
  fresh : ∀ k, s.created ≤ k → s.socks k = ⟨false, false, []⟩

variable {s s' : State} {tr o : List Event} {a : Act} {i j k n sent : Nat} {m : IPCMessage} {x : Client}
  {y : Sock} {pc : Pc}

@[simp] theorem setPc_self (s : State) (i : Nat) (pc : Pc) :
    (s.setPc i pc).clients i = { s.clients i with pc := pc } := Function.update_self _ _ _

theorem setPc_of_ne (s : State) (pc : Pc) (h : j ≠ i) : (s.setPc i pc).clients j = s.clients j :=
  Function.update_of_ne h _ _

theorem setPc_fd (s : State) (i : Nat) (pc : Pc) (j : Nat) :
    ((s.setPc i pc).clients j).fd = (s.clients j).fd := by
  by_cases h : j = i
  · rw [h, setPc_self]
  · rw [setPc_of_ne s pc h]

theorem setPc_sockOf (s : State) (i : Nat) (pc : Pc) (j : Nat) : (s.setPc i pc).sockOf j = s.sockOf j := by
  show ((s.setPc i pc).clients j).fd.bind s.table = _
  rw [setPc_fd]
  rfl

theorem setSock_self (s : State) (k : Nat) : s.setSock k (s.socks k) = s := by
  rw [State.setSock, Function.update_eq_self]

theorem fds_update (s : State) (i : Nat) (x : Client) :
    (fun j => (Function.update s.clients i x j).fd) =
      Function.update (fun j => (s.clients j).fd) i x.fd := by
  funext j
  by_cases h : j = i
  · rw [h, Function.update_self, Function.update_self]
  · rw [Function.update_of_ne h, Function.update_of_ne h]

namespace Inv

theorem init : Inv init :=
  ⟨⟨nofun, nofun, nofun, nofun, nofun⟩, fun _ => nofun, fun _ _ => rfl⟩

theorem sockOf_inj (h : Inv s) (hi : s.sockOf i = some k) (hj : s.sockOf j = some k) : i = j := by
  obtain ⟨n, hn, hk⟩ := Option.bind_eq_some_iff.1 hi
  obtain ⟨n', hn', hk'⟩ := Option.bind_eq_some_iff.1 hj
  obtain rfl := h.owned.sock_inj n n' k hk hk'
  exact h.owned.inj i j n hn hn'

theorem sockOf_lt (h : Inv s) (hi : s.sockOf i = some k) : k < s.created := by
  obtain ⟨n, -, hk⟩ := Option.bind_eq_some_iff.1 hi
  exact h.owned.lt n k hk

theorem exists_sockOf (h : Inv s) (hfd : (s.clients i).fd = some n) : ∃ k, s.sockOf i = some k := by
  obtain ⟨k, hk⟩ := h.owned.refers i n hfd
  exact ⟨k, Option.bind_eq_some_iff.2 ⟨n, hfd, hk⟩⟩

theorem setPc (h : Inv s) (hfit : pc.Fits ((s.sockOf i).map s.socks)) : Inv (s.setPc i pc) where
  owned := by
    have := h.owned
    simp only [setPc_fd]
    exact this
  fits j := by
    rw [setPc_sockOf]
    by_cases hj : j = i
    · subst hj
      rw [setPc_self]
      exact hfit
    · rw [setPc_of_ne s pc hj]
      exact h.fits j
  fresh := h.fresh

/-- The socket of a client changes, and the client knows. -/
theorem setSock (h : Inv s) (hk : s.sockOf i = some k) (hfit : pc.Fits (some y)) :
    Inv ((s.setSock k y).setPc i pc) := by
  refine ⟨?_, fun j => ?_, fun k' hk' => ?_⟩
  · have := h.owned
    simp only [setPc_fd]
    exact this
  · rw [setPc_sockOf]
    show (((s.setSock k y).setPc i pc).clients j).pc.Fits
      ((s.sockOf j).map (Function.update s.socks k y))
    by_cases hj : j = i
    · subst hj
      rw [setPc_self, hk, Option.map_some, Function.update_self]
      exact hfit
    · rw [setPc_of_ne _ pc hj]
      have hfits := h.fits j
      cases hsock : s.sockOf j with
      | none =>
        rw [hsock] at hfits
        exact hfits
      | some k' =>
        have hne : k' ≠ k := by
          rintro rfl
          exact hj (h.sockOf_inj hsock hk)
        rw [hsock, Option.map_some] at hfits
        rw [Option.map_some, Function.update_of_ne hne]
        exact hfits
  · have hlt := h.sockOf_lt hk
    show Function.update s.socks k y k' = _
    rw [Function.update_of_ne (by have : s.created ≤ k' := hk'; omega)]
    exact h.fresh k' hk'

theorem closeFd_sockOf (h : Inv s) (hfd : (s.clients i).fd = some n) (j : Nat) :
    (s.closeFd i).sockOf j = if j = i then none else s.sockOf j := by
  have htable : (s.closeFd i).table = Function.update s.table n none := by
    simp only [State.closeFd, hfd]
  show (Function.update s.clients i ⟨none, .idle⟩ j).fd.bind (s.closeFd i).table = _
  rw [htable]
  by_cases hj : j = i
  · rw [if_pos hj, hj, Function.update_self]
    rfl
  · rw [if_neg hj, Function.update_of_ne hj]
    cases hfdj : (s.clients j).fd with
    | none => rw [State.sockOf, hfdj]; rfl
    | some n' =>
      have hne : n' ≠ n := by
        rintro rfl
        exact hj (h.owned.inj j i n' hfdj hfd)
      rw [State.sockOf, hfdj, Option.bind_some, Option.bind_some, Function.update_of_ne hne]

theorem closeFd (h : Inv s) (hfd : (s.clients i).fd = some n) : Inv (s.closeFd i) := by
  refine ⟨?_, fun j => ?_, h.fresh⟩
  · have hclose := h.owned.close hfd
    simp only [State.closeFd, hfd]
    show Owned (fun j => (Function.update s.clients i ⟨none, .idle⟩ j).fd) _ s.created
    rw [fds_update]
    exact hclose
  · rw [h.closeFd_sockOf hfd]
    show (Function.update s.clients i ⟨none, .idle⟩ j).pc.Fits _
    by_cases hj : j = i
    · rw [if_pos hj, hj, Function.update_self]
      exact nofun
    · rw [if_neg hj, Function.update_of_ne hj]
      exact h.fits j

theorem newSock_sockOf (h : Inv s) (hn : s.table n = none) (j : Nat) :
    (s.newSock i n).sockOf j = if j = i then some s.created else s.sockOf j := by
  show (Function.update s.clients i ⟨some n, .resolve⟩ j).fd.bind
    (Function.update s.table n (some s.created)) = _
  by_cases hj : j = i
  · rw [if_pos hj, hj, Function.update_self, Option.bind_some, Function.update_self]
  · rw [if_neg hj, Function.update_of_ne hj]
    cases hfdj : (s.clients j).fd with
    | none => rw [State.sockOf, hfdj]; rfl
    | some n' =>
      have hne : n' ≠ n := by
        rintro rfl
        obtain ⟨k, hk⟩ := h.owned.refers j n' hfdj
        rw [hn] at hk
        cases hk
      rw [State.sockOf, hfdj, Option.bind_some, Option.bind_some, Function.update_of_ne hne]

/-- A fresh socket is in the state in which all sockets start. -/
theorem newSock_socks (h : Inv s) (i n : Nat) : (s.newSock i n).socks = s.socks := by
  show Function.update s.socks s.created ⟨false, false, []⟩ = s.socks
  rw [← h.fresh s.created le_rfl, Function.update_eq_self]

theorem newSock (h : Inv s) (hfd : (s.clients i).fd = none) (hn : s.table n = none) :
    Inv (s.newSock i n) := by
  refine ⟨?_, fun j => ?_, fun k hk => ?_⟩
  · have hopen := h.owned.socket hfd hn
    show Owned (fun j => (Function.update s.clients i ⟨some n, .resolve⟩ j).fd) _ (s.created + 1)
    rw [fds_update]
    exact hopen
  · rw [h.newSock_sockOf hn, h.newSock_socks]
    show (Function.update s.clients i ⟨some n, .resolve⟩ j).pc.Fits _
    by_cases hj : j = i
    · rw [if_pos hj, hj, Function.update_self, Option.map_some, h.fresh s.created le_rfl]
      rfl
    · rw [if_neg hj, Function.update_of_ne hj]
      exact h.fits j
  · rw [h.newSock_socks]
    exact h.fresh k (Nat.le_of_succ_le hk)

end Inv

/-- What a step can do, from a state with the invariant. -/
inductive Move (s : State) : Act → State → List Event → Prop
  | idle (a : Act) : Move s a s []
  | refused (i : Nat) (m : IPCMessage) : Move s (.send i m) s [.refused i m]
  | enter (i : Nat) (hpc : (s.clients i).pc = .idle) (hfd : (s.clients i).fd = none) :
      Move s (.connect i) (s.setPc i .socket) []
  | socketFail (i : Nat) (hpc : (s.clients i).pc = .socket) (hfd : (s.clients i).fd = none) :
      Move s (.socket i none) (s.setPc i .idle) [.threw i]
  | socket (i n : Nat) (hpc : (s.clients i).pc = .socket) (hfd : (s.clients i).fd = none)
      (hn : s.table n = none) : Move s (.socket i (some n)) (s.newSock i n) []
  | next (a : Act) (i : Nat) (pc : Pc) (hpc : (s.clients i).pc = .resolve ∨ (s.clients i).pc = .reach)
      (hnew : pc = .reach ∨ pc = .drop) : Move s a (s.setPc i pc) []
  | reached (i k : Nat) (hpc : (s.clients i).pc = .reach) (hk : s.sockOf i = some k) :
      Move s (.reach i true) ((s.setSock k { s.socks k with connected := true }).setPc i .idle)
        [.connected i k]
  | drop (i n k : Nat) (hpc : (s.clients i).pc = .drop) (hfd : (s.clients i).fd = some n)
      (hk : s.sockOf i = some k) : Move s (.drop i) (s.closeFd i) [.closed i (some k), .threw i]
  | shut (i k : Nat) (hpc : (s.clients i).pc = .idle) (hk : s.sockOf i = some k) :
      Move s (.disconnect i) ((s.setSock k { s.socks k with ended := true }).setPc i .close) []
  | close (i n k : Nat) (hpc : (s.clients i).pc = .close) (hfd : (s.clients i).fd = some n)
      (hk : s.sockOf i = some k) : Move s (.close i) (s.closeFd i) [.closed i (some k)]
  | call (i k : Nat) (m : IPCMessage) (hpc : (s.clients i).pc = .idle) (hk : s.sockOf i = some k) :
      Move s (.send i m) (s.setPc i (.send m 0)) [.sock k (.call m)]
  | some (i k n sent : Nat) (m : IPCMessage) (hpc : (s.clients i).pc = .send m sent)
      (hk : s.sockOf i = .some k) (hn : 0 < n) (hle : n ≤ request m sent)
      (hlt : sent + n < (frame m).length) :
      Move s (.accept i n) ((s.setSock k { s.socks k with
        stream := (s.socks k).stream ++ ((frame m).drop sent).take n }).setPc i (.send m (sent + n))) []
  | last (i k n sent : Nat) (m : IPCMessage) (hpc : (s.clients i).pc = .send m sent)
      (hk : s.sockOf i = .some k) (hn : 0 < n) (hle : n ≤ request m sent)
      (hlen : sent + n = (frame m).length) :
      Move s (.accept i n) ((s.setSock k { s.socks k with
        stream := (s.socks k).stream ++ ((frame m).drop sent).take n }).setPc i .idle)
        [.sock k (.ret m true (sent + n))]
  | fail (i k sent : Nat) (m : IPCMessage) (hpc : (s.clients i).pc = .send m sent)
      (hk : s.sockOf i = .some k) : Move s (.fail i) (s.setPc i .idle) [.sock k (.ret m false sent)]

theorem sock_of_fits (h : pc.Fits ((s.sockOf i).map s.socks)) (hpc : pc ≠ .idle) (hpc' : pc ≠ .socket) :
    ∃ n k, (s.clients i).fd = some n ∧ s.sockOf i = some k := by
  have hex : ∃ k, s.sockOf i = some k := by
    cases hk : s.sockOf i with
    | some k => exact ⟨k, rfl⟩
    | none =>
      rw [hk] at h
      cases pc with
      | idle => exact absurd rfl hpc
      | socket => exact absurd rfl hpc'
      | resolve | reach | drop => cases h
      | close | send =>
        obtain ⟨y, hy, -⟩ := h
        cases hy
  obtain ⟨k, hk⟩ := hex
  obtain ⟨n, hn, -⟩ := Option.bind_eq_some_iff.1 hk
  exact ⟨n, k, hn, hk⟩

/-- The descriptor of a client and its socket, when it is not in `idle` or `socket`. -/
theorem Inv.exists_sock (h : Inv s) (hpc : (s.clients i).pc = pc) (hidle : pc ≠ .idle)
    (hsocket : pc ≠ .socket) : ∃ n k, (s.clients i).fd = some n ∧ s.sockOf i = some k :=
  sock_of_fits (h.fits i) (by rw [hpc]; exact hidle) (by rw [hpc]; exact hsocket)

theorem Inv.fd_of_socket (h : Inv s) (hpc : (s.clients i).pc = .socket) : (s.clients i).fd = none := by
  have hfit := h.fits i
  rw [hpc] at hfit
  cases hfd : (s.clients i).fd with
  | none => rfl
  | some n =>
    obtain ⟨k, hk⟩ := h.exists_sockOf hfd
    rw [hk] at hfit
    cases hfit

theorem move_of_accept (hpc : (s.clients i).pc = .send m sent) (hsent : sent < (frame m).length)
    (h : accept s i n m sent = some (s', o)) : Move s (.accept i n) s' o := by
  unfold accept at h
  split at h
  · rename_i k hk
    obtain ⟨⟨-, -, hn, hle⟩, h⟩ := Option.ite_none_right_eq_some.1 h
    split at h
    · rename_i hlen
      obtain ⟨rfl, rfl⟩ := Prod.mk.inj (Option.some.inj h)
      exact .last i k n sent m hpc hk hn hle hlen
    · rename_i hlen
      obtain ⟨rfl, rfl⟩ := Prod.mk.inj (Option.some.inj h)
      refine .some i k n sent m hpc hk hn hle ?_
      have hframe := length_frame m
      unfold request at hle
      split at hle <;> omega
  · cases h

theorem move_of_step (hinv : Inv s) (h : step s a = some (s', o)) : Move s a s' o := by
  cases a with
  | connect i =>
    simp only [step] at h
    split at h
    · rename_i hpc
      obtain ⟨rfl, rfl⟩ := Prod.mk.inj (Option.some.inj h)
      cases hfd : (s.clients i).fd with
      | some n => exact .idle _
      | none => exact .enter i hpc hfd
    · cases h
  | socket i fd =>
    simp only [step] at h
    split at h
    · rename_i hpc
      obtain ⟨rfl, rfl⟩ := Prod.mk.inj (Option.some.inj h)
      have hfd := hinv.fd_of_socket hpc
      have heq : s.setClient i ⟨none, .idle⟩ = s.setPc i .idle := by
        show _ = s.setClient i ⟨(s.clients i).fd, .idle⟩
        rw [hfd]
      rw [heq]
      exact .socketFail i hpc hfd
    · rename_i n hpc
      obtain ⟨hn, h⟩ := Option.ite_none_right_eq_some.1 h
      obtain ⟨rfl, rfl⟩ := Prod.mk.inj (Option.some.inj h)
      exact .socket i n hpc (hinv.fd_of_socket hpc) hn
    · cases h
  | resolve i ok =>
    simp only [step] at h
    split at h
    · rename_i hpc
      obtain ⟨rfl, rfl⟩ := Prod.mk.inj (Option.some.inj h)
      refine .next _ i _ (.inl hpc) ?_
      cases ok
      · exact .inr rfl
      · exact .inl rfl
    · cases h
  | reach i ok =>
    simp only [step] at h
    split at h
    · rename_i k hpc hk
      split at h
      · rename_i hok
        obtain ⟨rfl, rfl⟩ := Prod.mk.inj (Option.some.inj h)
        rw [hok]
        exact .reached i k hpc hk
      · obtain ⟨rfl, rfl⟩ := Prod.mk.inj (Option.some.inj h)
        exact .next _ i .drop (.inr hpc) (.inr rfl)
    · cases h
  | drop i =>
    simp only [step] at h
    split at h
    · rename_i hpc
      obtain ⟨rfl, rfl⟩ := Prod.mk.inj (Option.some.inj h)
      obtain ⟨n, k, hfd, hk⟩ := hinv.exists_sock hpc nofun nofun
      rw [hk]
      exact .drop i n k hpc hfd hk
    · cases h
  | disconnect i =>
    simp only [step] at h
    split at h
    · rename_i hpc
      split at h
      · rename_i k _ hk
        obtain ⟨rfl, rfl⟩ := Prod.mk.inj (Option.some.inj h)
        exact .shut i k hpc hk
      · rename_i n hfd hk
        obtain ⟨k, hk'⟩ := hinv.exists_sockOf hfd
        rw [hk] at hk'
        cases hk'
      · obtain ⟨rfl, rfl⟩ := Prod.mk.inj (Option.some.inj h)
        exact .idle _
    · cases h
  | close i =>
    simp only [step] at h
    split at h
    · rename_i hpc
      obtain ⟨rfl, rfl⟩ := Prod.mk.inj (Option.some.inj h)
      obtain ⟨n, k, hfd, hk⟩ := hinv.exists_sock hpc nofun nofun
      rw [hk]
      exact .close i n k hpc hfd hk
    · cases h
  | send i m =>
    simp only [step] at h
    split at h
    · rename_i hpc
      split at h
      · rename_i hfd
        obtain ⟨n, hn⟩ := Option.isSome_iff_exists.1 hfd
        obtain ⟨k, hk⟩ := hinv.exists_sockOf hn
        obtain ⟨rfl, rfl⟩ := Prod.mk.inj (Option.some.inj h)
        rw [sockEvent, hk]
        exact .call i k m hpc hk
      · obtain ⟨rfl, rfl⟩ := Prod.mk.inj (Option.some.inj h)
        exact .refused i m
    · cases h
  | accept i n =>
    simp only [step] at h
    split at h
    · rename_i m sent hpc
      have hfit := hinv.fits i
      rw [hpc] at hfit
      obtain ⟨y, -, -, -, hsent⟩ := hfit
      exact move_of_accept hpc hsent h
    · cases h
  | fail i =>
    simp only [step] at h
    split at h
    · rename_i m sent hpc
      obtain ⟨n, k, -, hk⟩ := hinv.exists_sock hpc nofun nofun
      obtain ⟨rfl, rfl⟩ := Prod.mk.inj (Option.some.inj h)
      rw [sockEvent, hk]
      exact .fail i k sent m hpc hk
    · cases h

/-- A stream only grows. -/
theorem stream_prefix (hinv : Inv s) (hm : Move s a s' o) (k : Nat) :
    (s.socks k).stream <+: (s'.socks k).stream := by
  have hupdate : ∀ {l : Nat} {y : Sock}, (s.socks l).stream <+: y.stream →
      (s.socks k).stream <+: (Function.update s.socks l y k).stream := by
    intro l y hpre
    by_cases heq : k = l
    · rw [heq, Function.update_self]
      exact hpre
    · simp [Function.update_of_ne heq]
  cases hm with
  | socket i n hpc hfd hn => simp [hinv.newSock_socks]
  | reached | shut => exact hupdate List.prefix_rfl
  | some | last => exact hupdate (List.prefix_append _ _)
  | _ => exact List.prefix_rfl

namespace Inv

/-- The socket of a client that is in `send`. -/
theorem of_send (h : Inv s) (hpc : (s.clients i).pc = .send m sent) (hk : s.sockOf i = some k) :
    (s.socks k).connected = true ∧ (s.socks k).ended = false ∧ sent < (frame m).length := by
  have hfit := h.fits i
  rw [hpc, hk] at hfit
  obtain ⟨y, hy, hfit⟩ := hfit
  cases hy
  exact hfit

theorem move (h : Inv s) (hm : Move s a s' o) : Inv s' := by
  have hfit := h.fits
  cases hm with
  | idle | refused => exact h
  | enter i hpc hfd =>
    refine h.setPc ?_
    rw [State.sockOf, hfd]
    rfl
  | socketFail i hpc hfd =>
    refine h.setPc ?_
    rw [State.sockOf, hfd]
    exact nofun
  | socket i n hpc hfd hn => exact h.newSock hfd hn
  | next _ i pc hpc hnew =>
    refine h.setPc ?_
    have hfresh : (s.sockOf i).map s.socks = some ⟨false, false, []⟩ := by
      have := hfit i
      rcases hpc with hpc | hpc <;> rw [hpc] at this <;> exact this
    rcases hnew with rfl | rfl <;> exact hfresh
  | reached i k hpc hk =>
    have hfresh := hfit i
    rw [hpc, hk] at hfresh
    refine h.setSock hk fun y hy => ?_
    cases hy
    exact ⟨rfl, by rw [show s.socks k = ⟨false, false, []⟩ from Option.some.inj hfresh]⟩
  | drop i n k hpc hfd hk | close i n k hpc hfd hk => exact h.closeFd hfd
  | shut i k hpc hk => exact h.setSock hk ⟨_, rfl, rfl⟩
  | call i k m hpc hk =>
    refine h.setPc ?_
    have hidle := hfit i
    rw [hpc, hk] at hidle
    obtain ⟨hconn, hended⟩ := hidle _ rfl
    rw [hk]
    exact ⟨_, rfl, hconn, hended, by rw [length_frame]; omega⟩
  | some i k n sent m hpc hk hn hle hlt =>
    obtain ⟨hconn, hended, -⟩ := h.of_send hpc hk
    exact h.setSock hk ⟨_, rfl, hconn, hended, hlt⟩
  | last i k n sent m hpc hk hn hle hlen =>
    obtain ⟨hconn, hended, -⟩ := h.of_send hpc hk
    refine h.setSock hk fun y hy => ?_
    cases hy
    exact ⟨hconn, hended⟩
  | fail i k sent m hpc hk =>
    obtain ⟨hconn, hended, -⟩ := h.of_send hpc hk
    refine h.setPc fun y hy => ?_
    rw [hk] at hy
    cases hy
    exact ⟨hconn, hended⟩

theorem of_runs {ok : List Event → State → Act → Prop} (h : machine.Runs ok tr s) : Inv s :=
  h.invariant (I := fun _ s => Inv s) init fun _ _ _ _ _ hi _ hs => hi.move (move_of_step hi hs)

end Inv

/-! ### Every socket is closed once -/

def Event.closes (k : Nat) : Event → Bool
  | .closed _ hit => hit = some k
  | _ => false

/-- How often socket `k` was closed. -/
def closeCount (tr : List Event) (k : Nat) : Nat := tr.countP (Event.closes k)

/-- Socket `k` is in use by a client, or it was closed once. -/
def Settled (tr : List Event) (s : State) (k : Nat) : Prop :=
  (∃ i, s.sockOf i = some k) ∧ closeCount tr k = 0 ∨ (∀ i, s.sockOf i ≠ some k) ∧ closeCount tr k = 1

def Ledger (tr : List Event) (s : State) : Prop :=
  (∀ k < s.created, Settled tr s k) ∧ ∀ k, s.created ≤ k → closeCount tr k = 0

namespace Ledger

theorem keep (h : Ledger tr s) (hsock : ∀ i, s'.sockOf i = s.sockOf i) (hnew : s'.created = s.created)
    (ho : ∀ k, closeCount o k = 0) : Ledger (tr ++ o) s' := by
  have hcount : ∀ k, closeCount (tr ++ o) k = closeCount tr k := fun k => by
    rw [closeCount, List.countP_append, ← closeCount, ← closeCount, ho k, Nat.add_zero]
  refine ⟨fun k hk => ?_, fun k hk => ?_⟩
  · rw [Settled, hcount]
    simp only [hsock]
    exact h.1 k (hnew ▸ hk)
  · rw [hcount]
    exact h.2 k (hnew ▸ hk)

theorem newSock (h : Ledger tr s) (hinv : Inv s) (hfd : (s.clients i).fd = none) (hn : s.table n = none) :
    Ledger (tr ++ []) (s.newSock i n) := by
  rw [List.append_nil]
  have hnone : s.sockOf i = none := by rw [State.sockOf, hfd]; rfl
  refine ⟨fun k hk => ?_, fun k hk => h.2 k (Nat.le_of_succ_le hk)⟩
  have hsock := fun j => hinv.newSock_sockOf (i := i) hn j
  rcases Nat.lt_succ_iff_lt_or_eq.1 hk with hlt | rfl
  · rcases h.1 k hlt with ⟨⟨j, hj⟩, hzero⟩ | ⟨hno, hone⟩
    · refine .inl ⟨⟨j, ?_⟩, hzero⟩
      rw [hsock, if_neg (by rintro rfl; rw [hnone] at hj; cases hj), hj]
    · refine .inr ⟨fun j => ?_, hone⟩
      rw [hsock]
      split
      · exact fun heq => Nat.ne_of_gt hlt (Option.some.inj heq)
      · exact hno j
  · exact .inl ⟨⟨i, by rw [hsock, if_pos rfl]⟩, h.2 s.created le_rfl⟩

theorem closeFd (h : Ledger tr s) (hinv : Inv s) (hfd : (s.clients i).fd = some n)
    (hk : s.sockOf i = some k) (ho : ∀ k', closeCount o k' = if k' = k then 1 else 0) :
    Ledger (tr ++ o) (s.closeFd i) := by
  have hlt := hinv.sockOf_lt hk
  have hcount : ∀ k', closeCount (tr ++ o) k' = closeCount tr k' + if k' = k then 1 else 0 := fun k' => by
    rw [closeCount, List.countP_append, ← closeCount, ← closeCount, ho k']
  have hsock := hinv.closeFd_sockOf hfd
  refine ⟨fun k' hk' => ?_, fun k' hk' => ?_⟩
  · rw [Settled, hcount]
    by_cases heq : k' = k
    · subst heq
      rw [if_pos rfl]
      rcases h.1 k' hk' with ⟨-, hzero⟩ | ⟨hno, -⟩
      · refine .inr ⟨fun j => ?_, by rw [hzero]⟩
        rw [hsock]
        split
        · exact nofun
        · rename_i hne
          exact fun hj => hne (hinv.sockOf_inj hj hk)
      · exact absurd hk (hno i)
    · rw [if_neg heq]
      rcases h.1 k' hk' with ⟨⟨j, hj⟩, hzero⟩ | ⟨hno, hone⟩
      · refine .inl ⟨⟨j, ?_⟩, hzero⟩
        rw [hsock, if_neg (by rintro rfl; rw [hk] at hj; exact heq (Option.some.inj hj).symm), hj]
      · refine .inr ⟨fun j => ?_, hone⟩
        rw [hsock]
        split
        · exact nofun
        · exact hno j
  · have hge : s.created ≤ k' := hk'
    rw [hcount, h.2 k' hge, if_neg (by omega)]

theorem move (h : Ledger tr s) (hinv : Inv s) (hm : Move s a s' o) : Ledger (tr ++ o) s' := by
  cases hm with
  | idle | refused => exact h.keep (fun _ => rfl) rfl fun _ => rfl
  | socket i n hpc hfd hn => exact h.newSock hinv hfd hn
  | drop i n k hpc hfd hk | close i n k hpc hfd hk =>
    refine h.closeFd hinv hfd hk fun k' => ?_
    by_cases heq : k' = k
    · subst heq
      simp [closeCount, Event.closes]
    · simp [closeCount, Event.closes, heq, Ne.symm heq]
  | enter i | socketFail i | next _ i | reached i | shut i | call i | some i | last i | fail i =>
    exact h.keep (setPc_sockOf _ i _) rfl fun _ => rfl

theorem of_runs {ok : List Event → State → Act → Prop} (h : machine.Runs ok tr s) : Ledger tr s := by
  induction h with
  | init => exact ⟨nofun, fun _ _ => rfl⟩
  | step h _ hs ih =>
    have hinv : Inv _ := Inv.of_runs h
    exact ih.move hinv (move_of_step hinv hs)

end Ledger

/-- In every run of any number of clients, however their connecting, sending and disconnecting interleave
and wherever the system reports failures: every open descriptor is the `fd_` of exactly one client, no
two of them refer to one socket, and every socket created so far is in use by a client that never closed
it or was closed exactly once. A client that is not in a call is connected, or it holds no descriptor. -/
theorem sockets_conserved (h : machine.Runs free tr s) :
    (∀ n, (s.table n).isSome = true ↔ ∃! i, (s.clients i).fd = some n) ∧
      (∀ n n' k, s.table n = some k → s.table n' = some k → n = n') ∧
      (∀ k < s.created, (∃! i, s.sockOf i = some k) ∧ closeCount tr k = 0 ∨
        (∀ n, s.table n ≠ some k) ∧ closeCount tr k = 1) ∧
      ∀ i, (s.clients i).pc = .idle → (s.clients i).fd = none ∨
        ∃ k, s.sockOf i = some k ∧ (s.socks k).connected = true ∧ (s.socks k).ended = false := by
  have hinv : Inv s := Inv.of_runs h
  refine ⟨fun n => ?_, hinv.owned.sock_inj, fun k hk => ?_, fun i hpc => ?_⟩
  · constructor
    · intro hsome
      obtain ⟨k, hk⟩ := Option.isSome_iff_exists.1 hsome
      obtain ⟨i, hi⟩ := hinv.owned.owner n k hk
      exact ⟨i, hi, fun j hj => hinv.owned.inj j i n hj hi⟩
    · rintro ⟨i, hi, -⟩
      obtain ⟨k, hk⟩ := hinv.owned.refers i n hi
      rw [hk]
      rfl
  · rcases (Ledger.of_runs h).1 k hk with ⟨⟨i, hi⟩, hzero⟩ | ⟨hno, hone⟩
    · exact .inl ⟨⟨i, hi, fun j hj => hinv.sockOf_inj hj hi⟩, hzero⟩
    · refine .inr ⟨fun n hn => ?_, hone⟩
      obtain ⟨i, hi⟩ := hinv.owned.owner n k hn
      exact hno i (Option.bind_eq_some_iff.2 ⟨n, hi, hn⟩)
  · cases hfd : (s.clients i).fd with
    | none => exact .inl rfl
    | some n =>
      obtain ⟨k, hk⟩ := hinv.exists_sockOf hfd
      have hfit := hinv.fits i
      rw [hpc, hk] at hfit
      exact .inr ⟨k, hk, hfit _ rfl⟩

/-- Two clients: the first connects on a descriptor that the second has left after a failure, and the
second connects at another try. -/
def twoClients : State × List Event :=
  machine.after [.connect 1, .connect 0, .socket 1 (some 3), .resolve 1 false, .drop 1, .socket 0 (some 3),
    .connect 1, .socket 1 (some 4), .resolve 0 true, .resolve 1 true, .reach 0 true, .reach 1 true,
    .disconnect 0, .close 0]

theorem sockets_conserved_two : (∃! i, (twoClients.1.clients i).fd = some 4) ∧
    (∀ n, twoClients.1.table n ≠ some 1) ∧ closeCount twoClients.2 1 = 1 := by
  have hrun : machine.Runs free twoClients.2 twoClients.1 := Runs.after rfl
  obtain ⟨hopen, -, hsock, -⟩ := sockets_conserved hrun
  refine ⟨(hopen 4).1 rfl, ?_⟩
  rcases hsock 1 (by decide) with ⟨-, hzero⟩ | hclosed
  · cases hzero
  · exact hclosed

/-! ### The sender of one stream -/

def Event.on (k : Nat) : Event → Option SocketTransport.Event
  | .sock k' e => if k' = k then some e else none
  | _ => none

/-- The calls of `send` that went to socket `k`. -/
def eventsOn (k : Nat) (tr : List Event) : List SocketTransport.Event := tr.filterMap (Event.on k)

/-- After a `send` that failed with a part of its frame taken, a client sends again only on a new
connection. -/
def Careful (tr : List Event) (s : State) : Act → Prop
  | .send i _ => ∀ k, s.sockOf i = some k → ¬ Torn (eventsOn k tr)
  | _ => True

def Pc.call : Pc → Option (IPCMessage × Nat)
  | .send m sent => some (m, sent)
  | _ => none

/-- `c` is the call of the client that has socket `k`, if there is one. -/
def CallOn (s : State) (k : Nat) (c : Option (IPCMessage × Nat)) : Prop :=
  (∃ i, s.sockOf i = some k ∧ (s.clients i).pc.call = c) ∨ (∀ i, s.sockOf i ≠ some k) ∧ c = none

@[simp] theorem eventsOn_append (k : Nat) (tr o : List Event) :
    eventsOn k (tr ++ o) = eventsOn k tr ++ eventsOn k o := List.filterMap_append

@[simp] theorem eventsOn_nil (k : Nat) : eventsOn k [] = [] := rfl

theorem eventsOn_self (k : Nat) (e : SocketTransport.Event) : eventsOn k [.sock k e] = [e] := by
  simp [eventsOn, Event.on]

theorem eventsOn_of_ne (e : SocketTransport.Event) {l : Nat} (h : l ≠ k) : eventsOn k [.sock l e] = [] := by
  simp [eventsOn, Event.on, h]

namespace CallOn

variable {c c' : Option (IPCMessage × Nat)}

theorem eq (hinv : Inv s) (h : CallOn s k c) (hk : s.sockOf i = some k) : c = (s.clients i).pc.call := by
  rcases h with ⟨j, hj, rfl⟩ | ⟨hno, -⟩
  · rw [hinv.sockOf_inj hk hj]
  · exact absurd hk (hno i)

/-- Client `i` moves and has no call on socket `k`, before or after. -/
theorem keep (h : CallOn s k c) (hinv : Inv s)
    (hothers : ∀ j, j ≠ i → s'.sockOf j = s.sockOf j ∧ s'.clients j = s.clients j)
    (hself : (s.clients i).pc.call = none ∧ (s'.clients i).pc.call = none ∨
      s'.sockOf i = s.sockOf i ∧ s.sockOf i ≠ some k) : CallOn s' k c := by
  -- without a call, it does not matter whether `i` has the socket
  have hnone : (s'.clients i).pc.call = none → (∀ j, j ≠ i → s'.sockOf j ≠ some k) → c = none →
      CallOn s' k c := by
    rintro hcall hno rfl
    by_cases hi : s'.sockOf i = some k
    · exact .inl ⟨i, hi, hcall⟩
    · refine .inr ⟨fun j hj => ?_, rfl⟩
      by_cases hji : j = i
      · exact hi (hji ▸ hj)
      · exact hno j hji hj
  rcases h with ⟨j, hj, rfl⟩ | ⟨hno, rfl⟩
  · by_cases hji : j = i
    · subst hji
      rcases hself with ⟨hc, hc'⟩ | ⟨-, hne⟩
      · refine hnone hc' (fun j' hne hj' => hne ?_) hc
        rw [(hothers j' hne).1] at hj'
        exact hinv.sockOf_inj hj' hj
      · exact absurd hj hne
    · exact .inl ⟨j, by rw [(hothers j hji).1, hj], by rw [(hothers j hji).2]⟩
  · rcases hself with ⟨-, hc'⟩ | ⟨heq, hne⟩
    · exact hnone hc' (fun j hji hj => hno j ((hothers j hji).1 ▸ hj)) rfl
    · refine .inr ⟨fun j hj => ?_, rfl⟩
      by_cases hji : j = i
      · rw [hji, heq] at hj
        exact hne hj
      · exact hno j ((hothers j hji).1 ▸ hj)

end CallOn

/-- The calls on socket `k` and the bytes that its stream has taken are those of one sender. -/
def Sender (k : Nat) (tr : List Event) (s : State) : Prop :=
  ∃ t, SocketTransport.machine.Runs NotAfterTorn (eventsOn k tr) t ∧ t.stream = (s.socks k).stream ∧
    CallOn s k t.call ∧ ∀ m, t.call = some (m, 0) → ¬ Torn (eventsOn k tr)

namespace Sender

theorem keep (h : Sender k tr s) (hinv : Inv s)
    (hothers : ∀ j, j ≠ i → s'.sockOf j = s.sockOf j ∧ s'.clients j = s.clients j)
    (hself : (s.clients i).pc.call = none ∧ (s'.clients i).pc.call = none ∨
      s'.sockOf i = s.sockOf i ∧ s.sockOf i ≠ some k)
    (hst : (s'.socks k).stream = (s.socks k).stream) (ho : eventsOn k o = []) :
    Sender k (tr ++ o) s' := by
  obtain ⟨t, hrun, hstream, hcall, hclean⟩ := h
  refine ⟨t, ?_, hstream.trans hst.symm, hcall.keep hinv hothers hself, ?_⟩
  · rw [eventsOn_append, ho, List.append_nil]
    exact hrun
  · rw [eventsOn_append, ho, List.append_nil]
    exact hclean

theorem others_setPc (s : State) (i : Nat) (pc : Pc) (j : Nat) (h : j ≠ i) :
    (s.setPc i pc).sockOf j = s.sockOf j ∧ (s.setPc i pc).clients j = s.clients j :=
  ⟨setPc_sockOf s i pc j, setPc_of_ne s pc h⟩

/-- Client `i` goes from one place without a call to another. -/
theorem setPc (h : Sender k tr s) (hinv : Inv s) (hold : (s.clients i).pc.call = none)
    (hnew : pc.call = none) (ho : eventsOn k o = []) : Sender k (tr ++ o) (s.setPc i pc) :=
  h.keep hinv (others_setPc s i pc) (.inl ⟨hold, by rw [setPc_self]; exact hnew⟩) rfl ho

theorem stream_setSock {l : Nat} (hl : l = k → y.stream = (s.socks l).stream) :
    (Function.update s.socks l y k).stream = (s.socks k).stream := by
  by_cases heq : k = l
  · subst heq
    rw [Function.update_self, hl rfl]
  · rw [Function.update_of_ne heq]

/-- A call of client `i` on another socket. -/
theorem other {l : Nat} (h : Sender k tr s) (hinv : Inv s) (pc : Pc) (hl : s.sockOf i = some l)
    (hne : l ≠ k) {y : Sock} (ho : eventsOn k o = []) : Sender k (tr ++ o) ((s.setSock l y).setPc i pc) := by
  refine h.keep hinv (fun j hj => others_setPc (s.setSock l y) i pc j hj) (.inr ⟨?_, ?_⟩)
    (stream_setSock fun h => absurd h hne) ho
  · exact setPc_sockOf (s.setSock l y) i pc i
  · rw [hl]
    exact fun h => hne (Option.some.inj h)

/-- A step of the sender, by the client that has its socket. -/
theorem own {t t' : SocketTransport.State} {b : SocketTransport.Act} {e : List SocketTransport.Event}
    (hrun : SocketTransport.machine.Runs NotAfterTorn (eventsOn k tr) t)
    (hs : SocketTransport.step t b = some (t', e)) (hok : NotAfterTorn (eventsOn k tr) t b)
    (hk : s'.sockOf i = some k) (hst : t'.stream = (s'.socks k).stream)
    (hcall : t'.call = (s'.clients i).pc.call) (ho : eventsOn k o = e)
    (hclean : ∀ m, t'.call = some (m, 0) → ¬ Torn (eventsOn k tr ++ e)) : Sender k (tr ++ o) s' := by
  rw [Sender, eventsOn_append, ho]
  exact ⟨t', hrun.step hok hs, hst, .inl ⟨i, hk, hcall.symm⟩, hclean⟩

theorem silent (h : Sender k tr s) (ho : eventsOn k o = []) : Sender k (tr ++ o) s := by
  rw [Sender, eventsOn_append, ho, List.append_nil]
  exact h

/-- The socket of client `i` changes, but not its stream. -/
theorem setSock {l : Nat} (h : Sender k tr s) (hinv : Inv s) (hold : (s.clients i).pc.call = none)
    (hnew : pc.call = none) (hst : y.stream = (s.socks l).stream) (ho : eventsOn k o = []) :
    Sender k (tr ++ o) ((s.setSock l y).setPc i pc) :=
  h.keep hinv (others_setPc (s.setSock l y) i pc) (.inl ⟨hold, by rw [setPc_self]; exact hnew⟩)
    (stream_setSock fun _ => hst) ho

theorem closeFd (h : Sender k tr s) (hinv : Inv s) (hold : (s.clients i).pc.call = none)
    (hfd : (s.clients i).fd = some n) (ho : eventsOn k o = []) : Sender k (tr ++ o) (s.closeFd i) := by
  refine h.keep (i := i) hinv (fun j hj => ⟨?_, Function.update_of_ne hj _ _⟩) (.inl ⟨hold, ?_⟩) rfl ho
  · rw [hinv.closeFd_sockOf hfd, if_neg hj]
  · show (Function.update s.clients i ⟨none, .idle⟩ i).pc.call = none
    rw [Function.update_self]
    rfl

theorem call (h : Sender k tr s) (hinv : Inv s) {l : Nat} (hpc : (s.clients i).pc = .idle)
    (hl : s.sockOf i = some l) (hclean : ¬ Torn (eventsOn l tr)) :
    Sender k (tr ++ [.sock l (.call m)]) (s.setPc i (.send m 0)) := by
  by_cases heq : l = k
  · subst heq
    obtain ⟨t, hrun, hst, hcall, -⟩ := h
    have hnone : t.call = none := by rw [hcall.eq hinv hl, hpc]; rfl
    have hs : SocketTransport.step t (.send m) = some (⟨t.stream, some (m, 0)⟩, [.call m]) := by
      simp only [SocketTransport.step, hnone]
    refine own (i := i) hrun hs trivial ?_ hst ?_ (eventsOn_self l _) ?_
    · rw [setPc_sockOf, hl]
    · rw [setPc_self]
      rfl
    · rintro m' - ⟨m₀, sent, hpos, hmem⟩
      refine hclean ⟨m₀, sent, hpos, ?_⟩
      simpa using hmem
  · have hother := h.other (y := s.socks l) hinv (.send m 0) hl heq (eventsOn_of_ne (.call m) heq)
    rwa [setSock_self] at hother

theorem fail (h : Sender k tr s) (hinv : Inv s) {l : Nat} (hpc : (s.clients i).pc = .send m sent)
    (hl : s.sockOf i = some l) : Sender k (tr ++ [.sock l (.ret m false sent)]) (s.setPc i .idle) := by
  by_cases heq : l = k
  · subst heq
    obtain ⟨t, hrun, hst, hcall, -⟩ := h
    have hsome : t.call = some (m, sent) := by rw [hcall.eq hinv hl, hpc]; rfl
    have hs : SocketTransport.step t .fail = some (⟨t.stream, none⟩, [.ret m false sent]) := by
      simp only [SocketTransport.step, hsome]
    refine own (i := i) hrun hs trivial ?_ hst ?_ (eventsOn_self l _) (fun _ h => by cases h)
    · rw [setPc_sockOf, hl]
    · rw [setPc_self]
      rfl
  · have hother := h.other (y := s.socks l) hinv .idle hl heq (eventsOn_of_ne (.ret m false sent) heq)
    rwa [setSock_self] at hother

/-- `::send` takes bytes: the sender of the socket goes on as the client does. -/
theorem accept (h : Sender k tr s) (hinv : Inv s) (pc : Pc) {l : Nat} {e : List SocketTransport.Event}
    (hpc : (s.clients i).pc = .send m sent) (hl : s.sockOf i = some l)
    (hy : y.stream = (s.socks l).stream ++ ((frame m).drop sent).take n)
    (hs : ∀ t, t.call = some (m, sent) → SocketTransport.step t (.accept n) =
      some (⟨t.stream ++ ((frame m).drop sent).take n, pc.call⟩, e))
    (hpos : ∀ m', pc.call ≠ some (m', 0)) :
    Sender k (tr ++ e.map (.sock l)) ((s.setSock l y).setPc i pc) := by
  by_cases heq : l = k
  · subst heq
    obtain ⟨t, hrun, hst, hcall, hclean⟩ := h
    have hsome : t.call = some (m, sent) := by rw [hcall.eq hinv hl, hpc]; rfl
    have hself : ∀ e : List SocketTransport.Event, eventsOn l (e.map (.sock l)) = e := by
      intro e
      induction e with
      | nil => rfl
      | cons x e ih => rw [List.map_cons, ← List.singleton_append, eventsOn_append, eventsOn_self, ih]; rfl
    refine own (i := i) hrun (hs t hsome) hclean ?_ ?_ ?_ (hself e) fun m' hm' => absurd hm' (hpos m')
    · rw [setPc_sockOf]
      exact hl
    · show _ = (Function.update s.socks l y l).stream
      rw [Function.update_self, hy, hst]
    · rw [setPc_self]
  · refine h.other hinv pc hl heq (filterMap_map_eq_nil (fun e => ?_) e)
    simp [Event.on, heq]

theorem move (h : Sender k tr s) (hinv : Inv s) (hok : Careful tr s a) (hm : Move s a s' o) :
    Sender k (tr ++ o) s' := by
  cases hm with
  | idle | refused => exact h.silent rfl
  | enter i hpc hfd => exact h.setPc hinv (by rw [hpc]; rfl) rfl rfl
  | socketFail i hpc hfd => exact h.setPc hinv (by rw [hpc]; rfl) rfl rfl
  | socket i n hpc hfd hn =>
    refine h.keep (i := i) hinv (fun j hj => ⟨?_, Function.update_of_ne hj _ _⟩)
      (.inl ⟨by rw [hpc]; rfl, ?_⟩) (by rw [hinv.newSock_socks]) rfl
    · rw [hinv.newSock_sockOf hn, if_neg hj]
    · show (Function.update s.clients i ⟨some n, .resolve⟩ i).pc.call = none
      rw [Function.update_self]
      rfl
  | next _ i pc hpc hnew =>
    refine h.setPc hinv ?_ ?_ rfl
    · rcases hpc with hpc | hpc <;> rw [hpc] <;> rfl
    · rcases hnew with rfl | rfl <;> rfl
  | reached i l hpc hl => exact h.setSock hinv (by rw [hpc]; rfl) rfl rfl rfl
  | drop i n l hpc hfd hl => exact h.closeFd hinv (by rw [hpc]; rfl) hfd rfl
  | shut i l hpc hl => exact h.setSock hinv (by rw [hpc]; rfl) rfl rfl rfl
  | close i n l hpc hfd hl => exact h.closeFd hinv (by rw [hpc]; rfl) hfd rfl
  | call i l m hpc hl => exact h.call hinv hpc hl (hok l hl)
  | some i l n sent m hpc hl hn hle hlt =>
    refine h.accept (e := []) hinv (.send m (sent + n)) hpc hl rfl (fun t ht => ?_) ?_
    · simp only [SocketTransport.step, ht]
      rw [if_pos ⟨hn, hle⟩, if_neg (by omega)]
      rfl
    · intro m' hm'
      have hzero : sent + n = 0 := congrArg Prod.snd (Option.some.inj hm')
      omega
  | last i l n sent m hpc hl hn hle hlen =>
    refine h.accept (e := [.ret m true (sent + n)]) hinv .idle hpc hl rfl (fun t ht => ?_)
      (fun _ h => by cases h)
    simp only [SocketTransport.step, ht]
    rw [if_pos ⟨hn, hle⟩, if_pos hlen]
    rfl
  | fail i l sent m hpc hl => exact h.fail hinv hpc hl

theorem of_runs (h : machine.Runs Careful tr s) (k : Nat) : Sender k tr s := by
  induction h with
  | init => exact ⟨_, .init, rfl, .inr ⟨nofun, rfl⟩, nofun⟩
  | step h hok hs ih =>
    have hinv : Inv _ := Inv.of_runs h
    exact ih.move hinv hok (move_of_step hinv hs)

end Sender

end Lwipc.SocketClient
