import Lwipc.ServerDelivery

/-!
# `broadcast`

Any number of threads call `broadcast` while the server runs. A call holds `client_fds_mutex_` over all
its sends, each of which is the `send_ipc_message` of `Lwipc.SocketTransport` on the connection that the
descriptor refers to; the threads of the server take the same mutex to put a descriptor into the list and
to erase one, and do everything else meanwhile.

So the calls are in one order for all clients: each client gets the messages of the calls that found it in
the list, in that order, and no two messages mix (`broadcast_total_order`).
-/

namespace Lwipc.SocketBroadcast

open SocketServer SocketTransport

/-- A thread in `broadcast`. -/
inductive Pc
  | idle
  /-- before it has locked the mutex -/
  | enter (m : IPCMessage)
  /-- before the `i`-th descriptor; `sent` clients have got the message -/
  | loop (m : IPCMessage) (i sent : Nat)
  /-- in `send_ipc_message`, called with the `i`-th descriptor -/
  | sending (m : IPCMessage) (i sent fd : Nat)
  /-- behind the loop, before the mutex is released -/
  | leave (m : IPCMessage) (sent : Nat)

structure State (τ : Type) where
  server : Server
  /-- the call of `broadcast` that holds `client_fds_mutex_` -/
  lock : Option τ
  pc : τ → Pc
  /-- the sending side of each connection -/
  out : Nat → SocketTransport.State

inductive Act (τ : Type)
  | server (a : SocketServer.Act)
  | call (t : τ) (m : IPCMessage)
  /-- the next step of a call that is no `::send` -/
  | run (t : τ)
  /-- `::send` returns `k`, or zero or less -/
  | send (t : τ) (k : Option Nat)

inductive Event (τ : Type)
  /-- the mutex was locked, and what the descriptors in the list refer to -/
  | took (t : τ) (m : IPCMessage) (ds : List (Option Desc))
  /-- what a send on connection `c` shows -/
  | on (c : Nat) (e : SocketTransport.Event)
  /-- `broadcast` returned `sent` -/
  | ret (t : τ) (m : IPCMessage) (sent : Nat)

/-- The step is a block under `client_fds_mutex_`. -/
def locks (s : Server) : SocketServer.Act → Bool
  | .acc _ =>
    match s.acc with
    | some (.limit _) => true
    | _ => false
  | .handler c _ =>
    match (s.conns c).phase with
    | .erase => true
    | _ => false
  | _ => false

section
variable {τ : Type} [DecidableEq τ]

def State.setPc (s : State τ) (t : τ) (pc : Pc) : State τ := { s with pc := Function.update s.pc t pc }

def State.setOut (s : State τ) (c : Nat) (x : SocketTransport.State) : State τ :=
  { s with out := Function.update s.out c x }

/-- What the descriptors in `client_fds_` refer to. -/
def State.descs (s : State τ) : List (Option Desc) := s.server.clientFds.map s.server.table

/-- The steps of `broadcast` but for `::send`. -/
def run (s : State τ) (t : τ) : Option (State τ × List (Event τ)) :=
  match s.pc t with
  | .enter m =>
    match s.lock with
    | none => some ({ s.setPc t (.loop m 0 0) with lock := some t }, [.took t m s.descs])
    | some _ => none
  | .loop m i sent =>
    match s.server.clientFds[i]? with
    | some fd =>
      match s.server.table fd with
      | some (.conn c) => (SocketTransport.step (s.out c) (.send m)).map fun (x, o) =>
          ((s.setOut c x).setPc t (.sending m i sent fd), o.map (.on c))
      | _ => some (s.setPc t (.sending m i sent fd), [])
    | none => some (s.setPc t (.leave m sent), [])
  | .leave m sent => some ({ s.setPc t .idle with lock := none }, [.ret t m sent])
  | _ => none

/-- The return of a `::send`. On what is no connection it fails. -/
def sendStep (s : State τ) (t : τ) (k : Option Nat) : Option (State τ × List (Event τ)) :=
  match s.pc t with
  | .sending m i sent fd =>
    match s.server.table fd, k with
    | some (.conn c), some k => (SocketTransport.step (s.out c) (.accept k)).map fun (x, o) =>
        ((s.setOut c x).setPc t (if x.call.isNone then .loop m (i + 1) (sent + 1) else .sending m i sent fd),
          o.map (.on c))
    | some (.conn c), none => (SocketTransport.step (s.out c) .fail).map fun (x, o) =>
        ((s.setOut c x).setPc t (.loop m (i + 1) sent), o.map (.on c))
    | _, none => some (s.setPc t (.loop m (i + 1) sent), [])
    | _, some _ => none
  | _ => none

def step (maxClients : Int) (s : State τ) : Act τ → Option (State τ × List (Event τ))
  | .server .broadcast => none
  | .server a =>
    if s.lock.isSome && locks s.server a then none
    else (SocketServer.step maxClients s.server a).map fun (x, _) => ({ s with server := x }, [])
  | .call t m =>
    match s.pc t with
    | .idle => some (s.setPc t (.enter m), [])
    | _ => none
  | .run t => run s t
  | .send t k => sendStep s t k

def machine (maxClients : Int) : Machine (State τ) (Act τ) (Event τ) :=
  ⟨⟨SocketServer.init, none, fun _ => .idle, fun _ => ⟨[], none⟩⟩, step maxClients⟩

/-- What a step can do. -/
inductive Move (maxClients : Int) (s : State τ) : State τ → List (Event τ) → Prop
  | server (a : SocketServer.Act) (x : Server) (o : List SocketServer.Event)
      (hfree : s.lock = none ∨ locks s.server a = false)
      (hs : SocketServer.step maxClients s.server a = some (x, o)) :
      Move maxClients s { s with server := x } []
  | call (t : τ) (m : IPCMessage) (hp : s.pc t = .idle) : Move maxClients s (s.setPc t (.enter m)) []
  | took (t : τ) (m : IPCMessage) (hp : s.pc t = .enter m) (hl : s.lock = none) :
      Move maxClients s { s.setPc t (.loop m 0 0) with lock := some t } [.took t m s.descs]
  | start (t : τ) (m : IPCMessage) (i sent fd : Nat) (hp : s.pc t = .loop m i sent)
      (hfd : s.server.clientFds[i]? = some fd) (hno : ∀ c, s.server.table fd ≠ some (.conn c)) :
      Move maxClients s (s.setPc t (.sending m i sent fd)) []
  | finish (t : τ) (m : IPCMessage) (i sent : Nat) (hp : s.pc t = .loop m i sent)
      (hend : s.server.clientFds[i]? = none) : Move maxClients s (s.setPc t (.leave m sent)) []
  | leave (t : τ) (m : IPCMessage) (sent : Nat) (hp : s.pc t = .leave m sent) :
      Move maxClients s { s.setPc t .idle with lock := none } [.ret t m sent]
  | skip (t : τ) (m : IPCMessage) (i sent fd : Nat) (hp : s.pc t = .sending m i sent fd)
      (hno : ∀ c, s.server.table fd ≠ some (.conn c)) :
      Move maxClients s (s.setPc t (.loop m (i + 1) sent)) []
  | begin (t : τ) (m : IPCMessage) (i sent fd c : Nat) (hp : s.pc t = .loop m i sent)
      (hfd : s.server.clientFds[i]? = some fd) (hc : s.server.table fd = some (.conn c))
      (hs : SocketTransport.step (s.out c) (.send m) = some (⟨(s.out c).stream, some (m, 0)⟩, [.call m])) :
      Move maxClients s ((s.setOut c ⟨(s.out c).stream, some (m, 0)⟩).setPc t (.sending m i sent fd))
        [.on c (.call m)]
  | part (t : τ) (m m' : IPCMessage) (i sent fd c j k : Nat) (x : SocketTransport.State)
      (hp : s.pc t = .sending m i sent fd) (hc : s.server.table fd = some (.conn c))
      (hcall : (s.out c).call = some (m', j)) (hx : x.call = some (m', j + k))
      (hs : SocketTransport.step (s.out c) (.accept k) = some (x, [])) :
      Move maxClients s ((s.setOut c x).setPc t (.sending m i sent fd)) []
  | last (t : τ) (m m' : IPCMessage) (i sent fd c j k : Nat) (x : SocketTransport.State)
      (hp : s.pc t = .sending m i sent fd) (hc : s.server.table fd = some (.conn c))
      (hcall : (s.out c).call = some (m', j)) (hx : x.call = none)
      (hs : SocketTransport.step (s.out c) (.accept k) = some (x, [.ret m' true (j + k)])) :
      Move maxClients s ((s.setOut c x).setPc t (.loop m (i + 1) (sent + 1))) [.on c (.ret m' true (j + k))]
  | fail (t : τ) (m m' : IPCMessage) (i sent fd c j : Nat) (x : SocketTransport.State)
      (hp : s.pc t = .sending m i sent fd) (hc : s.server.table fd = some (.conn c))
      (hcall : (s.out c).call = some (m', j)) (hx : x.call = none)
      (hs : SocketTransport.step (s.out c) .fail = some (x, [.ret m' false j])) :
      Move maxClients s ((s.setOut c x).setPc t (.loop m (i + 1) sent)) [.on c (.ret m' false j)]

variable {maxClients : Int} {s s' : State τ} {o tr : List (Event τ)} {a : Act τ} {t : τ}

theorem move_of_run (h : run s t = some (s', o)) : Move maxClients s s' o := by
  unfold run at h
  split at h
  · rename_i m hp
    split at h
    · rename_i hl
      cases h
      exact .took t m hp hl
    · cases h
  · rename_i m i sent hp
    split at h
    · rename_i fd hfd
      split at h
      · rename_i c hc
        obtain ⟨⟨x, e⟩, hs, heq⟩ := Option.map_eq_some_iff.1 h
        cases heq
        cases SocketTransport.move_of_step hs with
        | send m hcall => exact .begin t m i sent fd c hp hfd hc hs
      · rename_i hno
        cases h
        exact .start t m i sent fd hp hfd hno
    · rename_i hend
      cases h
      exact .finish t m i sent hp hend
  · rename_i m sent hp
    cases h
    exact .leave t m sent hp
  · cases h

theorem move_of_send {k : Option Nat} (h : sendStep s t k = some (s', o)) : Move maxClients s s' o := by
  unfold sendStep at h
  split at h
  · rename_i m i sent fd hp
    split at h
    · rename_i c k hc
      obtain ⟨⟨x, e⟩, hs, heq⟩ := Option.map_eq_some_iff.1 h
      cases heq
      cases SocketTransport.move_of_step hs with
      | last m' j k hcall hk hle => exact .last t m m' i sent fd c j k _ hp hc hcall rfl hs
      | some m' j k hcall hk hlt => exact .part t m m' i sent fd c j k _ hp hc hcall rfl hs
    · rename_i c hc
      obtain ⟨⟨x, e⟩, hs, heq⟩ := Option.map_eq_some_iff.1 h
      cases heq
      cases SocketTransport.move_of_step hs with
      | fail m' j hcall => exact .fail t m m' i sent fd c j _ hp hc hcall rfl hs
    · rename_i hno
      cases h
      exact .skip t m i sent fd hp hno
    · cases h
  · cases h

theorem move_of_step (h : (machine maxClients).step s a = some (s', o)) : Move maxClients s s' o := by
  cases a with
  | server a =>
    have hserver : a ≠ .broadcast := by
      rintro rfl
      cases h
    have h : (if s.lock.isSome && locks s.server a then none
        else (SocketServer.step maxClients s.server a).map fun (x, _) => ({ s with server := x }, [])) =
        some (s', o) := by
      cases a with
      | broadcast => exact absurd rfl hserver
      | _ => exact h
    split at h
    · cases h
    · rename_i hfree
      obtain ⟨⟨x, e⟩, hs, heq⟩ := Option.map_eq_some_iff.1 h
      cases heq
      refine .server a x e ?_ hs
      cases hl : s.lock with
      | none => exact .inl rfl
      | some t => exact .inr (by simpa [hl] using hfree)
  | call t m =>
    simp only [machine, step] at h
    split at h <;> cases h
    exact .call t m ‹_›
  | run t => exact move_of_run h
  | send t k => exact move_of_send h

end

/-! ### What the events say -/

section
variable {τ : Type} (c : Nat) (tr o : List (Event τ))

/-- What was sent on connection `c`. -/
def eventsOn : List SocketTransport.Event :=
  tr.filterMap fun | .on c' e => if c' = c then some e else none | _ => none

/-- The messages of the calls that found connection `c` in the list, in the order of the locks. -/
def taken : List IPCMessage :=
  tr.filterMap fun | .took _ m ds => if some (.conn c) ∈ ds then some m else none | _ => none

/-- The connections on which a send was begun, as their descriptors have them. -/
def attempts : List (Option Desc) :=
  tr.filterMap fun | .on c (.call _) => some (some (.conn c)) | _ => none

/-- The sends that returned true. -/
def fulls : Nat := tr.countP fun | .on _ (.ret _ ok _) => ok | _ => false

@[simp] theorem eventsOn_append : eventsOn c (tr ++ o) = eventsOn c tr ++ eventsOn c o :=
  List.filterMap_append

@[simp] theorem taken_append : taken c (tr ++ o) = taken c tr ++ taken c o :=
  List.filterMap_append

@[simp] theorem attempts_append : attempts (tr ++ o) = attempts tr ++ attempts o :=
  List.filterMap_append

@[simp] theorem fulls_append : fulls (tr ++ o) = fulls tr + fulls o :=
  List.countP_append

variable {c' : Nat} (e : SocketTransport.Event)

@[simp] theorem taken_on : taken c ([.on c' e] : List (Event τ)) = [] := rfl

@[simp] theorem eventsOn_self : eventsOn c ([.on c e] : List (Event τ)) = [e] := by simp [eventsOn]

theorem eventsOn_of_ne (h : c' ≠ c) : eventsOn c ([.on c' e] : List (Event τ)) = [] := by simp [eventsOn, h]

theorem eventsOn_map_self (es : List SocketTransport.Event) :
    eventsOn c (es.map (.on c) : List (Event τ)) = es := by
  simp [eventsOn, List.filterMap_map]

theorem mem_eventsOn {tr : List (Event τ)} : e ∈ eventsOn c tr ↔ .on c e ∈ tr := by
  unfold eventsOn
  rw [List.mem_filterMap]
  constructor
  · rintro ⟨e', he', h⟩
    rcases e' with _ | ⟨c', e'⟩ | _ <;> simp at h
    obtain ⟨rfl, rfl⟩ := h
    exact he'
  · exact fun h => ⟨_, h, by simp⟩

theorem calls_eventsOn_ret (m : IPCMessage) (ok : Bool) (k : Nat) :
    calls (eventsOn c ([.on c' (.ret m ok k)] : List (Event τ))) = [] := by
  by_cases h : c' = c
  · rw [h, eventsOn_self]
    rfl
  · rw [eventsOn_of_ne c _ h]
    rfl

end

/-! ### The list of clients during a call -/

section
variable {maxClients : Int} {x x' : Server} {e : List SocketServer.Event} {fd : Nat}

theorem clientFds_of_recv {c n k : Nat} {next : List Byte → Phase} (h : recv x c n k next = some (x', e)) :
    x'.clientFds = x.clientFds := by
  unfold recv at h
  dsimp only at h
  split at h
  · split at h <;> cases h
    rfl
  · split at h <;> cases h
    rfl

/-- A step that does not lock the mutex leaves the list alone. -/
theorem clientFds_of_step {a : SocketServer.Act} (hs : SocketServer.step maxClients x a = some (x', e))
    (hl : locks x a = false) : x'.clientFds = x.clientFds := by
  cases a with
  | start cb =>
    simp only [SocketServer.step, start] at hs
    split at hs
    · split at hs <;> cases hs <;> rfl
    · cases hs
  | stop =>
    simp only [SocketServer.step] at hs
    split at hs <;> cases hs
    rfl
  | ctl =>
    have hs : stopStep x = some (x', e) := hs
    unfold stopStep at hs
    split at hs
    · cases hs
    · cases hs; rfl
    · cases hs; rfl
    · cases hs
      dsimp only
      split <;> rfl
    · cases hs; rfl
    · cases hs; rfl
    · split at hs <;> cases hs <;> rfl
    · split at hs
      · split at hs <;> cases hs
        rfl
      · cases hs; rfl
  | acc out =>
    have hs : acceptStep maxClients x x.acc out = some (x', e) := hs
    generalize hacc : x.acc = pc at hs
    unfold acceptStep at hs
    split at hs
    case h_13 c => simp [locks, hacc] at hl
    all_goals first
      | (cases hs; done)
      | (cases hs; rfl)
      | (split at hs <;> cases hs; rfl)
  | handler c k =>
    simp only [SocketServer.step] at hs
    split at hs
    · unfold handleStep at hs
      dsimp only at hs
      split at hs
      · cases hs; rfl
      · exact clientFds_of_recv hs
      · exact clientFds_of_recv hs
      · cases hs; rfl
      · rename_i hp
        simp [locks, hp] at hl
      · cases hs; rfl
      · cases hs
    · cases hs
  | broadcast =>
    cases hs
    rfl
  | send c bytes =>
    simp only [SocketServer.step] at hs
    split at hs <;> cases hs
    rfl
  | hangUp c =>
    simp only [SocketServer.step] at hs
    split at hs <;> cases hs
    rfl
  | abort c =>
    simp only [SocketServer.step] at hs
    split at hs <;> cases hs
    rfl

/-- What a descriptor in the list refers to stays, whatever the server does. -/
theorem table_of_move (hinv : SocketServer.Inv maxClients x) (hm : SocketServer.Move maxClients x x' e)
    (hfd : fd ∈ x.clientFds) : x'.table fd = x.table fd := by
  obtain ⟨c, hc, rfl, hlisted⟩ := (hinv.sound.listed_iff fd).1 hfd
  have htable := hinv.sound.table_eq hc (Phase.isOpen_of_isListed hlisted)
  -- the listening socket is no connection, a number given out was free, and a connection is closed when
  -- it is not in the list
  have hset : ∀ d, (x.setDesc x.listenFd d).table (x.conns c).fd = x.table (x.conns c).fd := by
    intro d
    cases hl : x.listenFd with
    | none => rfl
    | some l =>
      refine Function.update_of_ne (fun heq => ?_) _ _
      exact hinv.listen.notConn l c hl (heq ▸ htable)
  have hnew : ∀ {n d}, x.table n = none →
      Function.update x.table n d (x.conns c).fd = x.table (x.conns c).fd := by
    intro n d hn
    refine Function.update_of_ne (fun heq => ?_) _ _
    rw [heq, hn] at htable
    cases htable
  have hclose : ∀ {c'}, c' < x.accepted → (x.conns c').phase.isOpen = true →
      (x.conns c').phase.isListed = false →
      Function.update x.table (x.conns c').fd none (x.conns c).fd = x.table (x.conns c).fd := by
    intro c' hc' hopen hno
    refine Function.update_of_ne (fun heq => ?_) _ _
    exact hinv.sound.fd_notMem hc' hopen hno (heq ▸ hfd)
  cases hm with
  | shutdown | closeListen | listen | dropListen => exact hset _
  | socket n hacc hn => exact hnew hn
  | accepted l n hacc hl hn => exact hnew hn
  | reject c' hacc =>
    obtain ⟨hc', hp, -⟩ := hinv.of_limit hacc
    exact hclose hc' (by rw [hp]; rfl) (by rw [hp]; rfl)
  | close c' hc' hp => exact hclose hc' (by rw [hp]; rfl) (by rw [hp]; rfl)
  | _ => rfl

end

/-! ### Calls of `broadcast` -/

section
variable {τ : Type} {maxClients : Int} {s s' : State τ} {tr o : List (Event τ)} {t : τ} {m m' : IPCMessage}
  {j k n c : Nat} {cur : Option Nat} {x : SocketTransport.State}

/-- The thread holds the mutex. -/
def Pc.inside : Pc → Bool
  | .loop .. | .sending .. | .leave .. => true
  | _ => false

/-- A call that holds the mutex: the sends it has begun are those to the first `j` clients, `n` of them
returned true, and `cur` is the connection of the one in progress. -/
structure Turn (tr : List (Event τ)) (s : State τ) (t : τ) (m : IPCMessage) (j n : Nat) (cur : Option Nat) :
    Prop where
  since : ∃ tr₁ tr₂, tr = tr₁ ++ .took t m s.descs :: tr₂ ∧ attempts tr₂ = s.descs.take j ∧ fulls tr₂ = n ∧
    ∀ t' m' ds, .took t' m' ds ∉ tr₂
  owed : ∀ c, calls (eventsOn c tr) ++ (if some (.conn c) ∈ s.descs.drop j then [m] else []) = taken c tr
  quiet : ∀ c, (s.out c).call.map Prod.fst = if cur = some c then some m else none

/-- What holds of the call that has the mutex, by where it stands. -/
def Holder (tr : List (Event τ)) (s : State τ) (t : τ) : Pc → Prop
  | .loop m i sent => Turn tr s t m i sent none
  | .sending m i sent fd => s.server.clientFds[i]? = some fd ∧
      ∃ c, s.server.table fd = some (.conn c) ∧ Turn tr s t m (i + 1) sent (some c)
  | .leave m sent => Turn tr s t m s.descs.length sent none
  | _ => False

structure Inv (maxClients : Int) (tr : List (Event τ)) (s : State τ) : Prop where
  server : SocketServer.Inv maxClients s.server
  inside : ∀ t, (s.pc t).inside = true → s.lock = some t
  free : s.lock = none → ∀ c, (s.out c).call = none ∧ calls (eventsOn c tr) = taken c tr
  held : ∀ t, s.lock = some t → Holder tr s t (s.pc t)

theorem Turn.frame (h : Turn tr s t m j n cur) (hd : s'.descs = s.descs) (ho : s'.out = s.out) :
    Turn tr s' t m j n cur := by
  obtain ⟨hsince, howed, hquiet⟩ := h
  refine ⟨?_, ?_, ?_⟩
  · rwa [hd]
  · rwa [hd]
  · rwa [ho]

theorem Holder.frame {pc : Pc} (h : Holder tr s t pc) (hfds : s'.server.clientFds = s.server.clientFds)
    (htable : ∀ fd ∈ s.server.clientFds, s'.server.table fd = s.server.table fd) (ho : s'.out = s.out) :
    Holder tr s' t pc := by
  have hd : s'.descs = s.descs := by
    unfold State.descs
    rw [hfds]
    exact List.map_congr_left htable
  cases pc with
  | loop m i sent => exact Turn.frame h hd ho
  | sending m i sent fd =>
    obtain ⟨hfd, c, hc, hturn⟩ := h
    refine ⟨hfds ▸ hfd, c, ?_, hturn.frame hd ho⟩
    rw [htable fd (List.mem_of_getElem? hfd)]
    exact hc
  | leave m sent =>
    have hturn : Turn tr s t m s.descs.length sent none := h
    show Turn tr s' t m s'.descs.length sent none
    rw [hd]
    exact hturn.frame hd ho
  | idle | enter => exact h

theorem Turn.isPrefix_calls (h : Turn tr s t m j n cur) (c : Nat) : calls (eventsOn c tr) <+: taken c tr :=
  ⟨_, h.owed c⟩

theorem Holder.isPrefix_calls {pc : Pc} (h : Holder tr s t pc) (c : Nat) : calls (eventsOn c tr) <+: taken c tr := by
  cases pc with
  | loop => exact Turn.isPrefix_calls h c
  | sending =>
    obtain ⟨-, c', -, hturn⟩ := h
    exact hturn.isPrefix_calls c
  | leave => exact Turn.isPrefix_calls h c
  | idle | enter => exact h.elim

/-- Every descriptor in the list is that of a connection, and no two are of the same. -/
theorem descs_nodup (h : SocketServer.Inv maxClients s.server) : s.descs.Nodup := by
  refine h.sound.nodup.map_on fun fd hfd fd' hfd' heq => ?_
  obtain ⟨c, hc, rfl, hl⟩ := (h.sound.listed_iff fd).1 hfd
  rw [h.sound.table_eq hc (Phase.isOpen_of_isListed hl)] at heq
  exact ((h.sound.open_iff _ _).1 heq.symm).2.1

theorem exists_conn (h : SocketServer.Inv maxClients s.server) {fd : Nat} (hfd : fd ∈ s.server.clientFds) :
    ∃ c, s.server.table fd = some (.conn c) := by
  obtain ⟨c, hc, rfl, hl⟩ := (h.sound.listed_iff fd).1 hfd
  exact ⟨c, h.sound.table_eq hc (Phase.isOpen_of_isListed hl)⟩

/-- The mutex is locked while no call has it: nothing is sent yet. -/
theorem Turn.took (hfree : ∀ c, (s.out c).call = none ∧ calls (eventsOn c tr) = taken c tr)
    (hd : s'.descs = s.descs) (hout : s'.out = s.out) :
    Turn (tr ++ [.took t m s.descs]) s' t m 0 0 none := by
  refine ⟨⟨tr, [], by rw [hd], rfl, rfl, by simp⟩, fun c => ?_, fun c => ?_⟩
  · have htaken : taken c [.took t m s.descs] = if some (.conn c) ∈ s.descs then [m] else [] := by
      unfold taken
      by_cases hmem : some (.conn c) ∈ s.descs <;> simp [hmem]
    rw [eventsOn_append, taken_append, htaken, hd, List.drop_zero, ← (hfree c).2]
    simp [eventsOn]
  · rw [hout, (hfree c).1]
    rfl

/-- Behind the end of the list. -/
theorem Turn.all (h : Turn tr s t m j n cur) (hj : s.descs.length ≤ j) : Turn tr s t m s.descs.length n cur := by
  obtain ⟨⟨tr₁, tr₂, heq, hatt, hful, hno⟩, howed, hquiet⟩ := h
  refine ⟨⟨tr₁, tr₂, heq, ?_, hful, hno⟩, fun c => ?_, hquiet⟩
  · rw [hatt, List.take_of_length_le hj, List.take_length]
  · rw [← howed c, List.drop_of_length_le hj, List.drop_length]

/-- The next send begins. -/
theorem Turn.begin (h : Turn tr s t m j n none) (hnodup : s.descs.Nodup)
    (hc : s.descs[j]? = some (some (.conn c))) (hd : s'.descs = s.descs)
    (hout : s'.out = Function.update s.out c x) (hx : x.call.map Prod.fst = some m) :
    Turn (tr ++ [.on c (.call m)]) s' t m (j + 1) n (some c) := by
  obtain ⟨⟨tr₁, tr₂, rfl, hatt, hful, hno⟩, howed, hquiet⟩ := h
  obtain ⟨hlt, hget⟩ := List.getElem?_eq_some_iff.1 hc
  have hdrop : s.descs.drop j = some (.conn c) :: s.descs.drop (j + 1) := by
    rw [List.drop_eq_getElem_cons hlt, hget]
  refine ⟨⟨tr₁, tr₂ ++ [.on c (.call m)], by simp [hd], ?_, ?_, ?_⟩, fun c' => ?_, fun c' => ?_⟩
  · rw [attempts_append, hatt, hd, List.take_add_one, hc]
    rfl
  · rw [fulls_append, hful]
    rfl
  · intro t' m' ds hmem
    exact hno t' m' ds (by simpa using hmem)
  · rw [taken_append _ _ [.on c (.call m)], taken_on, List.append_nil, ← howed c', eventsOn_append _ _ [.on c _],
      calls_append, hd, hdrop]
    by_cases hcc : c' = c
    · subst hcc
      have hout : some (.conn c') ∉ s.descs.drop (j + 1) := by
        have := hnodup.sublist (List.drop_sublist j s.descs)
        rw [hdrop] at this
        exact (List.nodup_cons.1 this).1
      simp [hout]
    · simp [eventsOn_of_ne c' _ (Ne.symm hcc), hcc]
  · rw [hout]
    by_cases hcc : c' = c
    · subst hcc
      simpa using hx
    · rw [Function.update_of_ne hcc, hquiet]
      simp [Ne.symm hcc]

/-- A part of the frame is taken. -/
theorem Turn.part (h : Turn tr s t m j n (some c)) (hcall : (s.out c).call = some (m', k))
    (hx : x.call.map Prod.fst = some m') (hd : s'.descs = s.descs)
    (hout : s'.out = Function.update s.out c x) : Turn tr s' t m j n (some c) := by
  obtain ⟨hsince, howed, hquiet⟩ := h
  refine ⟨by rwa [hd], by rwa [hd], fun c' => ?_⟩
  rw [hout]
  by_cases hcc : c' = c
  · subst hcc
    rw [Function.update_self, hx, ← hquiet c', hcall]
    rfl
  · rw [Function.update_of_ne hcc]
    exact hquiet c'

/-- A send returns. -/
theorem Turn.ret (h : Turn tr s t m j n (some c)) (ok : Bool) (hx : x.call = none) (hd : s'.descs = s.descs)
    (hout : s'.out = Function.update s.out c x) :
    Turn (tr ++ [.on c (.ret m' ok k)]) s' t m j (n + ok.toNat) none := by
  obtain ⟨⟨tr₁, tr₂, rfl, hatt, hful, hno⟩, howed, hquiet⟩ := h
  refine ⟨⟨tr₁, tr₂ ++ [.on c (.ret m' ok k)], by simp [hd], ?_, ?_, ?_⟩, fun c' => ?_, fun c' => ?_⟩
  · rw [attempts_append, hatt, hd]
    exact List.append_nil _
  · rw [fulls_append, hful]
    cases ok <;> rfl
  · intro t' m' ds hmem
    exact hno t' m' ds (by simpa using hmem)
  · rw [eventsOn_append _ _ [.on c _], calls_append, calls_eventsOn_ret, List.append_nil,
      taken_append _ _ [.on c _], taken_on, List.append_nil, hd]
    exact howed c'
  · rw [hout]
    by_cases hcc : c' = c
    · subst hcc
      rw [Function.update_self, hx]
      rfl
    · rw [Function.update_of_ne hcc, hquiet]
      simp [Ne.symm hcc]

variable [DecidableEq τ]

theorem inv_init : Inv maxClients [] (machine maxClients : Machine (State τ) _ _).init where
  server := SocketServer.Inv.init maxClients
  inside := fun _ h => by cases h
  free := fun _ _ => ⟨rfl, rfl⟩
  held := fun _ h => by cases h

/-- A step of the call that holds the mutex. -/
theorem Inv.holder {pc : Pc} {tr' : List (Event τ)} (h : Inv maxClients tr s) (hl : s.lock = some t)
    (hserver : s'.server = s.server) (hlock : s'.lock = s.lock) (hpc : s'.pc = Function.update s.pc t pc)
    (hheld : Holder tr' s' t pc) : Inv maxClients tr' s' := by
  refine ⟨hserver ▸ h.server, fun t' ht' => ?_, fun hnone => ?_, fun t' ht' => ?_⟩
  · rw [hlock]
    by_cases htt : t' = t
    · rw [htt, hl]
    · rw [hpc, Function.update_of_ne htt] at ht'
      exact h.inside t' ht'
  · rw [hlock, hl] at hnone
    cases hnone
  · obtain rfl : t = t' := by
      rw [hlock, hl] at ht'
      exact Option.some.inj ht'
    rw [hpc, Function.update_self]
    exact hheld

theorem Inv.move (h : Inv maxClients tr s) (hm : Move maxClients s s' o) : Inv maxClients (tr ++ o) s' := by
  have hinside : ∀ {t pc}, s.pc t = pc → pc.inside = true → s.lock = some t ∧ Holder tr s t pc := by
    intro t pc hp hin
    have hl := h.inside t (by rw [hp]; exact hin)
    exact ⟨hl, hp ▸ h.held t hl⟩
  cases hm with
  | server a x e hfree hs =>
    rw [List.append_nil]
    have hmove := SocketServer.move_of_step hs
    refine ⟨h.server.move hmove, h.inside, h.free, fun t hl => ?_⟩
    have hfree : locks s.server a = false := by
      rcases hfree with hnone | hfree
      · rw [hnone] at hl
        cases hl
      · exact hfree
    exact (h.held t hl).frame (clientFds_of_step hs hfree) (fun fd hfd => table_of_move h.server hmove hfd) rfl
  | call t m hp =>
    rw [List.append_nil]
    refine ⟨h.server, fun t' ht' => ?_, h.free, fun t' hl => ?_⟩
    · change (Function.update s.pc t (.enter m) t').inside = true at ht'
      by_cases htt : t' = t
      · rw [htt, Function.update_self] at ht'
        cases ht'
      · rw [Function.update_of_ne htt] at ht'
        exact h.inside t' ht'
    · have hheld := h.held t' hl
      have htt : t' ≠ t := by
        rintro rfl
        rw [hp] at hheld
        exact hheld
      show Holder tr _ t' (Function.update s.pc t (.enter m) t')
      rw [Function.update_of_ne htt]
      exact hheld.frame rfl (fun _ _ => rfl) rfl
  | took t m hp hl =>
    refine ⟨h.server, fun t' ht' => ?_, (fun hnone => by cases hnone), fun t' ht' => ?_⟩
    · change (Function.update s.pc t (.loop m 0 0) t').inside = true at ht'
      by_cases htt : t' = t
      · rw [htt]
      · rw [Function.update_of_ne htt] at ht'
        have hlock := h.inside t' ht'
        rw [hl] at hlock
        cases hlock
    · obtain rfl : t = t' := Option.some.inj ht'
      show Holder _ _ t (Function.update s.pc t (.loop m 0 0) t)
      rw [Function.update_self]
      exact Turn.took (h.free hl) rfl rfl
  | start t m i sent fd hp hfd hno =>
    obtain ⟨c, hc⟩ := exists_conn h.server (List.mem_of_getElem? hfd)
    exact absurd hc (hno c)
  | finish t m i sent hp hend =>
    obtain ⟨hl, hturn⟩ := hinside hp rfl
    rw [List.append_nil]
    have hlen : s.descs.length ≤ i := by
      rw [State.descs, List.length_map]
      exact List.getElem?_eq_none_iff.1 hend
    exact h.holder hl rfl rfl rfl ((Turn.all hturn hlen).frame rfl rfl)
  | leave t m sent hp =>
    obtain ⟨hl, hturn⟩ := hinside hp rfl
    refine ⟨h.server, fun t' ht' => ?_, fun _ c => ?_, (fun t' ht' => by cases ht')⟩
    · change (Function.update s.pc t .idle t').inside = true at ht'
      by_cases htt : t' = t
      · rw [htt, Function.update_self] at ht'
        cases ht'
      · rw [Function.update_of_ne htt] at ht'
        have hlock := h.inside t' ht'
        rw [hl] at hlock
        exact absurd (Option.some.inj hlock).symm htt
    · have howed := hturn.owed c
      have hquiet : (s.out c).call.map Prod.fst = none := hturn.quiet c
      rw [List.drop_length] at howed
      refine ⟨Option.map_eq_none_iff.1 hquiet, ?_⟩
      rw [eventsOn_append, taken_append]
      simpa [eventsOn, taken] using howed
  | skip t m i sent fd hp hno =>
    obtain ⟨-, -, c, hc, -⟩ := hinside hp rfl
    exact absurd hc (hno c)
  | begin t m i sent fd c hp hfd hc hs =>
    obtain ⟨hl, hturn⟩ := hinside hp rfl
    refine h.holder hl rfl rfl rfl ⟨hfd, c, hc, ?_⟩
    have hd : s.descs[i]? = some (some (.conn c)) := by
      rw [State.descs, List.getElem?_map, hfd, Option.map_some, hc]
    exact Turn.begin hturn (descs_nodup h.server) hd rfl rfl rfl
  | part t m m' i sent fd c j k x hp hc hcall hx hs =>
    obtain ⟨hl, hfd, c', hc', hturn⟩ := hinside hp rfl
    obtain rfl : c = c' := by simpa [hc] using hc'
    rw [List.append_nil]
    exact h.holder hl rfl rfl rfl ⟨hfd, c, hc, hturn.part hcall (by rw [hx]; rfl) rfl rfl⟩
  | last t m m' i sent fd c j k x hp hc hcall hx hs =>
    obtain ⟨hl, hfd, c', hc', hturn⟩ := hinside hp rfl
    obtain rfl : c = c' := by simpa [hc] using hc'
    exact h.holder hl rfl rfl rfl (hturn.ret true hx rfl rfl)
  | fail t m m' i sent fd c j x hp hc hcall hx hs =>
    obtain ⟨hl, hfd, c', hc', hturn⟩ := hinside hp rfl
    obtain rfl : c = c' := by simpa [hc] using hc'
    exact h.holder hl rfl rfl rfl (hturn.ret false hx rfl rfl)

theorem inv_of_runs (h : (machine maxClients).Runs Machine.free tr s) : Inv maxClients tr s :=
  h.invariant inv_init fun _ _ _ _ _ hi _ hs => hi.move (move_of_step hs)

/-! ### What the clients get -/

omit [DecidableEq τ] in
theorem out_of_update {b : SocketTransport.Act} {e : List SocketTransport.Event}
    (hs : SocketTransport.step (s.out c) b = some (x, e)) (hout : s'.out = Function.update s.out c x) (c' : Nat) :
    (s'.out c' = s.out c' ∧ eventsOn c' (e.map (.on c) : List (Event τ)) = []) ∨
      ∃ b, SocketTransport.step (s.out c') b = some (s'.out c', eventsOn c' (e.map (.on c) : List (Event τ))) := by
  by_cases hcc : c' = c
  · subst hcc
    refine .inr ⟨b, ?_⟩
    rw [hs, hout, Function.update_self, eventsOn_map_self]
  · refine .inl ⟨by rw [hout, Function.update_of_ne hcc], ?_⟩
    exact filterMap_map_eq_nil (fun _ => by simp [Ne.symm hcc]) e

/-- On each connection the server sends as a client does. -/
theorem runs_on (h : (machine maxClients).Runs Machine.free tr s) (c : Nat) :
    SocketTransport.machine.Runs Machine.free (eventsOn c tr) (s.out c) := by
  have hinit : (machine maxClients : Machine (State τ) _ _).init.out c = SocketTransport.machine.init := rfl
  refine h.project (f := fun s => s.out c) (g := eventsOn c) hinit rfl (eventsOn_append c) ?_
  intro tr s a s' o _ _ hstep
  have hout : (s'.out c = s.out c ∧ eventsOn c o = []) ∨
      ∃ b, SocketTransport.step (s.out c) b = some (s'.out c, eventsOn c o) := by
    cases move_of_step hstep with
    | server | call | took | start | finish | leave | skip => exact .inl ⟨rfl, rfl⟩
    | begin t m i sent fd c' hp hfd hc hs => exact out_of_update hs rfl c
    | part t m m' i sent fd c' j k x hp hc hcall hx hs => exact out_of_update hs rfl c
    | last t m m' i sent fd c' j k x hp hc hcall hx hs => exact out_of_update hs rfl c
    | fail t m m' i sent fd c' j x hp hc hcall hx hs => exact out_of_update hs rfl c
  exact hout.imp_right fun ⟨b, hb⟩ => ⟨b, trivial, hb⟩

/-- What a call has done that returned `sent`: it has begun one send to each client that it found in the
list, in the order of the list, and `sent` of them returned true, with no other call in between. -/
def Returned (tr : List (Event τ)) (t : τ) (m : IPCMessage) (sent : Nat) : Prop :=
  ∃ tr₁ ds tr₂, tr = tr₁ ++ .took t m ds :: tr₂ ∧ attempts tr₂ = ds ∧ fulls tr₂ = sent ∧
    ∀ t' m' ds', .took t' m' ds' ∉ tr₂

omit [DecidableEq τ] in
theorem returned_of_leave (h : Inv maxClients tr s) {sent : Nat} (hp : s.pc t = .leave m sent) :
    Returned tr t m sent := by
  have hl := h.inside t (by rw [hp]; rfl)
  have hturn := h.held t hl
  rw [hp] at hturn
  obtain ⟨tr₁, tr₂, heq, hatt, hful, hno⟩ := Turn.since hturn
  rw [List.take_length] at hatt
  exact ⟨tr₁, s.descs, tr₂, heq, hatt, hful, hno⟩

theorem returned_of_runs (h : (machine maxClients).Runs Machine.free tr s) {tr₀ tr₃ : List (Event τ)} {sent : Nat}
    (heq : tr = tr₀ ++ .ret t m sent :: tr₃) : Returned tr₀ t m sent := by
  induction h generalizing tr₃ with
  | init => simp at heq
  | @step tr s s' a o hr _ hs ih =>
    have hold : ∀ {e}, o = [e] → e ≠ .ret t m sent → Returned tr₀ t m sent := by
      rintro e rfl hne
      rcases append_singleton_eq_append_cons heq with ⟨-, he⟩ | ⟨l, hl⟩
      · exact absurd he hne
      · exact ih hl
    cases move_of_step hs with
    | server | call | start | finish | skip | part =>
      rw [List.append_nil] at heq
      exact ih heq
    | took | begin | last | fail => exact hold rfl (by simp)
    | leave t' m' sent' hp =>
      rcases append_singleton_eq_append_cons heq with ⟨rfl, he⟩ | ⟨l, hl⟩
      · cases he
        exact returned_of_leave (inv_of_runs hr) hp
      · exact ih hl

omit [DecidableEq τ] in
/-- A stream on which no send has failed. -/
theorem stream_of_noFail {e : List SocketTransport.Event} (h : SocketTransport.machine.Runs Machine.free e x)
    (hno : ∀ m k, .ret m false k ∉ e) (hcall : x.call = none) : x.stream = ((calls e).map frame).flatten := by
  have hnofail : SocketTransport.machine.Runs NoFail e x := by
    refine h.mono_of (B := fun e => ∀ m k, .ret m false k ∉ e) (fun e o hb m k hmem => ?_) ?_ hno
    · exact hb m k (List.mem_append_left _ hmem)
    · intro e x a x' o hb _ hs
      cases SocketTransport.move_of_step hs with
      | send | last | some => trivial
      | fail m k => exact absurd (List.mem_append_right _ (List.mem_singleton_self _)) (hb m k)
  have hclean := cleanFail_of_noFail hnofail
  obtain ⟨part, hstream, hrest⟩ := SocketTransport.inv_of_runs (notAfterTorn_of_cleanFail hclean)
  have heq := eq_of_runs hnofail
  simp only [hcall] at hrest
  simp only [Ordered, hcall] at heq
  obtain rfl := hrest.resolve_right fun hr => not_torn_of_cleanFail hclean hr.1
  rw [hstream, List.append_nil, heq]

/-- In every run of the server with any number of calls of `broadcast`: on each connection the sends are
those of the calls that found it in the list, in the order in which these locked the mutex, and when no
call has the mutex they are all; the stream is then the frames of these messages unless a send on it has
failed. A call that returns has sent to each client that it found in the list, once and in the order of the
list, with no other call in between, and returns how many of these sends returned true. -/
theorem broadcast_total_order (maxClients : Int) (tr : List (Event τ)) (s : State τ)
    (h : (machine maxClients).Runs Machine.free tr s) :
    (∀ c, calls (eventsOn c tr) <+: taken c tr) ∧
    (s.lock = none → ∀ c, calls (eventsOn c tr) = taken c tr ∧
      ((∀ m k, .on c (.ret m false k) ∉ tr) → (s.out c).stream = ((taken c tr).map frame).flatten)) ∧
    ∀ tr₀ t m sent tr₃, tr = tr₀ ++ .ret t m sent :: tr₃ → Returned tr₀ t m sent := by
  have hinv := inv_of_runs h
  refine ⟨fun c => ?_, fun hl c => ?_, fun tr₀ t m sent tr₃ heq => returned_of_runs h heq⟩
  · cases hl : s.lock with
    | none => exact ⟨[], by rw [List.append_nil, (hinv.free hl c).2]⟩
    | some t => exact (hinv.held t hl).isPrefix_calls c
  · obtain ⟨hcall, hcalls⟩ := hinv.free hl c
    refine ⟨hcalls, fun hno => ?_⟩
    rw [← hcalls]
    exact stream_of_noFail (runs_on h c) (fun m k hmem => hno m k ((mem_eventsOn c _).1 hmem)) hcall

end

/-- No send on connection `c` has failed here. -/
def Event.unfailed {τ : Type} (c : Nat) : Event τ → Bool
  | .on c' (.ret _ ok _) => ok || c' ≠ c
  | _ => true

/-- Two calls at once, with two clients: the first send to the second client fails, and the second call
waits for the mutex meanwhile. -/
theorem broadcast_total_order_two : ∃ (tr : List (Event Bool)) (s : State Bool) (m m' : IPCMessage),
    taken 0 tr = [m, m'] ∧ taken 1 tr = [m, m'] ∧ (s.out 0).stream = frame m ++ frame m' ∧
      (s.out 1).stream = frame m' ∧ fulls tr = 3 := by
  let m := IPCMessage.new .default none 0
  let m' := IPCMessage.new .default (some fun _ => 7) 1
  let M : Machine (State Bool) (Act Bool) (Event Bool) := machine 8
  let serve : List SocketServer.Act := listenActs ++ connectActs 4 ++ [.acc .ok, .acc .ok] ++ connectActs 5
  let acts : List (Act Bool) := serve.map .server ++
    [.call false m, .call true m', .run false, .run false, .send false (some 4), .server (.send 0 [1]),
      .send false (some 64), .run false, .send false none, .run false, .run false, .run true, .run true,
      .send true (some 4), .send true (some 65), .run true, .send true (some 4), .send true (some 65), .run true,
      .run true]
  have hexec : (M.exec M.init acts).map (fun (s, tr) => ((s.lock.isNone, tr.all (Event.unfailed 0), fulls tr),
      (taken 0 tr, taken 1 tr), (s.out 1).stream)) = some ((true, true, 3), ([m, m'], [m, m']), frame m') := by
    decide +kernel
  obtain ⟨tr, s, hrun, hend⟩ := Machine.Runs.exists_of_exec hexec
  simp only [Prod.mk.injEq, Option.isNone_iff_eq_none, List.all_eq_true] at hend
  obtain ⟨⟨hl, hall, hful⟩, ⟨h0, h1⟩, hstream⟩ := hend
  have hzero := ((broadcast_total_order 8 tr s hrun).2.1 hl 0).2 fun m k hmem => by
    have := hall _ hmem
    simp [Event.unfailed] at this
  rw [h0] at hzero
  exact ⟨tr, s, m, m', h0, h1, by simpa using hzero, hstream, hful⟩

end Lwipc.SocketBroadcast
