import Lwipc.ServerInv

/-!
# The client list over whole runs

What the threads do to descriptors is seen in the events: a `close` for a connection hits its own
descriptor and happens once, `broadcast` writes to connections only, and between the return of `stop`
and the next `start` the server is at rest. `reap_done_threads` removes no thread, so the list of
threads is the list of the connections served since the last `stop`.
-/

namespace Lwipc.SocketServer

open Machine IPCMessage

def Event.closes (c : Nat) : Event → Bool
  | .closed c' _ => c' = c
  | _ => false

/-- How often a connection was closed. -/
def closeCount (tr : List Event) (c : Nat) : Nat := (tr.filter (Event.closes c)).length

/-- Whether a connection was accepted and is closed. -/
def ended (conns : Nat → Conn) (accepted c : Nat) : Nat :=
  if c < accepted ∧ (conns c).phase.isOpen = false then 1 else 0

variable {maxClients : Int} {s s' : Server} {o tr : List Event} {conns : Nat → Conn} {accepted c : Nat}
  {x : Conn}

theorem closeCount_append (tr o : List Event) (c : Nat) :
    closeCount (tr ++ o) c = closeCount tr c + closeCount o c := by
  unfold closeCount
  rw [List.filter_append, List.length_append]

theorem ended_update (hopen : x.phase.isOpen = (conns c).phase.isOpen) (c' : Nat) :
    ended (Function.update conns c x) accepted c' = ended conns accepted c' := by
  unfold ended
  by_cases hc : c' = c
  · subst hc
    rw [Function.update_self, hopen]
  · rw [Function.update_of_ne hc]

theorem ended_accept (hx : x.phase.isOpen = true) (c : Nat) :
    ended (Function.update conns accepted x) (accepted + 1) c = ended conns accepted c := by
  unfold ended
  by_cases hc : c = accepted
  · subst hc
    rw [Function.update_self, hx]
    simp
  · rw [Function.update_of_ne hc]
    exact if_congr (and_congr_left fun _ => by omega) rfl rfl

theorem ended_close (hc : c < accepted) (hopen : (conns c).phase.isOpen = true)
    (hx : x.phase.isOpen = false) (c' : Nat) :
    ended (Function.update conns c x) accepted c' = ended conns accepted c' + if c = c' then 1 else 0 := by
  unfold ended
  by_cases heq : c' = c
  · subst heq
    rw [Function.update_self, if_pos ⟨hc, hx⟩, if_neg (by rw [hopen]; nofun), if_pos rfl]
  · rw [Function.update_of_ne heq, if_neg (Ne.symm heq), Nat.add_zero]

theorem closeCount_closed (c' : Nat) (hit : Option Desc) :
    closeCount [.closed c hit] c' = if c = c' then 1 else 0 := by
  unfold closeCount
  by_cases heq : c = c' <;> simp [Event.closes, heq]

theorem ended_move (h : Inv maxClients s) (hm : Move maxClients s s' o) (c : Nat) :
    ended s'.conns s'.accepted c = ended s.conns s.accepted c + closeCount o c := by
  cases hm with
  | accepted l n hacc hl hn =>
    rw [show closeCount [] c = 0 from rfl, Nat.add_zero]
    exact ended_accept rfl c
  | reject c' hacc =>
    obtain ⟨hc, hp, -⟩ := h.of_limit hacc
    have hopen : (s.conns c').phase.isOpen = true := by rw [hp]; rfl
    rw [closeCount_closed]
    exact ended_close hc hopen rfl c
  | close c' hc hp =>
    have hopen : (s.conns c').phase.isOpen = true := by rw [hp]; rfl
    rw [closeCount_closed]
    exact ended_close hc hopen rfl c
  | list c' hacc =>
    obtain ⟨hc, hp, -⟩ := h.of_limit hacc
    rw [show closeCount [] c = 0 from rfl, Nat.add_zero]
    exact ended_update (by rw [hp]; rfl) c
  | spawn c' hacc =>
    obtain ⟨hc, hp⟩ := (h.handoff.listed c').1 (.inr hacc)
    rw [show closeCount [.spawned c'] c = 0 from rfl, Nat.add_zero]
    exact ended_update (by rw [hp]; rfl) c
  | handle c' x o hc hold hnew hshort hfd ho =>
    rw [show closeCount o c = 0 by rcases ho with rfl | ⟨m, rfl⟩ <;> rfl, Nat.add_zero]
    exact ended_update (by rw [Phase.isOpen_of_inLoop hold, Phase.isOpen_of_inLoop hnew]) c
  | erase c' hc hp =>
    rw [show closeCount [] c = 0 from rfl, Nat.add_zero]
    exact ended_update (by rw [hp]; rfl) c
  | peer c' x hc hp =>
    rw [show closeCount [] c = 0 from rfl, Nat.add_zero]
    exact ended_update (by rw [hp]) c
  | broadcast =>
    have hzero : closeCount (s.clientFds.map fun fd => .sent (s.table fd)) c = 0 := by
      unfold closeCount
      rw [List.length_eq_zero_iff, List.filter_eq_nil_iff]
      intro ev hev
      obtain ⟨fd, -, rfl⟩ := List.mem_map.1 hev
      nofun
    rw [hzero, Nat.add_zero]
  | _ => rfl

theorem hits_move (h : Inv maxClients s) (hm : Move maxClients s s' o) :
    (∀ c hit, .closed c hit ∈ o → hit = some (.conn c)) ∧ ∀ d, .sent d ∈ o → ∃ c, d = some (.conn c) := by
  cases hm with
  | reject c hacc =>
    refine ⟨fun c' hit hmem => ?_, fun d hmem => by simp at hmem⟩
    obtain ⟨rfl, rfl⟩ : c' = c ∧ hit = s.table (s.conns c).fd := by simpa using hmem
    exact (h.of_limit hacc).2.2
  | close c hc hp =>
    refine ⟨fun c' hit hmem => ?_, fun d hmem => by simp at hmem⟩
    obtain ⟨rfl, rfl⟩ : c' = c ∧ hit = s.table (s.conns c).fd := by simpa using hmem
    exact h.sound.table_eq hc (by rw [hp]; rfl)
  | broadcast =>
    refine ⟨fun c hit hmem => by simp at hmem, fun d hmem => ?_⟩
    obtain ⟨fd, hfd, heq⟩ := List.mem_map.1 hmem
    cases heq
    obtain ⟨c, hc, rfl, hl⟩ := (h.sound.listed_iff fd).1 hfd
    exact ⟨c, h.sound.table_eq hc (Phase.isOpen_of_isListed hl)⟩
  | handle c x o hc hold hnew hshort hfd ho =>
    rcases ho with rfl | ⟨m, rfl⟩ <;> simp
  | _ => simp

/-! ### The server at rest -/

/-- No thread of the server is at work and all connections are closed. -/
def Rest (s : Server) : Prop :=
  s.acc = none ∧ ∀ c < s.accepted, (s.conns c).phase.isOpen = false

theorem Rest.setConn (h : Rest s) (hp : x.phase.isOpen = (s.conns c).phase.isOpen) : Rest (s.setConn c x) := by
  refine ⟨h.1, fun c' hc => ?_⟩
  show (Function.update s.conns c x c').phase.isOpen = false
  by_cases heq : c' = c
  · subst heq
    rw [Function.update_self, hp]
    exact h.2 c' hc
  · rw [Function.update_of_ne heq]
    exact h.2 c' hc

/-- Only `start` ends the rest, and no callback runs in it. -/
theorem Rest.move (h : Rest s) (hm : Move maxClients s s' o) (ho : .started ∉ o) :
    Rest s' ∧ ∀ c m, .callback c m ∉ o := by
  have hacc : ∀ {pc : AccPc} {P : Prop}, s.acc = some pc → P := by
    intro pc P heq
    cases h.1.symm.trans heq
  have hopen : ∀ {c : Nat} {P : Prop}, c < s.accepted → (s.conns c).phase.isOpen = true → P := by
    intro c P hc heq
    cases (h.2 c hc).symm.trans heq
  cases hm with
  | start => simp at ho
  | socket n ha | socketFail ha | bind ha | listen ha | dropListen ha | dropReset ha | loop ha
  | accept ha | accepted l n ha | acceptFail l ha | reject c ha | list c ha | reap c ha | spawn c ha =>
    exact hacc ha
  | setupFail ha => rcases ha with ha | ha <;> exact hacc ha
  | handle c x o hc hold => exact hopen hc (Phase.isOpen_of_inLoop hold)
  | erase c hc hp | close c hc hp => exact hopen hc (by rw [hp]; rfl)
  | peer c x hc hp => exact ⟨h.setConn (by rw [hp]), by simp⟩
  | joinAccept hctl => exact ⟨⟨rfl, h.2⟩, by simp⟩
  | _ => exact ⟨h, by simp⟩

/-- `stop` returns when all is at rest. -/
theorem rest_of_stopped (h : Inv maxClients s) (hm : Move maxClients s s' o) (ho : .stopped ∈ o) :
    Rest s' ∧ s'.clientFds = [] ∧ o = [.stopped] := by
  cases hm with
  | stopped i hctl hi =>
    have hacc := h.listen.joined i hctl
    have hthreads := h.threads
    rw [hctl] at hthreads
    have hclosed : ∀ c < s.accepted, (s.conns c).phase.isOpen = false := by
      intro c hc
      rw [← Bool.not_eq_true]
      intro hopen
      rcases Phase.isOpen_cases hopen with hp | hp | hp
      · have := (h.handoff.limit c).2 ⟨hc, hp⟩
        rw [hacc] at this
        cases this
      · have := (h.handoff.listed c).2 ⟨hc, hp⟩
        rw [hacc] at this
        rcases this with this | this <;> cases this
      · rw [hthreads.not_handled hi hc] at hp
        cases hp
    refine ⟨⟨hacc, hclosed⟩, List.eq_nil_iff_forall_not_mem.2 fun fd hfd => ?_, rfl⟩
    obtain ⟨c, hc, -, hl⟩ := (h.sound.listed_iff fd).1 hfd
    cases (hclosed c hc).symm.trans (Phase.isOpen_of_isListed hl)
  | handle c x o hc hold hnew hshort hfd ho' =>
    rcases ho' with rfl | ⟨m, rfl⟩ <;> simp at ho
  | _ => simp at ho

/-- `stop` has returned and `start` was not called since. -/
def Quiet (tr : List Event) : Prop := ∃ tr₁ tr₂, tr = tr₁ ++ .stopped :: tr₂ ∧ .started ∉ tr₂

theorem split_stopped {tr₁ tr₂ : List Event} (h : tr ++ o = tr₁ ++ .stopped :: tr₂) :
    (∃ l, tr = tr₁ ++ .stopped :: l ∧ tr₂ = l ++ o) ∨ ∃ l, o = l ++ .stopped :: tr₂ := by
  rcases List.append_eq_append_iff.1 h with ⟨l, -, rfl⟩ | ⟨l, rfl, hl⟩
  · exact .inr ⟨l, rfl⟩
  · cases l with
    | nil => exact .inr ⟨[], hl.symm⟩
    | cons ev l =>
      rw [List.cons_append] at hl
      obtain ⟨rfl, rfl⟩ := List.cons.inj hl
      exact .inl ⟨l, rfl, rfl⟩

theorem rest_of_quiet (h : (machine maxClients).Runs free tr s) (hq : Quiet tr) : Rest s := by
  induction h with
  | init => obtain ⟨tr₁, tr₂, heq, -⟩ := hq; simp at heq
  | step hr _ hs ih =>
    have hm := move_of_step hs
    obtain ⟨tr₁, tr₂, heq, hstart⟩ := hq
    rcases split_stopped heq with ⟨l, htr, rfl⟩ | ⟨l, ho⟩
    · rw [List.mem_append, not_or] at hstart
      exact ((ih ⟨tr₁, l, htr, hstart.1⟩).move hm hstart.2).1
    · exact (rest_of_stopped (Inv.of_runs hr) hm (by rw [ho]; simp)).1

theorem no_callback_in_rest (h : (machine maxClients).Runs free tr s) {tr₁ tr₂ : List Event}
    (htr : tr = tr₁ ++ .stopped :: tr₂) (hstart : .started ∉ tr₂) (c : Nat) (m : IPCMessage) :
    .callback c m ∉ tr₂ := by
  induction h generalizing tr₂ with
  | init => simp at htr
  | step hr _ hs ih =>
    have hm := move_of_step hs
    rcases split_stopped htr with ⟨l, hl, rfl⟩ | ⟨l, ho⟩
    · rw [List.mem_append, not_or] at hstart ⊢
      exact ⟨ih hl hstart.1, ((rest_of_quiet hr ⟨tr₁, l, hl, hstart.1⟩).move hm hstart.2).2 c m⟩
    · obtain ⟨-, -, hone⟩ := rest_of_stopped (Inv.of_runs hr) hm (by rw [ho]; simp)
      rw [hone] at ho
      -- the return of `stop` is all that this step shows
      have hlen := congrArg List.length ho
      rw [List.length_singleton, List.length_append, List.length_cons] at hlen
      rw [List.length_eq_zero_iff.1 (show tr₂.length = 0 by omega)]
      exact List.not_mem_nil

/-! ### Whole runs -/

/-- What the events of a run say about descriptors. -/
structure History (tr : List Event) (s : Server) : Prop where
  hits : ∀ c hit, .closed c hit ∈ tr → hit = some (.conn c)
  sent : ∀ d, .sent d ∈ tr → ∃ c, d = some (.conn c)
  count : ∀ c, closeCount tr c = ended s.conns s.accepted c

theorem History.of_runs (h : (machine maxClients).Runs free tr s) : History tr s := by
  induction h with
  | init => exact ⟨nofun, nofun, fun c => (if_neg fun hc => Nat.not_lt_zero c hc.1).symm⟩
  | step hr _ hs ih =>
    have hm := move_of_step hs
    obtain ⟨hhits, hsent⟩ := hits_move (Inv.of_runs hr) hm
    refine ⟨fun c hit hmem => ?_, fun d hmem => ?_, fun c => ?_⟩
    · rcases List.mem_append.1 hmem with hmem | hmem
      · exact ih.hits c hit hmem
      · exact hhits c hit hmem
    · rcases List.mem_append.1 hmem with hmem | hmem
      · exact ih.sent d hmem
      · exact hsent d hmem
    · rw [closeCount_append, ih.count, ended_move (Inv.of_runs hr) hm]

theorem closed_mem (h : History tr s) (hc : c < s.accepted) (hp : (s.conns c).phase.isOpen = false) :
    .closed c (some (.conn c)) ∈ tr := by
  have hcount : closeCount tr c = 1 := (h.count c).trans (if_pos ⟨hc, hp⟩)
  obtain ⟨ev, hev⟩ := List.exists_mem_of_length_pos (show 0 < closeCount tr c by omega)
  obtain ⟨hmem, hcloses⟩ := List.mem_filter.1 hev
  cases ev with
  | closed c' hit =>
    obtain rfl : c' = c := by simpa [Event.closes] using hcloses
    rw [← h.hits c' hit hmem]
    exact hmem
  | _ => cases hcloses

/-- The list of clients in a state. -/
structure ClientList (maxClients : Int) (s : Server) : Prop where
  nodup : s.clientFds.Nodup
  count_le : (clientCount s : Int) ≤ max 0 maxClients
  /-- each element is the open descriptor of the one connection that has put it there -/
  owner : ∀ fd ∈ s.clientFds, ∃ c, s.table fd = some (.conn c) ∧
    ∀ c', c' < s.accepted ∧ (s.conns c').fd = fd ∧ (s.conns c').phase.isListed = true ↔ c' = c

theorem clientList (h : Inv maxClients s) : ClientList maxClients s := by
  refine ⟨h.sound.nodup, h.sound.length, fun fd hfd => ?_⟩
  obtain ⟨c, hc, rfl, hl⟩ := (h.sound.listed_iff fd).1 hfd
  have hopen := Phase.isOpen_of_isListed hl
  refine ⟨c, h.sound.table_eq hc hopen, fun c' => ⟨?_, ?_⟩⟩
  · rintro ⟨hc', hfd', hl'⟩
    exact h.sound.fd_inj hc' hc (Phase.isOpen_of_isListed hl') hopen hfd'
  · rintro rfl
    exact ⟨hc, rfl, hl⟩

/-- In every interleaving the list of clients is sound, `broadcast` writes to connections only, the
descriptor of a connection is closed at most once and never in place of another, and `stop` returns
when all connections are closed; no callback runs then until `start` is called. -/
theorem client_list_sound (h : (machine maxClients).Runs free tr s) :
    ClientList maxClients s ∧
    (∀ d, .sent d ∈ tr → ∃ c, d = some (.conn c)) ∧
    (∀ c, closeCount tr c ≤ 1 ∧ ∀ hit, .closed c hit ∈ tr → hit = some (.conn c)) ∧
    (∀ a s' o, (machine maxClients).step s a = some (s', o) → .stopped ∈ o →
      s'.clientFds = [] ∧ ∀ c < s'.accepted, .closed c (some (.conn c)) ∈ tr ++ o) ∧
    ∀ tr₁ tr₂, tr = tr₁ ++ .stopped :: tr₂ → .started ∉ tr₂ → ∀ c m, .callback c m ∉ tr₂ := by
  have hinv := Inv.of_runs h
  have hist := History.of_runs h
  refine ⟨clientList hinv, hist.sent, fun c => ⟨?_, hist.hits c⟩, fun a s' o hs ho => ?_,
    fun tr₁ tr₂ htr hstart => no_callback_in_rest h htr hstart⟩
  · rw [hist.count]
    unfold ended
    split <;> omega
  · obtain ⟨hrest, hfds, -⟩ := rest_of_stopped hinv (move_of_step hs) ho
    exact ⟨hfds, fun c hc => closed_mem (History.of_runs (h.step trivial hs)) hc (hrest.2 c hc)⟩

/-- The steps of the accept thread from `start` until it waits for a connection. -/
def listenActs : List Act :=
  [.start true, .acc (.fd 3), .acc .ok, .acc .ok, .acc .ok, .acc .ok]

/-- A connection is accepted on descriptor `n` and gets its handler. -/
def connectActs (n : Nat) : List Act := [.acc (.fd n), .acc .ok, .acc .ok, .acc .ok]

/-- The peer of a connection hangs up and its handler, in `recv`, returns. -/
def leaveActs (c : Nat) : List Act :=
  [.handler c 0, .hangUp c, .handler c 0, .handler c 0, .handler c 0]

/-- A server for one client that has served one and now has a second on the same descriptor. -/
def secondClient : Server × List Event :=
  (machine 1).after (listenActs ++ connectActs 4 ++ leaveActs 0 ++ [.acc .ok, .acc .ok] ++
    connectActs 4 ++ [.broadcast])

theorem secondClient_runs : (machine 1).Runs free secondClient.2 secondClient.1 := Runs.after rfl

theorem client_list_sound_reused_fd : secondClient.1.clientFds = [4] ∧ secondClient.1.accepted = 2 ∧
    ClientList 1 secondClient.1 ∧ closeCount secondClient.2 0 ≤ 1 :=
  have h := client_list_sound secondClient_runs
  ⟨rfl, rfl, h.1, (h.2.2.1 0).1⟩

/-! ### Threads of past connections -/

def Event.serve (l : List Nat) : Event → List Nat
  | .spawned c => l ++ [c]
  | .stopped => []
  | _ => l

/-- The connections that got a handler since `stop` has returned last. -/
def served (tr : List Event) : List Nat := tr.foldl Event.serve []

theorem served_append (tr o : List Event) : served (tr ++ o) = o.foldl Event.serve (served tr) := by
  unfold served
  rw [List.foldl_append]

theorem serve_move (h : Inv maxClients s) (hm : Move maxClients s s' o) :
    s'.clientThreads.map Handle.conn = o.foldl Event.serve (s.clientThreads.map Handle.conn) := by
  cases hm with
  | joinClient i y hctl hy =>
    obtain ⟨hlt, rfl⟩ := List.getElem?_eq_some_iff.1 hy
    show (s.clientThreads.set i _).map Handle.conn = s.clientThreads.map Handle.conn
    rw [List.map_set]
    refine List.ext_getElem? fun j => ?_
    rw [List.getElem?_set]
    split
    · rename_i hij
      subst hij
      rw [List.length_map, if_pos hlt, List.getElem?_map, hy]
      rfl
    · rfl
  | reap c hacc =>
    show (reapDoneThreads s.clientThreads).map Handle.conn = _
    rw [h.threads.reapDoneThreads_eq (h.not_joining hacc)]
    rfl
  | spawn c hacc =>
    show (s.clientThreads ++ [Handle.mk c true]).map Handle.conn = s.clientThreads.map Handle.conn ++ [c]
    rw [List.map_append]
    rfl
  | handle c x o hc hold hnew hshort hfd ho => rcases ho with rfl | ⟨m, rfl⟩ <;> rfl
  | broadcast =>
    generalize s.clientThreads.map Handle.conn = l
    induction s.clientFds with
    | nil => rfl
    | cons fd fds ih => exact ih
  | _ => rfl

theorem clientThreads_eq_served (h : (machine maxClients).Runs free tr s) :
    s.clientThreads.map Handle.conn = served tr := by
  induction h with
  | init => rfl
  | step hr _ hs ih => rw [serve_move (Inv.of_runs hr) (move_of_step hs), ih, served_append]

/-- What `reap_done_threads` is for: of the threads in the list of `s'`, none had returned in `s`. -/
def Reaped (s s' : Server) : Prop := ∀ x ∈ s'.clientThreads, s.returned x.conn = false

/-- In every run, a call of `reap_done_threads` leaves the threads of all connections served since the
last `stop`; so it leaves no thread that has returned if and only if none of them has. -/
theorem reaped_iff_none_returned (h : (machine maxClients).Runs free tr s)
    (hacc : s.acc = some (.reap c)) (hs : (machine maxClients).step s (.acc .ok) = some (s', o)) :
    s'.clientThreads.map Handle.conn = served tr ∧
      (Reaped s s' ↔ ∀ c' ∈ served tr, s.returned c' = false) := by
  have hsame : s'.clientThreads.map Handle.conn = served tr := by
    rw [clientThreads_eq_served (h.step trivial hs), served_append]
    have ho : o = [] := by
      simp only [machine, step, hacc, acceptStep] at hs
      exact (Prod.mk.inj (Option.some.inj hs)).2.symm
    rw [ho]
    rfl
  refine ⟨hsame, ?_⟩
  rw [← hsame]
  unfold Reaped
  rw [List.forall_mem_map]

/-- A server whose first client has left, about to reap before it serves a second. -/
def beforeReap : Server × List Event :=
  (machine 8).after (listenActs ++ connectActs 4 ++ leaveActs 0 ++
    [.acc .ok, .acc .ok, .acc (.fd 4), .acc .ok])

theorem beforeReap_runs : (machine 8).Runs free beforeReap.2 beforeReap.1 := Runs.after rfl

def afterReap : Server := ((machine 8).step beforeReap.1 (.acc .ok)).elim init Prod.fst

theorem afterReap_step : (machine 8).step beforeReap.1 (.acc .ok) = some (afterReap, []) := rfl

theorem reaped_iff_none_returned_left : afterReap.clientThreads.map Handle.conn = served beforeReap.2 ∧
    served beforeReap.2 = [0] ∧ ¬ Reaped beforeReap.1 afterReap := by
  obtain ⟨hsame, hiff⟩ := reaped_iff_none_returned (c := 1) beforeReap_runs rfl afterReap_step
  refine ⟨hsame, rfl, fun hr => ?_⟩
  cases hiff.1 hr 0 (by decide)

/-- The thread of the client that has left is still in the list. -/
theorem returned_thread_not_reaped : ¬ ∀ maxClients tr s c s' o, (machine maxClients).Runs free tr s →
    s.acc = some (.reap c) → (machine maxClients).step s (.acc .ok) = some (s', o) → Reaped s s' := by
  intro h
  have hr := h 8 _ _ 1 _ _ beforeReap_runs rfl afterReap_step
  cases hr ⟨0, true⟩ (.head _)

end Lwipc.SocketServer
