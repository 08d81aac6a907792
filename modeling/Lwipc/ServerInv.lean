import Lwipc.ServerMoves
import Mathlib.Data.List.Nodup
import Mathlib.Algebra.Order.Group.Int

/-!
# What the threads of the server keep true

The descriptors in `client_fds_` are those of the connections that are listed, and these are open
because a handler erases before it closes. That the two threads which close `listen_fd_` never hit a
connection needs the order of `stop`: whoever is in the body of the accept loop has seen `running_`
true, so `stop` has found the listening socket and shut it down before it lets go of its number.
-/

namespace Lwipc.SocketServer

variable {maxClients : Int} {s s' : Server} {o : List Event} {a : Act} {c k n : Nat}

/-! ### The client list -/

/-- The descriptors of connections and `client_fds_`. -/
structure Sound (maxClients : Int) (table : Nat → Option Desc) (conns : Nat → Conn) (accepted : Nat)
    (fds : List Nat) : Prop where
  open_iff : ∀ fd c, table fd = some (.conn c) ↔
    c < accepted ∧ (conns c).fd = fd ∧ (conns c).phase.isOpen = true
  listed_iff : ∀ fd, fd ∈ fds ↔ ∃ c < accepted, (conns c).fd = fd ∧ (conns c).phase.isListed = true
  nodup : fds.Nodup
  length : (fds.length : Int) ≤ max 0 maxClients

namespace Sound

variable {table : Nat → Option Desc} {conns : Nat → Conn} {accepted : Nat} {fds : List Nat} {x : Conn}
  {d : Option Desc}

theorem setDesc (h : Sound maxClients table conns accepted fds) (hold : ∀ c, table n ≠ some (.conn c))
    (hnew : ∀ c, d ≠ some (.conn c)) :
    Sound maxClients (Function.update table n d) conns accepted fds := by
  refine ⟨fun fd c => ?_, h.listed_iff, h.nodup, h.length⟩
  rw [← h.open_iff]
  by_cases hfd : fd = n
  · subst hfd
    rw [Function.update_self]
    exact iff_of_false (hnew c) (hold c)
  · rw [Function.update_of_ne hfd]

theorem setConn (h : Sound maxClients table conns accepted fds) (hfd : x.fd = (conns c).fd)
    (hopen : x.phase.isOpen = (conns c).phase.isOpen)
    (hlisted : x.phase.isListed = (conns c).phase.isListed) :
    Sound maxClients table (Function.update conns c x) accepted fds := by
  have heq : ∀ c', (Function.update conns c x c').fd = (conns c').fd ∧
      (Function.update conns c x c').phase.isOpen = (conns c').phase.isOpen ∧
      (Function.update conns c x c').phase.isListed = (conns c').phase.isListed := by
    intro c'
    by_cases hc : c' = c
    · subst hc
      rw [Function.update_self]
      exact ⟨hfd, hopen, hlisted⟩
    · rw [Function.update_of_ne hc]
      exact ⟨rfl, rfl, rfl⟩
  refine ⟨fun fd c' => ?_, fun fd => ?_, h.nodup, h.length⟩
  · rw [h.open_iff, (heq c').1, (heq c').2.1]
  · rw [h.listed_iff]
    refine exists_congr fun c' => ?_
    rw [(heq c').1, (heq c').2.2]

theorem table_eq (h : Sound maxClients table conns accepted fds) (hc : c < accepted)
    (hopen : (conns c).phase.isOpen = true) : table (conns c).fd = some (.conn c) :=
  (h.open_iff _ c).2 ⟨hc, rfl, hopen⟩

theorem fd_inj (h : Sound maxClients table conns accepted fds) {c' : Nat} (hc : c < accepted)
    (hc' : c' < accepted) (hopen : (conns c).phase.isOpen = true)
    (hopen' : (conns c').phase.isOpen = true) (hfd : (conns c).fd = (conns c').fd) : c = c' := by
  have heq := h.table_eq hc hopen
  rw [hfd, h.table_eq hc' hopen'] at heq
  exact (Desc.conn.inj (Option.some.inj heq)).symm

theorem fd_notMem (h : Sound maxClients table conns accepted fds) (hc : c < accepted)
    (hopen : (conns c).phase.isOpen = true) (hl : (conns c).phase.isListed = false) :
    (conns c).fd ∉ fds := by
  intro hmem
  obtain ⟨c', hc', hfd, hl'⟩ := (h.listed_iff _).1 hmem
  obtain rfl := h.fd_inj hc' hc (Phase.isOpen_of_isListed hl') hopen hfd
  rw [hl'] at hl
  cases hl

theorem accept (h : Sound maxClients table conns accepted fds) (hn : table n = none) :
    Sound maxClients (Function.update table n (some (.conn accepted)))
      (Function.update conns accepted ⟨n, .accepted, [], false⟩) (accepted + 1) fds := by
  have hother : ∀ c, c < accepted →
      Function.update conns accepted ⟨n, .accepted, [], false⟩ c = conns c :=
    fun c hc => Function.update_of_ne (Nat.ne_of_lt hc) _ _
  refine ⟨fun fd c => ?_, fun fd => ?_, h.nodup, h.length⟩
  · by_cases hc : c = accepted
    · subst hc
      rw [Function.update_self]
      by_cases hfd : fd = n
      · subst hfd
        rw [Function.update_self]
        exact iff_of_true rfl ⟨Nat.lt_succ_self _, rfl, rfl⟩
      · rw [Function.update_of_ne hfd]
        refine iff_of_false (fun heq => ?_) fun heq => hfd heq.2.1.symm
        exact Nat.lt_irrefl _ ((h.open_iff fd c).1 heq).1
    · rw [Function.update_of_ne hc, Nat.lt_succ_iff_lt_or_eq, or_iff_left hc, ← h.open_iff]
      by_cases hfd : fd = n
      · subst hfd
        rw [Function.update_self, hn]
        refine iff_of_false (fun heq => hc ?_) nofun
        exact (Desc.conn.inj (Option.some.inj heq)).symm
      · rw [Function.update_of_ne hfd]
  · rw [h.listed_iff]
    constructor
    · rintro ⟨c, hc, hfd, hl⟩
      exact ⟨c, Nat.lt_succ_of_lt hc, by rw [hother c hc]; exact ⟨hfd, hl⟩⟩
    · rintro ⟨c, hc, hfd, hl⟩
      rcases Nat.lt_succ_iff_lt_or_eq.1 hc with hc | rfl
      · rw [hother c hc] at hfd hl
        exact ⟨c, hc, hfd, hl⟩
      · rw [Function.update_self] at hl
        cases hl

theorem close (h : Sound maxClients table conns accepted fds) (hc : c < accepted)
    (hopen : (conns c).phase.isOpen = true) (hl : (conns c).phase.isListed = false)
    (hfd : x.fd = (conns c).fd) (hopen' : x.phase.isOpen = false) (hl' : x.phase.isListed = false) :
    Sound maxClients (Function.update table (conns c).fd none) (Function.update conns c x) accepted
      fds := by
  refine ⟨fun fd c' => ?_, fun fd => ?_, h.nodup, h.length⟩
  · by_cases hc' : c' = c
    · subst hc'
      rw [Function.update_self, hopen']
      refine iff_of_false (fun heq => ?_) nofun
      by_cases hf : fd = (conns c').fd
      · rw [hf, Function.update_self] at heq
        cases heq
      · rw [Function.update_of_ne hf, h.open_iff] at heq
        exact hf heq.2.1.symm
    · rw [Function.update_of_ne hc', ← h.open_iff]
      by_cases hf : fd = (conns c).fd
      · subst hf
        rw [Function.update_self, h.table_eq hc hopen]
        refine iff_of_false nofun fun heq => hc' ?_
        exact (Desc.conn.inj (Option.some.inj heq)).symm
      · rw [Function.update_of_ne hf]
  · rw [h.listed_iff]
    refine exists_congr fun c' => ?_
    by_cases hc' : c' = c
    · subst hc'
      rw [Function.update_self, hl', hl, hfd]
    · rw [Function.update_of_ne hc']

theorem append (h : Sound maxClients table conns accepted fds) (hc : c < accepted)
    (hopen : (conns c).phase.isOpen = true) (hl : (conns c).phase.isListed = false)
    (hroom : fds.length < maxClients) (hfd : x.fd = (conns c).fd) (hl' : x.phase.isListed = true) :
    Sound maxClients table (Function.update conns c x) accepted (fds ++ [(conns c).fd]) := by
  have hnot := h.fd_notMem hc hopen hl
  refine ⟨fun fd c' => ?_, fun fd => ?_, ?_, ?_⟩
  · by_cases hc' : c' = c
    · subst hc'
      rw [h.open_iff, Function.update_self, hfd, Phase.isOpen_of_isListed hl', hopen]
    · rw [h.open_iff, Function.update_of_ne hc']
  · rw [List.mem_append, h.listed_iff, List.mem_singleton]
    constructor
    · rintro (⟨c', hc', hf, hlist⟩ | rfl)
      · refine ⟨c', hc', ?_⟩
        rw [Function.update_of_ne (fun heq => by rw [heq, hl] at hlist; cases hlist)]
        exact ⟨hf, hlist⟩
      · exact ⟨c, hc, by rw [Function.update_self]; exact ⟨hfd, hl'⟩⟩
    · rintro ⟨c', hc', hf, hlist⟩
      by_cases heq : c' = c
      · subst heq
        rw [Function.update_self] at hf
        exact .inr (hf.symm.trans hfd)
      · rw [Function.update_of_ne heq] at hf hlist
        exact .inl ⟨c', hc', hf, hlist⟩
  · rw [List.nodup_append]
    exact ⟨h.nodup, List.nodup_singleton _, fun a ha b hb =>
      fun heq => hnot (by rw [← List.mem_singleton.1 hb, ← heq]; exact ha)⟩
  · rw [List.length_append, List.length_singleton]
    omega

theorem erase (h : Sound maxClients table conns accepted fds) (hc : c < accepted)
    (hl : (conns c).phase.isListed = true) (hfd : x.fd = (conns c).fd)
    (hopen' : x.phase.isOpen = true) (hl' : x.phase.isListed = false) :
    Sound maxClients table (Function.update conns c x) accepted (fds.erase (conns c).fd) := by
  have hopen := Phase.isOpen_of_isListed hl
  refine ⟨fun fd c' => ?_, fun fd => ?_, h.nodup.erase _, ?_⟩
  · by_cases hc' : c' = c
    · subst hc'
      rw [h.open_iff, Function.update_self, hfd, hopen', hopen]
    · rw [h.open_iff, Function.update_of_ne hc']
  · rw [h.nodup.mem_erase_iff, h.listed_iff]
    constructor
    · rintro ⟨hne, c', hc', hf, hlist⟩
      refine ⟨c', hc', ?_⟩
      rw [Function.update_of_ne (fun heq => hne (by rw [← hf, heq]))]
      exact ⟨hf, hlist⟩
    · rintro ⟨c', hc', hf, hlist⟩
      have hne : c' ≠ c := by
        rintro rfl
        rw [Function.update_self, hl'] at hlist
        cases hlist
      rw [Function.update_of_ne hne] at hf hlist
      refine ⟨fun heq => hne ?_, c', hc', hf, hlist⟩
      exact h.fd_inj hc' hc (Phase.isOpen_of_isListed hlist) hopen (hf.trans heq)
  · have hle : (fds.erase (conns c).fd).length ≤ fds.length := List.length_erase_le
    have := h.length
    omega

end Sound

/-! ### The listening socket -/

/-- In the body of the accept loop. -/
def AccPc.inBody : AccPc → Bool
  | .accept | .accepting _ | .limit _ | .reap _ | .spawn _ => true
  | _ => false

/-- The listening socket while the accept thread is in the body of its loop, by what `stop` has done. -/
def Body (s : Server) : CtlPc → Prop
  | .idle | .store | .test | .shutdown =>
    s.lookup s.listenFd = some .listening ∧ ∀ l, s.acc = some (.accepting l) → l = s.listenFd
  | .close => s.lookup s.listenFd = some .shut ∧ ∀ l, s.acc = some (.accepting l) → l = s.listenFd
  | .reset | .joinAccept =>
    s.lookup s.listenFd ≠ some .listening ∧
      ∀ l, s.acc = some (.accepting l) → s.lookup l ≠ some .listening
  | .joinClients _ => False

structure ListenInv (s : Server) : Prop where
  stopping : s.running = true → s.ctl = .idle ∨ s.ctl = .store
  resting : s.running = false → s.ctl = .idle ∨ s.ctl = .store → s.acc = none
  joined : ∀ i, s.ctl = .joinClients i → s.acc = none
  setup : s.running = true → s.acc = some .bind ∨ s.acc = some .listen →
    s.lookup s.listenFd = some .socket
  ready : s.running = true → s.acc = some .loop → s.lookup s.listenFd = some .listening
  notConn : ∀ l c, s.listenFd = some l → s.table l ≠ some (.conn c)
  body : ∀ pc, s.acc = some pc → pc.inBody = true → Body s s.ctl

theorem lookup_eq_some {l : Option Nat} {d : Desc} (h : s.lookup l = some d) :
    ∃ n, l = some n ∧ s.table n = some d := Option.bind_eq_some_iff.1 h

theorem lookup_setDesc_iff {l : Option Nat} {d : Option Desc} {v : Desc} (hold : s.table n ≠ some v)
    (hnew : d ≠ some v) : (s.setDesc (some n) d).lookup l = some v ↔ s.lookup l = some v := by
  cases l with
  | none => exact Iff.rfl
  | some m =>
    show Function.update s.table n d m = some v ↔ s.table m = some v
    by_cases hm : m = n
    · subst hm
      rw [Function.update_self]
      exact iff_of_false hnew hold
    · rw [Function.update_of_ne hm]

/-- The body of the loop when a descriptor was exchanged that is no listening socket. -/
theorem Body.setDesc {d : Option Desc} {ctl : CtlPc} (h : Body s ctl)
    (hold : s.table n = none ∨ ∃ c, s.table n = some (.conn c)) (hnew : d = none ∨ ∃ c, d = some (.conn c)) :
    Body (s.setDesc (some n) d) ctl := by
  have hsame : ∀ l v, v = .listening ∨ v = .shut →
      ((s.setDesc (some n) d).lookup l = some v ↔ s.lookup l = some v) := by
    intro l v hv
    refine lookup_setDesc_iff ?_ ?_
    · rcases hold with hold | ⟨c, hold⟩ <;> rw [hold] <;> rcases hv with rfl | rfl <;> nofun
    · rcases hnew with rfl | ⟨c, rfl⟩ <;> rcases hv with rfl | rfl <;> nofun
  cases ctl with
  | idle | store | test | shutdown => exact ⟨(hsame _ _ (.inl rfl)).2 h.1, h.2⟩
  | close => exact ⟨(hsame _ _ (.inr rfl)).2 h.1, h.2⟩
  | reset | joinAccept =>
    exact ⟨fun heq => h.1 ((hsame _ _ (.inl rfl)).1 heq), fun l hl heq => h.2 l hl ((hsame _ _ (.inl rfl)).1 heq)⟩
  | joinClients i => exact h

/-- The accept thread is not in `::accept`, or not any more. -/
theorem Body.of_acc {ctl : CtlPc} (h : Body s ctl) (hl : s'.listenFd = s.listenFd)
    (ht : s'.table = s.table) (hacc : ∀ l, s'.acc ≠ some (.accepting l)) : Body s' ctl := by
  have hlook : s'.lookup s'.listenFd = s.lookup s.listenFd := by
    unfold Server.lookup
    rw [hl, ht]
  cases ctl with
  | idle | store | test | shutdown | close => exact ⟨hlook.trans h.1, fun l hl => absurd hl (hacc l)⟩
  | reset | joinAccept => exact ⟨hlook ▸ h.1, fun l hl => absurd hl (hacc l)⟩
  | joinClients i => exact h

/-- Who gets a connection from `::accept` finds the socket listening. -/
theorem Body.listening {ctl : CtlPc} {l : Option Nat} (h : Body s ctl) (hacc : s.acc = some (.accepting l))
    (hl : s.lookup l = some .listening) : s.lookup s.listenFd = some .listening := by
  cases ctl with
  | idle | store | test | shutdown => exact h.1
  | close => rw [← h.2 l hacc]; exact hl
  | reset | joinAccept => exact absurd hl (h.2 l hacc)
  | joinClients i => exact absurd h id

theorem lookup_setDesc_self {d : Option Desc} {l : Nat} (hl : s.listenFd = some l) :
    (s.setDesc s.listenFd d).lookup s.listenFd = d := by
  rw [hl]
  exact Function.update_self _ _ _

/-- The thread in the body has left the descriptor for `stop` to find. -/
theorem Body.test (h : Body s .test) :
    Body { s with ctl := if s.listenFd.isSome then .shutdown else .joinAccept }
      (if s.listenFd.isSome then .shutdown else .joinAccept) := by
  obtain ⟨l, hl, -⟩ := lookup_eq_some h.1
  have hsome : (if s.listenFd.isSome then CtlPc.shutdown else .joinAccept) = .shutdown := by
    rw [hl]
    rfl
  rw [hsome]
  exact h

/-- Neither `listen_fd_` nor what `accept` was called with listens after the `close`. -/
theorem Body.close (h : Body s .close) : Body { s.setDesc s.listenFd none with ctl := .reset } .reset := by
  obtain ⟨l, hl, -⟩ := lookup_eq_some h.1
  have hnone : (s.setDesc s.listenFd none).lookup s.listenFd ≠ some .listening := by
    rw [lookup_setDesc_self hl]
    nofun
  exact ⟨hnone, fun l' hl' => by rw [h.2 l' hl']; exact hnone⟩

theorem Body.accept {ctl : CtlPc} (h : Body s ctl) :
    Body { s with acc := some (.accepting s.listenFd) } ctl := by
  cases ctl with
  | idle | store | test | shutdown | close => exact ⟨h.1, fun l hl => by cases hl; rfl⟩
  | reset | joinAccept => exact ⟨h.1, fun l hl => by cases hl; exact h.1⟩
  | joinClients i => exact h

namespace ListenInv

theorem congr (h : ListenInv s) (hrun : s'.running = s.running) (hl : s'.listenFd = s.listenFd)
    (hacc : s'.acc = s.acc) (hctl : s'.ctl = s.ctl) (ht : s'.table = s.table) : ListenInv s' := by
  obtain ⟨run', l', acc', cb', fds', threads', ctl', t', conns', n'⟩ := s'
  subst hrun hl hacc hctl ht
  exact ⟨h.stopping, h.resting, h.joined, h.setup, h.ready, h.notConn, h.body⟩

theorem of_acc {pc pc' : AccPc} (h : ListenInv s) (hacc : s.acc = some pc) (hrun : s'.running = s.running)
    (hctl : s'.ctl = s.ctl) (hacc' : s'.acc = some pc')
    (hnot : ∀ l c, s'.listenFd = some l → s'.table l ≠ some (.conn c))
    (hsetup : s.running = true → pc' = .bind ∨ pc' = .listen → s'.lookup s'.listenFd = some .socket)
    (hready : s.running = true → pc' = .loop → s'.lookup s'.listenFd = some .listening)
    (hbody : pc'.inBody = true → Body s' s.ctl) : ListenInv s' where
  stopping := by rw [hrun, hctl]; exact h.stopping
  resting := by
    rw [hrun, hctl]
    intro hr hc
    rw [h.resting hr hc] at hacc
    cases hacc
  joined := by
    rw [hctl]
    intro i hc
    rw [h.joined i hc] at hacc
    cases hacc
  setup := by
    rw [hrun, hacc']
    exact fun hr hp => hsetup hr (hp.imp Option.some.inj Option.some.inj)
  ready := by
    rw [hrun, hacc']
    exact fun hr hp => hready hr (Option.some.inj hp)
  notConn := hnot
  body := by
    rw [hacc', hctl]
    rintro pc₁ hpc hb
    obtain rfl := Option.some.inj hpc
    exact hbody hb

/-- A step of `stop` between the store of `running_` and the join of the accept thread. -/
theorem of_stop (h : ListenInv s) (hctl : s'.running = false) (hacc : s'.acc = s.acc)
    (hidle : s'.ctl ≠ .idle ∧ s'.ctl ≠ .store ∧ ∀ i, s'.ctl ≠ .joinClients i)
    (hnot : ∀ l c, s'.listenFd = some l → s'.table l ≠ some (.conn c))
    (hbody : Body s s.ctl → Body s' s'.ctl) : ListenInv s' where
  stopping hr := by rw [hctl] at hr; cases hr
  resting _ hc := absurd hc (not_or.2 ⟨hidle.1, hidle.2.1⟩)
  joined i hc := absurd hc (hidle.2.2 i)
  setup hr := by rw [hctl] at hr; cases hr
  ready hr := by rw [hctl] at hr; cases hr
  notConn := hnot
  body := by
    rw [hacc]
    exact fun pc hpc hb => hbody (h.body pc hpc hb)

theorem of_none (hacc : s.acc = none) (hrun : s.running = true → s.ctl = .idle ∨ s.ctl = .store)
    (hnot : ∀ l c, s.listenFd = some l → s.table l ≠ some (.conn c)) : ListenInv s where
  stopping := hrun
  resting _ _ := hacc
  joined _ _ := hacc
  setup _ hp := by rw [hacc] at hp; rcases hp with hp | hp <;> cases hp
  ready _ hp := by rw [hacc] at hp; cases hp
  notConn := hnot
  body _ hp := by rw [hacc] at hp; cases hp

theorem running_eq_false {ctl : CtlPc} (h : ListenInv s) (hctl : s.ctl = ctl) (h1 : ctl ≠ .idle)
    (h2 : ctl ≠ .store) : s.running = false := by
  subst hctl
  rw [← Bool.not_eq_true]
  exact fun hr => (h.stopping hr).elim h1 h2

/-- While `running_` is true, the socket listens for whoever is in the body of the loop. -/
theorem listening_of_body {pc : AccPc} (h : ListenInv s) (hrun : s.running = true)
    (hacc : s.acc = some pc) (hb : pc.inBody = true) : s.lookup s.listenFd = some .listening := by
  have hbody := h.body pc hacc hb
  rcases h.stopping hrun with hc | hc <;> rw [hc] at hbody <;> exact hbody.1

theorem notConn_setDesc (s : Server) (d : Option Desc) (hd : ∀ c, d ≠ some (.conn c)) (l c : Nat)
    (hl : s.listenFd = some l) : (s.setDesc s.listenFd d).table l ≠ some (.conn c) := by
  rw [hl]
  show Function.update s.table l d l ≠ some (.conn c)
  rw [Function.update_self]
  exact hd c

theorem notConn_close (h : ListenInv s) (l c : Nat) (hl : s.listenFd = some l) :
    (s.setDesc (some n) none).table l ≠ some (.conn c) := by
  show Function.update s.table n none l ≠ some (.conn c)
  by_cases hn : l = n
  · rw [hn, Function.update_self]
    nofun
  · rw [Function.update_of_ne hn]
    exact h.notConn l c hl

theorem notConn_open {d : Desc} (hl : s.lookup s.listenFd = some .listening) (hn : s.table n = none)
    (l c : Nat) (hl' : s.listenFd = some l) : (s.setDesc (some n) (some d)).table l ≠ some (.conn c) := by
  obtain ⟨l₁, hl₁, htable⟩ := lookup_eq_some hl
  obtain rfl : l₁ = l := Option.some.inj (hl₁.symm.trans hl')
  have hne : l₁ ≠ n := by
    rintro rfl
    rw [hn] at htable
    cases htable
  show Function.update s.table n (some d) l₁ ≠ _
  rw [Function.update_of_ne hne, htable]
  nofun

/-- What the invariant of the listening socket needs to know about connections: the descriptors that
are closed for them are theirs. -/
theorem move (h : ListenInv s) (hm : Move maxClients s s' o)
    (hlimit : ∀ c, s.acc = some (.limit c) → s.table (s.conns c).fd = some (.conn c))
    (hclose : ∀ c < s.accepted, (s.conns c).phase = .close → s.table (s.conns c).fd = some (.conn c)) :
    ListenInv s' := by
  cases hm with
  | idle | broadcast => exact h
  | start cb hctl hrun =>
    refine ⟨fun _ => .inl hctl, nofun, fun i hi => ?_, fun _ hp => ?_, nofun, h.notConn, ?_⟩
    · cases hctl.symm.trans hi
    · rcases hp with hp | hp <;> cases hp
    · rintro pc hpc hb
      cases hpc
      cases hb
  | stop hctl =>
    refine ⟨fun _ => .inr rfl, fun hr _ => h.resting hr (.inl hctl), nofun, h.setup, h.ready, h.notConn, ?_⟩
    intro pc hpc hb
    have hbody := h.body pc hpc hb
    rw [hctl] at hbody
    exact hbody
  | store hctl =>
    refine h.of_stop rfl rfl ⟨nofun, nofun, nofun⟩ h.notConn fun hb => ?_
    rw [hctl] at hb
    exact hb
  | test hctl =>
    have hrun := h.running_eq_false hctl nofun nofun
    refine h.of_stop hrun rfl ?_ h.notConn fun hb => ?_
    · cases s.listenFd <;> exact ⟨nofun, nofun, nofun⟩
    · rw [hctl] at hb
      exact hb.test
  | shutdown hctl hl =>
    have hrun := h.running_eq_false hctl nofun nofun
    refine h.of_stop hrun rfl ⟨nofun, nofun, nofun⟩ (notConn_setDesc s (some .shut) nofun) fun hb => ?_
    rw [hctl] at hb
    obtain ⟨l, hl, -⟩ := lookup_eq_some hl
    exact ⟨lookup_setDesc_self hl, hb.2⟩
  | shutdownOther hctl hl =>
    have hrun := h.running_eq_false hctl nofun nofun
    refine h.of_stop hrun rfl ⟨nofun, nofun, nofun⟩ h.notConn fun hb => ?_
    rw [hctl] at hb
    exact absurd hb.1 hl
  | closeListen hctl =>
    have hrun := h.running_eq_false hctl nofun nofun
    refine h.of_stop hrun rfl ⟨nofun, nofun, nofun⟩ (notConn_setDesc s none nofun) fun hb => ?_
    rw [hctl] at hb
    exact hb.close
  | resetListen hctl =>
    have hrun := h.running_eq_false hctl nofun nofun
    refine h.of_stop hrun rfl ⟨nofun, nofun, nofun⟩ nofun fun hb => ?_
    rw [hctl] at hb
    exact ⟨nofun, hb.2⟩
  | joinAccept hctl hacc =>
    have hrun := h.running_eq_false hctl nofun nofun
    exact of_none rfl (fun hr => by cases hrun.symm.trans hr) h.notConn
  | joinClient i x hctl =>
    have hrun := h.running_eq_false hctl nofun nofun
    exact of_none (h.joined i hctl) (fun hr => by cases hrun.symm.trans hr) h.notConn
  | stopped i hctl =>
    exact of_none (h.joined i hctl) (fun _ => .inl rfl) h.notConn
  | socket n hacc hn =>
    refine h.of_acc hacc rfl rfl rfl ?_ (fun _ _ => ?_) nofun nofun
    · rintro l c hl
      cases hl
      show Function.update s.table n (some .socket) n ≠ _
      rw [Function.update_self]
      nofun
    · exact Function.update_self _ _ _
  | socketFail hacc =>
    exact h.of_acc hacc rfl rfl rfl nofun (fun _ hp => hp.elim nofun nofun) nofun nofun
  | bind hacc hl =>
    exact h.of_acc hacc rfl rfl rfl h.notConn (fun _ _ => hl) nofun nofun
  | setupFail hacc =>
    rcases hacc with hacc | hacc <;>
    exact h.of_acc hacc rfl rfl rfl h.notConn (fun _ hp => hp.elim nofun nofun) nofun nofun
  | listen hacc hl =>
    obtain ⟨l, hl, -⟩ := lookup_eq_some hl
    exact h.of_acc hacc rfl rfl rfl (notConn_setDesc s (some .listening) nofun)
      (fun _ hp => hp.elim nofun nofun) (fun _ _ => lookup_setDesc_self hl) nofun
  | dropListen hacc =>
    exact h.of_acc hacc rfl rfl rfl (notConn_setDesc s none nofun) (fun _ hp => hp.elim nofun nofun)
      nofun nofun
  | dropReset hacc =>
    exact h.of_acc hacc rfl rfl rfl nofun (fun _ hp => hp.elim nofun nofun) nofun nofun
  | loop hacc =>
    cases hrun : s.running with
    | false =>
      exact h.of_acc hacc hrun.symm rfl rfl h.notConn (fun _ hp => hp.elim nofun nofun) nofun nofun
    | true =>
      refine h.of_acc hacc hrun.symm rfl rfl h.notConn (fun _ hp => hp.elim nofun nofun) nofun fun _ => ?_
      have hl := h.ready hrun hacc
      rcases h.stopping hrun with hc | hc <;> rw [hc] <;> exact ⟨hl, nofun⟩
  | accept hacc =>
    exact h.of_acc hacc rfl rfl rfl h.notConn (fun _ hp => hp.elim nofun nofun) nofun fun _ =>
      (h.body _ hacc rfl).accept
  | accepted l n hacc hl hn =>
    have hb := h.body _ hacc rfl
    refine h.of_acc hacc rfl rfl rfl ?_ (fun _ hp => hp.elim nofun nofun) nofun fun _ => ?_
    · exact notConn_open (hb.listening hacc hl) hn
    · have hb' := hb.setDesc (n := n) (d := some (.conn s.accepted)) (.inl hn) (.inr ⟨_, rfl⟩)
      exact hb'.of_acc rfl rfl nofun
  | acceptFail l hacc =>
    exact h.of_acc hacc rfl rfl rfl h.notConn (fun _ hp => hp.elim nofun nofun) nofun nofun
  | reject c hacc =>
    refine h.of_acc hacc rfl rfl rfl h.notConn_close (fun _ hp => hp.elim nofun nofun) (fun hrun _ => ?_) nofun
    have hl := h.listening_of_body hrun hacc rfl
    exact (lookup_setDesc_iff (d := none) (by rw [hlimit c hacc]; nofun) nofun).2 hl
  | list c hacc =>
    refine h.of_acc hacc rfl rfl rfl h.notConn (fun _ hp => hp.elim nofun nofun) nofun fun _ => ?_
    exact (h.body _ hacc rfl).of_acc rfl rfl nofun
  | reap c hacc =>
    exact h.of_acc hacc rfl rfl rfl h.notConn (fun _ hp => hp.elim nofun nofun) nofun fun _ =>
      (h.body _ hacc rfl).of_acc rfl rfl nofun
  | spawn c hacc =>
    exact h.of_acc hacc rfl rfl rfl h.notConn (fun _ hp => hp.elim nofun nofun)
      (fun hrun _ => h.listening_of_body hrun hacc rfl) nofun
  | handle c x o => exact h.congr rfl rfl rfl rfl rfl
  | peer c x => exact h.congr rfl rfl rfl rfl rfl
  | erase c => exact h.congr rfl rfl rfl rfl rfl
  | close c hc hp =>
    have hconn := hclose c hc hp
    refine ⟨h.stopping, h.resting, h.joined, fun hr ha => ?_, fun hr ha => ?_, h.notConn_close, fun pc hpc hb => ?_⟩
    · exact (lookup_setDesc_iff (d := none) (by rw [hconn]; nofun) nofun).2 (h.setup hr ha)
    · exact (lookup_setDesc_iff (d := none) (by rw [hconn]; nofun) nofun).2 (h.ready hr ha)
    · exact (h.body pc hpc hb).setDesc (.inr ⟨c, hconn⟩) (.inl rfl)

end ListenInv

/-! ### Connections between the threads -/

/-- The connection that the accept thread has in hand is the one that has no handler yet. -/
structure Handoff (acc : Option AccPc) (conns : Nat → Conn) (accepted : Nat) : Prop where
  limit : ∀ c, acc = some (.limit c) ↔ c < accepted ∧ (conns c).phase = .accepted
  listed : ∀ c, acc = some (.reap c) ∨ acc = some (.spawn c) ↔
    c < accepted ∧ (conns c).phase = .listed

/-- The accept thread has a connection in hand. -/
def AccPc.holds : Option AccPc → Bool
  | some (.limit _) | some (.reap _) | some (.spawn _) => true
  | _ => false

namespace Handoff

variable {acc acc' : Option AccPc} {conns : Nat → Conn} {accepted : Nat} {x : Conn}

theorem setAcc (h : Handoff acc conns accepted) (hacc : AccPc.holds acc = false)
    (hacc' : AccPc.holds acc' = false) : Handoff acc' conns accepted := by
  refine ⟨fun c => ?_, fun c => ?_⟩
  · rw [← h.limit]
    refine iff_of_false ?_ ?_ <;> rintro rfl
    · cases hacc'
    · cases hacc
  · rw [← h.listed]
    refine iff_of_false ?_ ?_ <;> rintro (rfl | rfl)
    · cases hacc'
    · cases hacc'
    · cases hacc
    · cases hacc

theorem setConn (h : Handoff acc conns accepted)
    (hacc : x.phase = .accepted ↔ (conns c).phase = .accepted)
    (hlisted : x.phase = .listed ↔ (conns c).phase = .listed) :
    Handoff acc (Function.update conns c x) accepted := by
  have heq : ∀ c', ((Function.update conns c x c').phase = .accepted ↔ (conns c').phase = .accepted) ∧
      ((Function.update conns c x c').phase = .listed ↔ (conns c').phase = .listed) := by
    intro c'
    by_cases hc : c' = c
    · subst hc
      rw [Function.update_self]
      exact ⟨hacc, hlisted⟩
    · rw [Function.update_of_ne hc]
      exact ⟨Iff.rfl, Iff.rfl⟩
  exact ⟨fun c' => by rw [h.limit, (heq c').1], fun c' => by rw [h.listed, (heq c').2]⟩

/-- The connection in hand has gone to `x`, and the accept thread to `acc'`. -/
theorem pass (h : Handoff acc conns accepted) (hacc : acc = some (.limit c) ∨ acc = some (.spawn c))
    (hlimit : x.phase ≠ .accepted) (hacc' : ∀ c', acc' ≠ some (.limit c') ∧ acc' ≠ some (.spawn c'))
    (hlisted : ∀ c', acc' = some (.reap c') ↔ c' = c ∧ x.phase = .listed) :
    Handoff acc' (Function.update conns c x) accepted := by
  have hc : c < accepted := by
    rcases hacc with hacc | hacc
    · exact ((h.limit c).1 hacc).1
    · exact ((h.listed c).1 (.inr hacc)).1
  -- no other connection is in hand
  have hothers : ∀ c', c' ≠ c → c' < accepted → (conns c').phase ≠ .accepted ∧ (conns c').phase ≠ .listed := by
    intro c' hne hc'
    constructor
    · intro hp
      have := (h.limit c').2 ⟨hc', hp⟩
      rcases hacc with hacc | hacc <;> rw [hacc] at this <;> cases this
      exact hne rfl
    · intro hp
      have := (h.listed c').2 ⟨hc', hp⟩
      rcases hacc with hacc | hacc <;> rw [hacc] at this <;> rcases this with this | this <;> cases this
      exact hne rfl
  refine ⟨fun c' => ?_, fun c' => ?_⟩
  · refine iff_of_false (hacc' c').1 fun ⟨hc', hp⟩ => ?_
    by_cases hne : c' = c
    · rw [hne, Function.update_self] at hp
      exact hlimit hp
    · rw [Function.update_of_ne hne] at hp
      exact (hothers c' hne hc').1 hp
  · rw [or_iff_left (hacc' c').2, hlisted]
    by_cases hne : c' = c
    · subst hne
      rw [Function.update_self]
      exact ⟨fun hp => ⟨hc, hp.2⟩, fun hp => ⟨rfl, hp.2⟩⟩
    · rw [Function.update_of_ne hne]
      exact iff_of_false (fun hp => hne hp.1) fun hp => (hothers c' hne hp.1).2 hp.2

theorem accept (h : Handoff acc conns accepted) (hacc : AccPc.holds acc = false) {n : Nat} :
    Handoff (some (.limit accepted)) (Function.update conns accepted ⟨n, .accepted, [], false⟩)
      (accepted + 1) := by
  have hothers : Handoff none conns accepted := h.setAcc hacc rfl
  refine ⟨fun c => ?_, fun c => ?_⟩
  · by_cases hc : c = accepted
    · subst hc
      rw [Function.update_self]
      exact iff_of_true rfl ⟨Nat.lt_succ_self _, rfl⟩
    · rw [Function.update_of_ne hc, Nat.lt_succ_iff_lt_or_eq, or_iff_left hc, ← hothers.limit]
      refine iff_of_false (fun heq => hc ?_) nofun
      cases heq
      rfl
  · by_cases hc : c = accepted
    · subst hc
      rw [Function.update_self]
      exact iff_of_false (by rintro (heq | heq) <;> cases heq) nofun
    · rw [Function.update_of_ne hc, Nat.lt_succ_iff_lt_or_eq, or_iff_left hc, ← hothers.listed]
      exact iff_of_false (by rintro (heq | heq) <;> cases heq) (by rintro (heq | heq) <;> cases heq)

end Handoff

/-- Every handler that is at work has its thread in `client_threads_`, and `stop` has not passed it. -/
structure Threads (ctl : CtlPc) (threads : List Handle) (conns : Nat → Conn) (accepted : Nat) : Prop where
  handled : ∀ c < accepted, (conns c).phase.isHandled = true →
    ∃ j h, threads[j]? = some h ∧ h.conn = c ∧ ∀ i, ctl = .joinClients i → i ≤ j
  joinable : ∀ j h, threads[j]? = some h → h.joinable = false → ∃ i, ctl = .joinClients i ∧ j < i
  spawned : ∀ h ∈ threads, h.conn < accepted ∧ (conns h.conn).phase.hasThread = true

namespace Threads

variable {ctl ctl' : CtlPc} {threads : List Handle} {conns : Nat → Conn} {accepted : Nat} {x : Conn}

theorem setCtl (h : Threads ctl threads conns accepted) (hold : ∀ i, ctl ≠ .joinClients i)
    (hnew : ∀ i, ctl' = .joinClients i → i = 0) : Threads ctl' threads conns accepted := by
  refine ⟨fun c hc hp => ?_, fun j x hx hj => ?_, h.spawned⟩
  · obtain ⟨j, x, hx, hxc, -⟩ := h.handled c hc hp
    exact ⟨j, x, hx, hxc, fun i hi => by rw [hnew i hi]; exact Nat.zero_le _⟩
  · obtain ⟨i, hi, -⟩ := h.joinable j x hx hj
    exact absurd hi (hold i)

theorem setConn (h : Threads ctl threads conns accepted)
    (hp : x.phase.isHandled = true → (conns c).phase.isHandled = true)
    (ht : (conns c).phase.hasThread = true → x.phase.hasThread = true) :
    Threads ctl threads (Function.update conns c x) accepted := by
  refine ⟨fun c' hc hp' => h.handled c' hc ?_, h.joinable, fun y hy => ?_⟩
  · by_cases heq : c' = c
    · rw [heq, Function.update_self] at hp'
      rw [heq]
      exact hp hp'
    · rwa [Function.update_of_ne heq] at hp'
  · obtain ⟨hc, hthread⟩ := h.spawned y hy
    refine ⟨hc, ?_⟩
    by_cases heq : y.conn = c
    · rw [heq] at hthread ⊢
      rw [Function.update_self]
      exact ht hthread
    · rwa [Function.update_of_ne heq]

theorem accept (h : Threads ctl threads conns accepted) (hp : x.phase.isHandled = false) :
    Threads ctl threads (Function.update conns accepted x) (accepted + 1) := by
  refine ⟨fun c hc hp' => ?_, h.joinable, fun y hy => ?_⟩
  · by_cases heq : c = accepted
    · rw [heq, Function.update_self, hp] at hp'
      cases hp'
    · rw [Function.update_of_ne heq] at hp'
      exact h.handled c (by omega) hp'
  · obtain ⟨hc, hthread⟩ := h.spawned y hy
    rw [Function.update_of_ne (Nat.ne_of_lt hc)]
    exact ⟨Nat.lt_succ_of_lt hc, hthread⟩

/-- `reap_done_threads` removes nothing: as long as `stop` does not join them, all threads are
joinable. -/
theorem reapDoneThreads_eq (h : Threads ctl threads conns accepted) (hctl : ∀ i, ctl ≠ .joinClients i) :
    reapDoneThreads threads = threads := by
  refine List.filter_eq_self.2 fun x hx => ?_
  obtain ⟨j, hj⟩ := List.mem_iff_getElem?.1 hx
  rw [← Bool.not_eq_false]
  intro hf
  obtain ⟨i, hi, -⟩ := h.joinable j x hj hf
  exact hctl i hi

theorem spawn (h : Threads ctl threads conns accepted) (hctl : ∀ i, ctl ≠ .joinClients i)
    (hc : c < accepted) (hx : x.phase.hasThread = true) :
    Threads ctl (threads ++ [⟨c, true⟩]) (Function.update conns c x) accepted := by
  refine ⟨fun c' hc hp => ?_, fun j y hy hj => ?_, fun y hy => ?_⟩
  · by_cases heq : c' = c
    · exact ⟨threads.length, ⟨c, true⟩, by simp, heq.symm, fun i hi => absurd hi (hctl i)⟩
    · rw [Function.update_of_ne heq] at hp
      obtain ⟨j, y, hy, hyc, hi⟩ := h.handled c' hc hp
      exact ⟨j, y, getElem?_append_of_some hy, hyc, hi⟩
  · rcases lt_or_ge j threads.length with hlt | hge
    · rw [List.getElem?_append_left hlt] at hy
      exact h.joinable j y hy hj
    · rw [List.getElem?_append_right hge, List.getElem?_singleton] at hy
      split at hy
      · cases hy
        cases hj
      · cases hy
  · by_cases heq : y.conn = c
    · rw [heq, Function.update_self]
      exact ⟨hc, hx⟩
    · rw [Function.update_of_ne heq]
      rcases List.mem_append.1 hy with hy | hy
      · exact h.spawned y hy
      · rw [List.mem_singleton.1 hy] at heq
        exact absurd rfl heq

theorem join {i : Nat} {y : Handle} (h : Threads (.joinClients i) threads conns accepted)
    (hy : threads[i]? = some y) (hdone : y.joinable = true → (conns y.conn).phase.isHandled = false) :
    Threads (.joinClients (i + 1)) (threads.set i { y with joinable := false }) conns accepted := by
  have hlt : i < threads.length := (List.getElem?_eq_some_iff.1 hy).1
  have hjoinable : y.joinable = true := by
    rw [← Bool.not_eq_false]
    intro hf
    obtain ⟨i', hi', hlt'⟩ := h.joinable i y hy hf
    cases hi'
    exact Nat.lt_irrefl _ hlt'
  refine ⟨fun c hc hp => ?_, fun j z hz hj => ?_, fun z hz => ?_⟩
  · obtain ⟨j, z, hz, hzc, hi⟩ := h.handled c hc hp
    have hle := hi i rfl
    have hne : j ≠ i := by
      rintro rfl
      obtain rfl : z = y := Option.some.inj (hz.symm.trans hy)
      rw [hzc, hp] at hdone
      cases hdone hjoinable
    refine ⟨j, z, by rw [List.getElem?_set_ne (Ne.symm hne)]; exact hz, hzc, fun i' hi' => ?_⟩
    cases hi'
    omega
  · refine ⟨i + 1, rfl, ?_⟩
    by_cases heq : j = i
    · omega
    · rw [List.getElem?_set_ne (Ne.symm heq)] at hz
      obtain ⟨i', hi', hlt'⟩ := h.joinable j z hz hj
      cases hi'
      omega
  · rcases List.mem_or_eq_of_mem_set hz with hz | rfl
    · exact h.spawned z hz
    · exact h.spawned y (List.mem_of_getElem? hy)

theorem not_handled {i : Nat} (h : Threads (.joinClients i) threads conns accepted)
    (hi : threads[i]? = none) (hc : c < accepted) : (conns c).phase.isHandled = false := by
  rw [← Bool.not_eq_true]
  intro hp
  obtain ⟨j, y, hy, -, hle⟩ := h.handled c hc hp
  have hlen := List.getElem?_eq_none_iff.1 hi
  have hlt := (List.getElem?_eq_some_iff.1 hy).1
  have := hle i rfl
  omega

end Threads

/-! ### Reachable states -/

structure Inv (maxClients : Int) (s : Server) : Prop where
  sound : Sound maxClients s.table s.conns s.accepted s.clientFds
  listen : ListenInv s
  handoff : Handoff s.acc s.conns s.accepted
  threads : Threads s.ctl s.clientThreads s.conns s.accepted

namespace Inv

theorem init (maxClients : Int) : Inv maxClients SocketServer.init where
  sound := ⟨fun _ c => iff_of_false nofun fun h => Nat.not_lt_zero c h.1,
    fun _ => iff_of_false nofun fun ⟨c, hc, _⟩ => Nat.not_lt_zero c hc, List.nodup_nil, le_max_left _ _⟩
  listen := ListenInv.of_none rfl (fun _ => .inl rfl) nofun
  handoff := ⟨fun c => iff_of_false nofun fun h => Nat.not_lt_zero c h.1,
    fun c => iff_of_false (fun h => h.elim nofun nofun) fun h => Nat.not_lt_zero c h.1⟩
  threads := ⟨fun c hc => absurd hc (Nat.not_lt_zero c), nofun, nofun⟩

theorem of_limit (h : Inv maxClients s) (hacc : s.acc = some (.limit c)) :
    c < s.accepted ∧ (s.conns c).phase = .accepted ∧ s.table (s.conns c).fd = some (.conn c) := by
  obtain ⟨hc, hp⟩ := (h.handoff.limit c).1 hacc
  exact ⟨hc, hp, h.sound.table_eq hc (by rw [hp]; rfl)⟩

theorem not_joining {pc : AccPc} (h : Inv maxClients s) (hacc : s.acc = some pc) (i : Nat) :
    s.ctl ≠ .joinClients i := by
  intro hi
  rw [h.listen.joined i hi] at hacc
  cases hacc

theorem sound_move (h : Inv maxClients s) (hm : Move maxClients s s' o) :
    Sound maxClients s'.table s'.conns s'.accepted s'.clientFds := by
  -- a change of the listening socket
  have hset : ∀ d, (∀ c, d ≠ some (.conn c)) →
      Sound maxClients (s.setDesc s.listenFd d).table s.conns s.accepted s.clientFds := by
    intro d hd
    cases hl : s.listenFd with
    | none => exact h.sound
    | some l => exact h.sound.setDesc (fun c => h.listen.notConn l c hl) hd
  cases hm with
  | shutdown | closeListen | listen | dropListen => exact hset _ nofun
  | socket n hacc hn => exact h.sound.setDesc (by rw [hn]; nofun) nofun
  | accepted l n hacc hl hn => exact h.sound.accept hn
  | reject c hacc =>
    obtain ⟨hc, hp, -⟩ := h.of_limit hacc
    exact h.sound.close hc (by rw [hp]; rfl) (by rw [hp]; rfl) rfl rfl rfl
  | list c hacc hroom =>
    obtain ⟨hc, hp, -⟩ := h.of_limit hacc
    exact h.sound.append hc (by rw [hp]; rfl) (by rw [hp]; rfl) hroom rfl rfl
  | spawn c hacc =>
    obtain ⟨hc, hp⟩ := (h.handoff.listed c).1 (.inr hacc)
    exact h.sound.setConn rfl (by rw [hp]; rfl) (by rw [hp]; rfl)
  | handle c x o hc hold hnew hshort hfd =>
    refine h.sound.setConn hfd ?_ ?_
    · rw [Phase.isOpen_of_inLoop hold, Phase.isOpen_of_inLoop hnew]
    · rw [Phase.isListed_of_inLoop hold, Phase.isListed_of_inLoop hnew]
  | erase c hc hp => exact h.sound.erase hc (by rw [hp]; rfl) rfl rfl rfl
  | close c hc hp => exact h.sound.close hc (by rw [hp]; rfl) (by rw [hp]; rfl) rfl rfl rfl
  | peer c x hc hp hfd => exact h.sound.setConn hfd (by rw [hp]) (by rw [hp])
  | _ => exact h.sound

theorem listen_move (h : Inv maxClients s) (hm : Move maxClients s s' o) : ListenInv s' :=
  h.listen.move hm (fun _ hacc => (h.of_limit hacc).2.2)
    fun _ hc hp => h.sound.table_eq hc (by rw [hp]; rfl)

theorem handoff_move (h : Inv maxClients s) (hm : Move maxClients s s' o) :
    Handoff s'.acc s'.conns s'.accepted := by
  cases hm with
  | start cb hctl hrun =>
    exact h.handoff.setAcc (by rw [h.listen.resting hrun (.inl hctl)]; rfl) rfl
  | joinAccept hctl hacc =>
    refine h.handoff.setAcc ?_ rfl
    rcases hacc with hacc | hacc <;> rw [hacc] <;> rfl
  | socket n hacc | socketFail hacc | bind hacc | listen hacc | dropListen hacc | dropReset hacc
  | accept hacc => exact h.handoff.setAcc (by rw [hacc]; rfl) rfl
  | setupFail hacc =>
    refine h.handoff.setAcc ?_ rfl
    rcases hacc with hacc | hacc <;> rw [hacc] <;> rfl
  | loop hacc =>
    refine h.handoff.setAcc (by rw [hacc]; rfl) ?_
    cases s.running <;> rfl
  | accepted l n hacc => exact h.handoff.accept (by rw [hacc]; rfl)
  | acceptFail l hacc => exact h.handoff.setAcc (by rw [hacc]; rfl) rfl
  | reject c hacc =>
    exact h.handoff.pass (.inl hacc) nofun (fun _ => ⟨nofun, nofun⟩)
      fun _ => iff_of_false nofun fun hp => by cases hp.2
  | list c hacc =>
    refine h.handoff.pass (.inl hacc) nofun (fun _ => ⟨nofun, nofun⟩) fun c' => ⟨fun heq => ?_, fun heq => ?_⟩
    · cases heq
      exact ⟨rfl, rfl⟩
    · rw [heq.1]
  | reap c hacc =>
    refine ⟨fun c' => ?_, fun c' => ?_⟩
    · rw [← h.handoff.limit, hacc]
      exact iff_of_false nofun nofun
    · rw [← h.handoff.listed, hacc]
      constructor
      · rintro (heq | heq) <;> cases heq
        exact .inl rfl
      · rintro (heq | heq) <;> cases heq
        exact .inr rfl
  | spawn c hacc =>
    exact h.handoff.pass (.inr hacc) nofun (fun _ => ⟨nofun, nofun⟩)
      fun _ => iff_of_false nofun fun hp => by cases hp.2
  | handle c x o hc hold hnew =>
    refine h.handoff.setConn (iff_of_false ?_ ?_) (iff_of_false ?_ ?_) <;> intro hp
    · rw [hp] at hnew; cases hnew
    · rw [hp] at hold; cases hold
    · rw [hp] at hnew; cases hnew
    · rw [hp] at hold; cases hold
  | erase c hc hp | close c hc hp =>
    exact h.handoff.setConn (iff_of_false nofun (by rw [hp]; nofun)) (iff_of_false nofun (by rw [hp]; nofun))
  | peer c x hc hp => exact h.handoff.setConn (by rw [hp]) (by rw [hp])
  | _ => exact h.handoff

theorem threads_move (h : Inv maxClients s) (hm : Move maxClients s s' o) :
    Threads s'.ctl s'.clientThreads s'.conns s'.accepted := by
  cases hm with
  | stop hctl | store hctl | shutdown hctl | shutdownOther hctl | closeListen hctl | resetListen hctl =>
    exact h.threads.setCtl (by rw [hctl]; nofun) nofun
  | test hctl =>
    refine h.threads.setCtl (by rw [hctl]; nofun) fun i hi => ?_
    revert hi
    cases s.listenFd <;> nofun
  | joinAccept hctl =>
    refine h.threads.setCtl (by rw [hctl]; nofun) fun i hi => ?_
    cases hi
    rfl
  | joinClient i y hctl hy hdone =>
    have hthreads := h.threads
    rw [hctl] at hthreads
    refine hthreads.join hy fun hj => ?_
    have hret := hdone hj
    unfold Server.returned at hret
    split at hret
    · rename_i hp
      rw [hp]
      rfl
    · cases hret
  | stopped i hctl hi =>
    have hthreads := h.threads
    rw [hctl] at hthreads
    refine ⟨fun c hc hp => ?_, nofun, nofun⟩
    rw [hthreads.not_handled hi hc] at hp
    cases hp
  | accepted l n hacc => exact h.threads.accept rfl
  | reject c hacc | list c hacc =>
    have hp := (h.of_limit hacc).2.1
    exact h.threads.setConn nofun (by rw [hp]; nofun)
  | reap c hacc =>
    rw [h.threads.reapDoneThreads_eq (h.not_joining hacc)]
    exact h.threads
  | spawn c hacc =>
    exact h.threads.spawn (h.not_joining hacc) ((h.handoff.listed c).1 (.inr hacc)).1 rfl
  | handle c x o hc hold hnew =>
    exact h.threads.setConn (fun _ => Phase.isHandled_of_inLoop hold) fun _ => Phase.hasThread_of_inLoop hnew
  | erase c hc hp => exact h.threads.setConn (fun _ => by rw [hp]; rfl) fun _ => rfl
  | close c hc hp => exact h.threads.setConn nofun fun _ => rfl
  | peer c x hc hp => exact h.threads.setConn (fun hx => hp ▸ hx) fun hx => by rw [hp]; exact hx
  | _ => exact h.threads

theorem move (h : Inv maxClients s) (hm : Move maxClients s s' o) : Inv maxClients s' :=
  ⟨h.sound_move hm, h.listen_move hm, h.handoff_move hm, h.threads_move hm⟩

variable {tr : List Event}

theorem of_runs {ok : List Event → Server → Act → Prop} (h : (machine maxClients).Runs ok tr s) :
    Inv maxClients s :=
  h.invariant (I := fun _ s => Inv maxClients s) (init maxClients)
    fun _ _ _ _ _ ih _ hs => ih.move (move_of_step hs)

end Inv

end Lwipc.SocketServer
