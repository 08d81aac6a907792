import Lwipc.SocketBroadcast
import Mathlib.Data.Prod.Lex
import Mathlib.Order.Lex

/-!
# When `stop` returns without the help of a peer

`stop` shuts the listening socket down but does nothing to the connections. A handler in
`recv_ipc_message` comes back to the load of `running_` only when the bytes it asks for are there or
the peer has closed. And a call of `broadcast` holds `client_fds_mutex_` over its sends, which wait for
the peers too: meanwhile no handler gets past the erasing of its descriptor, nor the accept thread past
the test of the limit. When neither is so the rest of the way is free, which the ranks below measure.
-/

namespace Lwipc.SocketServer

open Machine LittleEndian IPCMessage SocketTransport
open SocketBroadcast (locks clientFds_of_step)

/-- The call of `recv_ipc_message` a connection is in can come to its end with the bytes that have
arrived. -/
def Phase.completes (inbox : List Byte) : Phase → Prop
  | .len got =>
    let bs := got ++ inbox
    4 ≤ bs.length ∧ (fromLE (bs.take 4) < 64 ∨ fromLE (bs.take 4) > kMaxMessageSize ∨
      4 + fromLE (bs.take 4) ≤ bs.length)
  | .buf total got => total ≤ got.length + inbox.length
  | _ => True

/-- The handler does not have to wait for its peer. -/
def Conn.ready (x : Conn) : Prop := x.hungUp = true ∨ x.phase.completes x.inbox

/-- No handler waits for its peer. -/
def Responsive (s : Server) : Prop := ∀ c < s.accepted, (s.conns c).ready

/-- Steps of the accept thread, the handlers and `stop`; a call to the system fails only if what it was
called with leaves no choice. -/
def serverSide (s : Server) : Act → Prop
  | .ctl | .handler _ _ => True
  | .acc .fail =>
    match s.acc with
    | some (.accepting l) => s.lookup l ≠ some .listening
    | some .bind | some .listen => s.lookup s.listenFd ≠ some .socket
    | _ => False
  | .acc _ => True
  | _ => False

/-- The same while a call of `broadcast` has `client_fds_mutex_`, if one has. -/
def Permitted (held : Bool) (s : Server) (a : Act) : Prop := serverSide s a ∧ (held && locks s a) = false

/-- No thread of the server has a block under `client_fds_mutex_` before it. -/
def Clear (s : Server) : Prop := s.clientFds = [] ∧ ∀ c, s.acc ≠ some (.limit c)

variable {maxClients : Int} {s s' : Server} {o tr : List Event} {c k n : Nat} {x : Conn} {a : Act}
  {got inbox : List Byte} {total : Nat} {held : Bool}

/-! ### Reading -/

theorem completes_afterLen (hgot : got.length < 4) (hk : k ≤ 4 - got.length) (hin : k ≤ inbox.length) :
    (afterLen (got ++ inbox.take k)).completes (inbox.drop k) ↔
      (Phase.len got).completes inbox := by
  have happ : got ++ inbox.take k ++ inbox.drop k = got ++ inbox := by
    rw [List.append_assoc, List.take_append_drop]
  have hlen : (got ++ inbox.take k).length = got.length + k := by
    rw [List.length_append, List.length_take, Nat.min_eq_left hin]
  unfold afterLen
  split
  · simp only [Phase.completes]
    rw [happ]
  · rename_i hfull
    rw [hlen] at hfull
    have htake : (got ++ inbox).take 4 = (got ++ inbox.take k) ++ [] := by
      rw [← happ, List.take_append_of_le_length (by omega), List.take_of_length_le (by omega),
        List.append_nil]
    have hfour : 4 ≤ (got ++ inbox).length := by rw [List.length_append]; omega
    rw [List.append_nil] at htake
    split
    · rename_i hbad
      simp only [Phase.completes]
      rw [htake]
      exact iff_of_true trivial ⟨hfour, by omega⟩
    · rename_i hgood
      simp only [Phase.completes]
      rw [htake, List.length_append, List.length_drop, List.length_nil]
      constructor
      · intro h
        exact ⟨by omega, by omega⟩
      · rintro ⟨-, h⟩
        omega

theorem completes_afterBuf (hin : k ≤ inbox.length) :
    (afterBuf total (got ++ inbox.take k)).completes (inbox.drop k) ↔
      (Phase.buf total got).completes inbox := by
  have hlen : (got ++ inbox.take k).length = got.length + k := by
    rw [List.length_append, List.length_take, Nat.min_eq_left hin]
  unfold afterBuf
  split
  · simp only [Phase.completes]
    rw [hlen, List.length_drop]
    omega
  · rename_i hfull
    rw [hlen] at hfull
    have hold : (Phase.buf total got).completes inbox := by
      simp only [Phase.completes]
      omega
    split <;> exact iff_of_true trivial hold

/-- Whether a handler has to wait does not change when it reads. -/
theorem ready_recv {next : List Byte → Phase} (h : recv s c n k next = some (s', o))
    (hnext : ∀ k ≤ n, k ≤ (s.conns c).inbox.length →
      ((next ((s.conns c).inbox.take k)).completes ((s.conns c).inbox.drop k) ↔
        (s.conns c).phase.completes (s.conns c).inbox)) :
    ((s.conns c).ready → (s'.conns c).ready) ∧
      (s.table (s.conns c).fd = some (.conn c) → ¬ (s.conns c).ready → ¬ (s'.conns c).ready) := by
  unfold recv at h
  split at h
  · obtain ⟨hcond, h⟩ := Option.ite_none_right_eq_some.1 h
    obtain ⟨rfl, -⟩ := Prod.mk.inj (Option.some.inj h)
    have hnew : ((s.setPhase c .erase).conns c) = { s.conns c with phase := .erase } := Function.update_self _ _ _
    rw [hnew]
    refine ⟨fun _ => .inr trivial, fun ht hnot => ?_⟩
    rcases hcond with hcond | hcond
    · exact absurd (.inl hcond.1) hnot
    · exact absurd ht hcond
  · obtain ⟨⟨-, hk, hin⟩, h⟩ := Option.ite_none_right_eq_some.1 h
    obtain ⟨rfl, -⟩ := Prod.mk.inj (Option.some.inj h)
    have hiff := hnext k hk hin
    have hnew : ((s.setConn c { s.conns c with
        phase := next ((s.conns c).inbox.take k), inbox := (s.conns c).inbox.drop k }).conns c) =
        { s.conns c with
          phase := next ((s.conns c).inbox.take k), inbox := (s.conns c).inbox.drop k } :=
      Function.update_self _ _ _
    unfold Conn.ready
    rw [hnew]
    exact ⟨Or.imp id hiff.2, fun _ hnot hready => hnot (hready.imp id hiff.1)⟩

/-- Between phases without `recv` nothing is to be waited for. -/
theorem ready_of_completes {x y : Conn} {P Q : Prop} (hx : x.phase.completes x.inbox)
    (hy : y.phase.completes y.inbox) : (P → x.ready → y.ready) ∧ (Q → ¬ x.ready → ¬ y.ready) :=
  ⟨fun _ _ => .inr hy, fun _ hnot => absurd (.inr hx) hnot⟩

theorem ready_handleStep (hshort : (s.conns c).phase.Short) (h : handleStep s c k = some (s', o)) :
    (s.running = false → (s.conns c).ready → (s'.conns c).ready) ∧
      (s.table (s.conns c).fd = some (.conn c) → ¬ (s.conns c).ready → ¬ (s'.conns c).ready) := by
  unfold handleStep at h
  split at h
  · rename_i hp
    obtain ⟨rfl, -⟩ := Prod.mk.inj (Option.some.inj h)
    refine ⟨fun hrun _ => .inr ?_, fun _ hnot => absurd (.inr (by rw [hp]; trivial)) hnot⟩
    rw [hrun, setPhase_conns]
    trivial
  · rename_i got hp
    rw [hp] at hshort
    have hr := ready_recv h fun k hk hin => by rw [hp]; exact completes_afterLen hshort hk hin
    exact ⟨fun _ => hr.1, hr.2⟩
  · rename_i total got hp
    have hr := ready_recv h fun k hk hin => by rw [hp]; exact completes_afterBuf hin
    exact ⟨fun _ => hr.1, hr.2⟩
  · rename_i m hp
    obtain ⟨rfl, -⟩ := Prod.mk.inj (Option.some.inj h)
    refine ready_of_completes (by rw [hp]; trivial) ?_
    rw [setPhase_conns]
    trivial
  · rename_i hp
    obtain ⟨rfl, -⟩ := Prod.mk.inj (Option.some.inj h)
    refine ready_of_completes (by rw [hp]; trivial) ?_
    show (Function.update s.conns c { s.conns c with phase := .close } c).phase.completes _
    rw [Function.update_self]
    trivial
  · rename_i hp
    obtain ⟨rfl, -⟩ := Prod.mk.inj (Option.some.inj h)
    refine ready_of_completes (by rw [hp]; trivial) ?_
    show (Function.update s.conns c { s.conns c with phase := .finished } c).phase.completes _
    rw [Function.update_self]
    trivial
  · cases h

theorem acceptStep_conns {out : Outcome} (h : Inv maxClients s)
    (hs : acceptStep maxClients s s.acc out = some (s', o)) (hc : c < s.accepted) :
    c < s'.accepted ∧ (s'.conns c = s.conns c ∨
      (s.conns c).phase.completes (s.conns c).inbox ∧ (s'.conns c).phase.completes (s'.conns c).inbox) := by
  have hupdate : ∀ {c' : Nat} {p : Phase}, (s.conns c').phase = .accepted ∨ (s.conns c').phase = .listed →
      (∀ l, p.completes l) →
      (Function.update s.conns c' { s.conns c' with phase := p }) c = s.conns c ∨
      (s.conns c).phase.completes (s.conns c).inbox ∧
        ((Function.update s.conns c' { s.conns c' with phase := p }) c).phase.completes
          ((Function.update s.conns c' { s.conns c' with phase := p }) c).inbox := by
    intro c' p hold hnew
    by_cases heq : c = c'
    · subst heq
      rw [Function.update_self]
      refine .inr ⟨?_, hnew _⟩
      rcases hold with hold | hold <;> rw [hold] <;> trivial
    · exact .inl (Function.update_of_ne heq _ _)
  generalize hacc : s.acc = pc at hs
  unfold acceptStep at hs
  split at hs
  case h_11 =>
    obtain ⟨-, hs⟩ := Option.ite_none_right_eq_some.1 hs
    obtain ⟨rfl, -⟩ := Prod.mk.inj (Option.some.inj hs)
    exact ⟨Nat.lt_succ_of_lt hc, .inl (Function.update_of_ne (Nat.ne_of_lt hc) _ _)⟩
  case h_13 c' =>
    have hp := (h.of_limit hacc).2.1
    split at hs
    all_goals
      obtain ⟨rfl, -⟩ := Prod.mk.inj (Option.some.inj hs)
      exact ⟨hc, hupdate (.inl hp) fun _ => trivial⟩
  case h_15 c' =>
    have hp := ((h.handoff.listed c').1 (.inr hacc)).2
    obtain ⟨rfl, -⟩ := Prod.mk.inj (Option.some.inj hs)
    exact ⟨hc, hupdate (.inr hp) fun _ => trivial⟩
  case h_16 => cases hs
  case h_1 | h_3 | h_5 =>
    obtain ⟨-, hs⟩ := Option.ite_none_right_eq_some.1 hs
    obtain ⟨rfl, -⟩ := Prod.mk.inj (Option.some.inj hs)
    exact ⟨hc, .inl rfl⟩
  all_goals
    obtain ⟨rfl, -⟩ := Prod.mk.inj (Option.some.inj hs)
    exact ⟨hc, .inl rfl⟩

/-- What the invariant does not say and the way back needs: `recv` is asked for bytes, and there are
numbers for descriptors. -/
structure Sane (s : Server) : Prop where
  short : ∀ c < s.accepted, (s.conns c).phase.Short
  fresh : ∃ m, ∀ n, m ≤ n → s.table n = none

theorem fresh_setDesc {d : Option Desc} (h : ∃ m, ∀ n, m ≤ n → s.table n = none) (l : Option Nat) :
    ∃ m, ∀ n, m ≤ n → (s.setDesc l d).table n = none := by
  obtain ⟨m, hm⟩ := h
  cases l with
  | none => exact ⟨m, hm⟩
  | some l =>
    refine ⟨max m (l + 1), fun n hn => ?_⟩
    show Function.update s.table l d n = none
    rw [Function.update_of_ne (by omega)]
    exact hm n (by omega)

theorem short_update {conns : Nat → Conn} {accepted : Nat} (h : ∀ c < accepted, (conns c).phase.Short)
    (hx : x.phase.Short) : ∀ c' < accepted, (Function.update conns c x c').phase.Short := by
  intro c' hc
  by_cases heq : c' = c
  · rw [heq, Function.update_self]
    exact hx
  · rw [Function.update_of_ne heq]
    exact h c' hc

theorem Sane.move (h : Sane s) (hm : Move maxClients s s' o) : Sane s' := by
  cases hm with
  | shutdown | closeListen | listen | dropListen => exact ⟨h.short, fresh_setDesc h.fresh s.listenFd⟩
  | socket n => exact ⟨h.short, fresh_setDesc h.fresh (some n)⟩
  | accepted l n =>
    refine ⟨fun c hc => ?_, fresh_setDesc h.fresh (some n)⟩
    show (Function.update s.conns s.accepted ⟨n, .accepted, [], false⟩ c).phase.Short
    by_cases heq : c = s.accepted
    · rw [heq, Function.update_self]
      trivial
    · rw [Function.update_of_ne heq]
      exact h.short c (by have : c < s.accepted + 1 := hc; omega)
  | reject c => exact ⟨short_update h.short trivial, fresh_setDesc h.fresh (some (s.conns c).fd)⟩
  | list c | spawn c | erase c => exact ⟨short_update h.short trivial, h.fresh⟩
  | handle c x o hc hold hnew hshort => exact ⟨short_update h.short hshort, h.fresh⟩
  | close c hc => exact ⟨short_update h.short trivial, fresh_setDesc h.fresh (some (s.conns c).fd)⟩
  | peer c x hc hp =>
    have hshort := h.short c hc
    rw [← hp] at hshort
    exact ⟨short_update h.short hshort, h.fresh⟩
  | _ => exact ⟨h.short, h.fresh⟩

theorem Sane.of_runs (h : (machine maxClients).Runs free tr s) : Sane s :=
  h.invariant (I := fun _ s => Sane s) ⟨fun c hc => absurd hc (Nat.not_lt_zero c), 0, fun _ _ => rfl⟩
    fun _ _ _ _ _ ih _ hs => ih.move (move_of_step hs)

theorem isOpen_of_not_ready (h : ¬ x.ready) : x.phase.isOpen = true := by
  rw [← Bool.not_eq_false]
  intro hp
  refine h (.inr ?_)
  cases hphase : x.phase with
  | rejected | finished => trivial
  | _ => rw [hphase] at hp; cases hp

/-- Steps of the server neither make a handler wait, once `running_` is false, nor end its waiting. -/
theorem ready_step (h : Inv maxClients s) (hsane : Sane s) (hside : serverSide s a)
    (hs : step maxClients s a = some (s', o)) (hc : c < s.accepted) :
    c < s'.accepted ∧ (s.running = false → (s.conns c).ready → (s'.conns c).ready) ∧
      (¬ (s.conns c).ready → ¬ (s'.conns c).ready) := by
  cases a with
  | ctl =>
    obtain ⟨hconns, hacc, -⟩ := stopStep_frame hs
    rw [hconns, hacc]
    exact ⟨hc, fun _ => id, id⟩
  | acc out =>
    obtain ⟨hc', heq | ⟨hold, hnew⟩⟩ := acceptStep_conns h hs hc
    · rw [heq]
      exact ⟨hc', fun _ => id, id⟩
    · exact ⟨hc', fun _ _ => .inr hnew, fun hnot => absurd (.inr hold) hnot⟩
  | handler c' k =>
    obtain ⟨hc', hs⟩ := Option.ite_none_right_eq_some.1 hs
    have hm : Move maxClients s s' o := move_of_handleStep hc' hs
    have haccepted : c < s'.accepted := lt_of_lt_of_le hc (accepted_le_of_move hm)
    by_cases heq : c = c'
    · subst heq
      have hready := ready_handleStep (hsane.short c hc) hs
      exact ⟨haccepted, hready.1, fun hnot => hready.2 (h.sound.table_eq hc (isOpen_of_not_ready hnot)) hnot⟩
    · rw [handleStep_other hs heq]
      exact ⟨haccepted, fun _ => id, id⟩
  | start | stop | broadcast | send | hangUp | abort => cases hside

/-- A handler that waits for its peer keeps `stop` from returning, whatever the server does. -/
theorem waiting_blocks_stop (h : (machine maxClients).Runs free tr s) (hc : c < s.accepted)
    (hnot : ¬ (s.conns c).ready) {tr' : List Event}
    (hrun : ((machine maxClients).startAt s).Runs (fun _ => serverSide) tr' s') :
    c < s'.accepted ∧ ¬ (s'.conns c).ready ∧ .stopped ∉ tr' := by
  induction hrun with
  | init => exact ⟨hc, hnot, List.not_mem_nil⟩
  | @step tr₁ s₁ s₂ a o hr hside hs ih =>
    obtain ⟨hc₁, hnot₁, hstop₁⟩ := ih
    have hreach := h.append hr
    have hinv := Inv.of_runs hreach
    obtain ⟨hc₂, -, hkeep⟩ := ready_step hinv (Sane.of_runs hreach) hside hs hc₁
    refine ⟨hc₂, hkeep hnot₁, ?_⟩
    rw [List.mem_append, not_or]
    refine ⟨hstop₁, fun ho => ?_⟩
    have hrest := (rest_of_stopped hinv (move_of_step hs) ho).1.2 c hc₂
    cases hrest.symm.trans (isOpen_of_not_ready (hkeep hnot₁))

/-- `stop` shows its return. -/
theorem stopped_of_move (hm : Move maxClients s s' o) (hctl : s.ctl ≠ .idle) (hidle : s'.ctl = .idle) :
    .stopped ∈ o := by
  cases hm with
  | stopped => exact List.mem_singleton.2 rfl
  | stop | store | shutdown | shutdownOther | closeListen | resetListen | joinAccept | joinClient =>
    cases hidle
  | test =>
    dsimp only at hidle
    split at hidle <;> cases hidle
  | _ => exact absurd hidle hctl

theorem stopped_of_runs {ok : List Event → Server → Act → Prop} {tr' : List Event}
    (hrun : ((machine maxClients).startAt s).Runs ok tr' s') (hctl : s.ctl ≠ .idle)
    (hidle : s'.ctl = .idle) : .stopped ∈ tr' := by
  obtain ⟨tr₁, s₁, a, s₂, o, tr₂, -, hn, hs, h2, -, rfl⟩ :=
    hrun.exists_step (P := fun s => s.ctl = .idle) hctl hidle
  have ho := stopped_of_move (move_of_step hs) hn h2
  simp [ho]

/-! ### The mutex of the list -/

/-- While the mutex is held, the list and a thread before the mutex stay as they are. -/
theorem not_clear_step (h : Inv maxClients s) (hok : Permitted true s a)
    (hs : step maxClients s a = some (s', o)) (hnot : ¬ Clear s) : ¬ Clear s' ∧ .stopped ∉ o := by
  obtain ⟨hside, hlocks⟩ := hok
  have hlocks : locks s a = false := hlocks
  have hm := move_of_step hs
  have hfds := clientFds_of_step hs hlocks
  by_cases hnil : s.clientFds = []
  · obtain ⟨c, hacc⟩ : ∃ c, s.acc = some (.limit c) := by
      by_contra hno
      exact hnot ⟨hnil, fun c hc => hno ⟨c, hc⟩⟩
    have hacc' : s'.acc = some (.limit c) := by
      cases a with
      | ctl =>
        rcases (stopStep_frame hs).2.2 with heq | ⟨-, hdone⟩
        · rw [heq]
          exact hacc
        · cases hdone _ hacc
      | acc out => simp [locks, hacc] at hlocks
      | handler c' k =>
        obtain ⟨-, hs⟩ := Option.ite_none_right_eq_some.1 hs
        obtain ⟨x, fds, table, rfl⟩ := handleStep_frame hs
        exact hacc
      | start | stop | broadcast | send | hangUp | abort => cases hside
    refine ⟨fun hclear => hclear.2 c hacc', fun ho => ?_⟩
    obtain ⟨hc, hp, -⟩ := (h.move hm).of_limit hacc'
    have hclosed := (rest_of_stopped h hm ho).1.2 c hc
    rw [hp] at hclosed
    cases hclosed
  · refine ⟨fun hclear => hnil (hfds ▸ hclear.1), fun ho => hnil ?_⟩
    rw [← hfds]
    exact (rest_of_stopped h hm ho).2.1

/-- A thread before the mutex keeps `stop` from returning as long as a call of `broadcast` has it. -/
theorem mutex_blocks_stop (h : (machine maxClients).Runs free tr s) (hnot : ¬ Clear s) {tr' : List Event}
    (hrun : ((machine maxClients).startAt s).Runs (fun _ => Permitted true) tr' s') :
    ¬ Clear s' ∧ .stopped ∉ tr' := by
  induction hrun with
  | init => exact ⟨hnot, List.not_mem_nil⟩
  | @step tr₁ s₁ s₂ a o hr hok hs ih =>
    obtain ⟨hnot₁, hstop₁⟩ := ih
    obtain ⟨hnot₂, hstop₂⟩ := not_clear_step (Inv.of_runs (h.append hr)) hok hs hnot₁
    exact ⟨hnot₂, by simp [hstop₁, hstop₂]⟩

/-! ### The way to the return of `stop` -/

def CtlPc.stage : CtlPc → Nat
  | .store => 7
  | .test => 6
  | .shutdown => 5
  | .close => 4
  | .reset => 3
  | .joinAccept => 2
  | .joinClients _ => 1
  | .idle => 0

/-- The steps of the accept thread to its end when `running_` is false. -/
def AccPc.rank : AccPc → Nat
  | .socket => 6
  | .bind => 5
  | .listen | .limit _ => 4
  | .reap _ => 3
  | .drop | .accept | .spawn _ => 2
  | .reset | .loop | .accepting _ => 1
  | .done => 0

/-- Before the block under `client_fds_mutex_`. -/
def AccPc.limits : AccPc → Bool
  | .limit _ => true
  | _ => false

/-- A bound for the steps of a handler to its end when `running_` is false. -/
def Conn.rank (x : Conn) : Nat :=
  match x.phase with
  | .len _ | .buf _ _ => 5 + x.inbox.length
  | .callback _ => 4
  | .top => 3
  | .erase => 2
  | .close => 1
  | _ => 0

/-- Within a stage: how far the accept thread is from its end, or how many threads are to be joined. -/
def Server.left (s : Server) : CtlPc → Nat
  | .joinAccept => s.acc.elim 0 AccPc.rank
  | .joinClients i => s.clientThreads.length - i
  | _ => 0

/-- The same for the handler that `stop` waits for. -/
def Server.current (s : Server) : CtlPc → Nat
  | .joinClients i => s.clientThreads[i]?.elim 0 fun h => (s.conns h.conn).rank
  | _ => 0

def remaining (s : Server) : ℕ ×ₗ ℕ ×ₗ ℕ := toLex (s.ctl.stage, toLex (s.left s.ctl, s.current s.ctl))

theorem remaining_lt_of_stage (h : s'.ctl.stage < s.ctl.stage) : remaining s' < remaining s :=
  Prod.Lex.toLex_lt_toLex.2 (.inl h)

theorem remaining_lt_of_left (h : s'.ctl.stage = s.ctl.stage) (hl : s'.left s'.ctl < s.left s.ctl) :
    remaining s' < remaining s :=
  Prod.Lex.toLex_lt_toLex.2 (.inr ⟨h, Prod.Lex.toLex_lt_toLex.2 (.inl hl)⟩)

theorem remaining_lt_of_current (h : s'.ctl.stage = s.ctl.stage) (hl : s'.left s'.ctl = s.left s.ctl)
    (hc : s'.current s'.ctl < s.current s.ctl) : remaining s' < remaining s :=
  Prod.Lex.toLex_lt_toLex.2 (.inr ⟨h, Prod.Lex.toLex_lt_toLex.2 (.inr ⟨hl, hc⟩)⟩)

/-- The states on the way: `stop` has not returned and no handler has to wait. -/
structure Underway (maxClients : Int) (held : Bool) (s : Server) : Prop where
  inv : Inv maxClients s
  sane : Sane s
  responsive : Responsive s
  clear : held = true → Clear s
  entered : s.ctl ≠ .idle

/-- A step of the server that brings `stop` nearer to its return. -/
def Advances (maxClients : Int) (held : Bool) (s : Server) : Prop :=
  ∃ a s' o, Permitted held s a ∧ step maxClients s a = some (s', o) ∧
    (s'.ctl = .idle ∨ Underway maxClients held s' ∧ remaining s' < remaining s)

theorem ready_of_new (h : Move maxClients s s' o) (hold : s.accepted ≤ c) (hnew : c < s'.accepted) :
    (s'.conns c).ready := by
  cases h with
  | accepted l n =>
    have hc : c < s.accepted + 1 := hnew
    obtain rfl : c = s.accepted := by omega
    show (Function.update s.conns s.accepted ⟨n, .accepted, [], false⟩ s.accepted).ready
    rw [Function.update_self]
    exact .inr trivial
  | _ => exact absurd hnew (Nat.not_lt.2 hold)

/-- A step that is free of the mutex keeps the list; it is left to say where the accept thread goes. -/
theorem Clear.step (h : Clear s) (hlocks : locks s a = false) (hs : SocketServer.step maxClients s a = some (s', o))
    (hacc : ∀ c, s'.acc ≠ some (.limit c)) : Clear s' :=
  ⟨(clientFds_of_step hs hlocks).trans h.1, hacc⟩

theorem Clear.locks_acc (h : Clear s) (out : Outcome) : locks s (.acc out) = false := by
  simp only [locks]
  split
  · rename_i c hacc
    exact absurd hacc (h.2 c)
  · rfl

/-- When the list is empty every handler has erased its descriptor. -/
theorem Clear.locks_handler (h : Clear s) (hinv : Inv maxClients s) (hc : c < s.accepted) (k : Nat) :
    locks s (.handler c k) = false := by
  simp only [locks]
  split
  · rename_i hp
    have hfd := (hinv.sound.listed_iff _).2 ⟨c, hc, rfl, by rw [hp]; rfl⟩
    rw [h.1] at hfd
    cases hfd
  · rfl

theorem Clear.ctl (h : Clear s) (hs : stopStep s = some (s', o)) : Clear s' := by
  have hstep : SocketServer.step 0 s .ctl = some (s', o) := hs
  refine h.step (a := .ctl) rfl hstep fun c hc => ?_
  rcases (stopStep_frame hs).2.2 with heq | ⟨hnone, -⟩
  · exact h.2 c (heq ▸ hc)
  · rw [hnone] at hc
    cases hc

theorem Underway.step (h : Underway maxClients held s) (hok : Permitted held s a)
    (hs : SocketServer.step maxClients s a = some (s', o)) (hrun : s.running = false ∨ a = .ctl)
    (hclear : held = true → Clear s') (hidle : s'.ctl ≠ .idle) : Underway maxClients held s' := by
  have hm := move_of_step hs
  refine ⟨h.inv.move hm, h.sane.move hm, fun c hc => ?_, hclear, hidle⟩
  rcases lt_or_ge c s.accepted with hold | hnew
  · rcases hrun with hrun | rfl
    · exact (ready_step h.inv h.sane hok.1 hs hold).2.1 hrun (h.responsive c hold)
    · obtain ⟨hconns, -⟩ := stopStep_frame hs
      rw [hconns]
      exact h.responsive c hold
  · exact ready_of_new hm hnew hc

theorem permitted_of (hside : serverSide s a) (hlocks : held = true → locks s a = false) :
    Permitted held s a := by
  refine ⟨hside, ?_⟩
  cases held with
  | false => rfl
  | true => exact hlocks rfl

theorem permitted_ctl : Permitted held s .ctl := ⟨trivial, Bool.and_false _⟩

theorem Underway.ctl (h : Underway maxClients held s) (hs : stopStep s = some (s', o))
    (hidle : s'.ctl ≠ .idle) : Underway maxClients held s' :=
  h.step (a := .ctl) permitted_ctl hs (.inr rfl) (fun hheld => (h.clear hheld).ctl hs) hidle

theorem Underway.advances_of_stage (h : Underway maxClients held s) (hs : stopStep s = some (s', o))
    (hlt : s'.ctl.stage < s.ctl.stage) (hpos : 0 < s'.ctl.stage) : Advances maxClients held s := by
  refine ⟨.ctl, s', o, permitted_ctl, hs, .inr ⟨h.ctl hs fun hidle => ?_, remaining_lt_of_stage hlt⟩⟩
  rw [hidle] at hpos
  exact Nat.lt_irrefl _ hpos

theorem Underway.advances_of_acc (h : Underway maxClients held s) (out : Outcome) {pc : AccPc}
    (hctl : s.ctl = .joinAccept) (hacc : s.acc = some pc) (hside : serverSide s (.acc out))
    (hs : ∃ s' o pc', acceptStep maxClients s (some pc) out = some (s', o) ∧ s'.acc = some pc' ∧
      s'.ctl = s.ctl ∧ pc'.rank < pc.rank ∧ pc'.limits = false) : Advances maxClients held s := by
  obtain ⟨s', o, pc', hs, hacc', hctl', hlt, hpc'⟩ := hs
  have hrun := h.inv.listen.running_eq_false hctl nofun nofun
  have hlocks : held = true → locks s (.acc out) = false := fun hheld => (h.clear hheld).locks_acc out
  have hok : Permitted held s (.acc out) := permitted_of hside hlocks
  rw [← hacc] at hs
  refine ⟨.acc out, s', o, hok, hs, .inr ⟨h.step hok hs (.inl hrun) (fun hheld => ?_) ?_, ?_⟩⟩
  · refine (h.clear hheld).step (hlocks hheld) hs fun c hc => ?_
    rw [hacc'] at hc
    rw [Option.some.inj hc] at hpc'
    cases hpc'
  · rw [hctl']
    exact h.entered
  · refine remaining_lt_of_left (by rw [hctl']) ?_
    rw [hctl', hctl]
    unfold Server.left
    rw [hacc, hacc']
    exact hlt

theorem Underway.advances_accept (h : Underway maxClients held s) (hctl : s.ctl = .joinAccept) :
    Advances maxClients held s := by
  have hrun := h.inv.listen.running_eq_false hctl nofun nofun
  have hjoin : s.acc = none ∨ s.acc = some .done → Advances maxClients held s := by
    intro hacc
    have hs : stopStep s = some ({ s with acc := none, ctl := .joinClients 0 }, []) := by
      rcases hacc with hacc | hacc <;> simp only [stopStep, hctl, hacc]
    exact h.advances_of_stage hs (by rw [hctl]; exact Nat.lt_succ_self 1) Nat.one_pos
  cases hacc : s.acc with
  | none => exact hjoin (.inl hacc)
  | some pc =>
    cases pc with
    | done => exact hjoin (.inr hacc)
    | socket =>
      obtain ⟨m, hm⟩ := h.sane.fresh
      exact h.advances_of_acc (.fd m) hctl hacc trivial
        ⟨_, _, _, if_pos (hm m le_rfl), rfl, rfl, by simp [AccPc.rank], rfl⟩
    | bind | listen =>
      by_cases hl : s.lookup s.listenFd = some .socket
      · exact h.advances_of_acc .ok hctl hacc trivial ⟨_, _, _, if_pos hl, rfl, rfl, by simp [AccPc.rank], rfl⟩
      · exact h.advances_of_acc .fail hctl hacc (by simp only [serverSide, hacc]; exact hl)
          ⟨_, _, _, rfl, rfl, rfl, by simp [AccPc.rank], rfl⟩
    | drop | reset | accept | reap c | spawn c =>
      exact h.advances_of_acc .ok hctl hacc trivial ⟨_, _, _, rfl, rfl, rfl, by simp [AccPc.rank], rfl⟩
    | loop =>
      refine h.advances_of_acc .ok hctl hacc trivial ⟨_, _, .done, rfl, ?_, rfl, by simp [AccPc.rank], rfl⟩
      rw [hrun]
      rfl
    | accepting l =>
      have hb := h.inv.listen.body _ hacc rfl
      rw [hctl] at hb
      exact h.advances_of_acc .fail hctl hacc (by simp only [serverSide, hacc]; exact hb.2 l hacc)
        ⟨_, _, _, rfl, rfl, rfl, by simp [AccPc.rank], rfl⟩
    | limit c =>
      by_cases hfull : maxClients ≤ s.clientFds.length
      · exact h.advances_of_acc .ok hctl hacc trivial ⟨_, _, _, if_pos hfull, rfl, rfl, by simp [AccPc.rank], rfl⟩
      · exact h.advances_of_acc .ok hctl hacc trivial ⟨_, _, _, if_neg hfull, rfl, rfl, by simp [AccPc.rank], rfl⟩

theorem Conn.rank_le (x : Conn) : x.rank ≤ 5 + x.inbox.length := by
  unfold Conn.rank
  split <;> omega

/-- A `::recv` that does not have to wait: one byte, or the end of the stream. -/
theorem exists_recv (n : Nat) (next : List Byte → Phase) (hn : 0 < n)
    (htable : s.table (s.conns c).fd = some (.conn c))
    (hready : (s.conns c).inbox = [] → (s.conns c).hungUp = true) :
    ∃ k s', recv s c n k next = some (s', []) ∧ s'.ctl = s.ctl ∧ s'.clientThreads = s.clientThreads ∧
      (s'.conns c).rank < 5 + (s.conns c).inbox.length := by
  cases hin : (s.conns c).inbox with
  | nil =>
    refine ⟨0, s.setPhase c .erase, if_pos (.inl ⟨hready hin, hin⟩), rfl, rfl, ?_⟩
    rw [setPhase_conns]
    exact Nat.lt_of_lt_of_le (show 2 < 5 by decide) (Nat.le_add_right _ _)
  | cons b l =>
    refine ⟨1, s.setConn c { s.conns c with phase := next [b], inbox := l }, ?_, rfl, rfl, ?_⟩
    · unfold recv
      rw [if_neg Nat.one_ne_zero, if_pos ⟨htable, hn, by rw [hin]; exact Nat.succ_le_succ (Nat.zero_le _)⟩,
        hin]
      rfl
    · show (Function.update s.conns c { s.conns c with phase := next [b], inbox := l } c).rank < _
      rw [Function.update_self]
      exact Nat.lt_succ_of_le (Conn.rank_le _)

/-- A handler that does not have to wait comes nearer to its end. -/
theorem exists_handleStep (hrun : s.running = false) (hp : (s.conns c).phase.isHandled = true)
    (hshort : (s.conns c).phase.Short) (hready : (s.conns c).ready)
    (htable : s.table (s.conns c).fd = some (.conn c)) :
    ∃ k s' o, handleStep s c k = some (s', o) ∧ s'.ctl = s.ctl ∧ s'.clientThreads = s.clientThreads ∧
      (s'.conns c).rank < (s.conns c).rank := by
  have hrank : ∀ p, ((s.setPhase c p).conns c).rank = Conn.rank { s.conns c with phase := p } :=
    fun p => by rw [setPhase_conns]
  cases hphase : (s.conns c).phase with
  | accepted | rejected | listed | finished => rw [hphase] at hp; cases hp
  | top =>
    refine ⟨0, s.setPhase c .erase, [], by simp only [handleStep, hphase, hrun]; rfl, rfl, rfl, ?_⟩
    rw [hrank]
    simp [Conn.rank, hphase]
  | callback m =>
    refine ⟨0, s.setPhase c .top, _, by simp only [handleStep, hphase]; rfl, rfl, rfl, ?_⟩
    rw [hrank]
    simp [Conn.rank, hphase]
  | erase =>
    refine ⟨0, { s.setPhase c .close with clientFds := s.clientFds.erase (s.conns c).fd }, _,
      by simp only [handleStep, hphase]; rfl, rfl, rfl, ?_⟩
    show ((s.setPhase c .close).conns c).rank < _
    rw [hrank]
    simp [Conn.rank, hphase]
  | close =>
    refine ⟨0, (s.setDesc (some (s.conns c).fd) none).setPhase c .finished, _,
      by simp only [handleStep, hphase]; rfl, rfl, rfl, ?_⟩
    show ((s.setPhase c .finished).conns c).rank < _
    rw [hrank]
    simp [Conn.rank, hphase]
  | len got =>
    rw [hphase] at hshort
    have hend : (s.conns c).inbox = [] → (s.conns c).hungUp = true := by
      intro hin
      refine hready.resolve_right fun hcomp => ?_
      rw [hphase, hin, Phase.completes, List.append_nil] at hcomp
      exact Nat.not_lt.2 hcomp.1 hshort
    obtain ⟨k, s', hs, hctl, hthreads, hlt⟩ :=
      exists_recv _ (fun bs => afterLen (got ++ bs)) (Nat.sub_pos_of_lt hshort) htable hend
    refine ⟨k, s', [], by simp only [handleStep, hphase]; exact hs, hctl, hthreads, ?_⟩
    simpa only [Conn.rank, hphase] using hlt
  | buf total got =>
    rw [hphase] at hshort
    have hend : (s.conns c).inbox = [] → (s.conns c).hungUp = true := by
      intro hin
      refine hready.resolve_right fun hcomp => ?_
      rw [hphase, hin, Phase.completes, List.length_nil, Nat.add_zero] at hcomp
      exact Nat.not_lt.2 hcomp hshort
    obtain ⟨k, s', hs, hctl, hthreads, hlt⟩ :=
      exists_recv _ (fun bs => afterBuf total (got ++ bs)) (Nat.sub_pos_of_lt hshort) htable hend
    refine ⟨k, s', [], by simp only [handleStep, hphase]; exact hs, hctl, hthreads, ?_⟩
    simpa only [Conn.rank, hphase] using hlt

theorem Underway.advances_join (h : Underway maxClients held s) {i : Nat} (hctl : s.ctl = .joinClients i) :
    Advances maxClients held s := by
  have hrun := h.inv.listen.running_eq_false hctl (by simp) (by simp)
  cases hget : s.clientThreads[i]? with
  | none =>
    refine ⟨.ctl, { s with clientThreads := [], ctl := .idle }, [.stopped], permitted_ctl, ?_, .inl rfl⟩
    simp only [SocketServer.step, stopStep, hctl, hget]
  | some y =>
    have hlt := (List.getElem?_eq_some_iff.1 hget).1
    obtain ⟨hc, hthread⟩ := h.inv.threads.spawned y (List.mem_of_getElem? hget)
    cases hret : s.returned y.conn with
    | true =>
      have hs : stopStep s = some ({ s with
          clientThreads := s.clientThreads.set i { y with joinable := false }
          ctl := .joinClients (i + 1) }, []) := by
        simp only [stopStep, hctl, hget, hret]
        exact if_neg (by simp)
      refine ⟨.ctl, _, _, permitted_ctl, hs, .inr ⟨h.ctl hs (by simp), ?_⟩⟩
      refine remaining_lt_of_left (by rw [hctl]; rfl) ?_
      rw [hctl]
      show (s.clientThreads.set i _).length - (i + 1) < s.clientThreads.length - i
      rw [List.length_set]
      omega
    | false =>
      have hhandled : (s.conns y.conn).phase.isHandled = true := by
        cases hp : (s.conns y.conn).phase with
        | finished => simp only [Server.returned, hp] at hret; cases hret
        | _ => rw [hp] at hthread; exact hthread
      have htable := h.inv.sound.table_eq hc (Phase.isOpen_of_isHandled hhandled)
      obtain ⟨k, s', o, hs, hctl', hthreads, hrank⟩ :=
        exists_handleStep hrun hhandled (h.sane.short _ hc) (h.responsive _ hc) htable
      have hs' : SocketServer.step maxClients s (.handler y.conn k) = some (s', o) := (if_pos hc).trans hs
      have hlocks : held = true → locks s (.handler y.conn k) = false :=
        fun hheld => (h.clear hheld).locks_handler h.inv hc k
      have hok : Permitted held s (.handler y.conn k) := permitted_of trivial hlocks
      refine ⟨.handler y.conn k, s', o, hok, hs', .inr ⟨?_, ?_⟩⟩
      · refine h.step hok hs' (.inl hrun) (fun hheld => ?_) ?_
        · refine (h.clear hheld).step (hlocks hheld) hs' ?_
          obtain ⟨x, fds, table, rfl⟩ := handleStep_frame hs
          exact (h.clear hheld).2
        · rw [hctl']
          exact h.entered
      · refine remaining_lt_of_current (by rw [hctl']) ?_ ?_
        · rw [hctl', hctl]
          unfold Server.left
          rw [hthreads]
        · rw [hctl', hctl]
          simp only [Server.current, hthreads, hget]
          exact hrank

theorem Underway.advances (h : Underway maxClients held s) : Advances maxClients held s := by
  cases hctl : s.ctl with
  | idle => exact absurd hctl h.entered
  | store =>
    have hs : stopStep s = some ({ s with running := false, ctl := .test }, []) := by
      simp only [stopStep, hctl]
    exact h.advances_of_stage hs (by rw [hctl]; exact Nat.lt_succ_self 6) (Nat.succ_pos 5)
  | test =>
    have hs : stopStep s =
        some ({ s with ctl := if s.listenFd.isSome then .shutdown else .joinAccept }, []) := by
      simp only [stopStep, hctl]
    refine h.advances_of_stage hs ?_ ?_
    · rw [hctl]
      cases s.listenFd <;> simp [CtlPc.stage]
    · cases s.listenFd <;> simp [CtlPc.stage]
  | shutdown =>
    have hs : stopStep s = some ({ (if s.lookup s.listenFd = some .listening then
        s.setDesc s.listenFd (some .shut) else s) with ctl := .close }, []) := by
      simp only [stopStep, hctl]
    exact h.advances_of_stage hs (by rw [hctl]; exact Nat.lt_succ_self 4) (Nat.succ_pos 3)
  | close =>
    have hs : stopStep s = some ({ s.setDesc s.listenFd none with ctl := .reset }, []) := by
      simp only [stopStep, hctl]
    exact h.advances_of_stage hs (by rw [hctl]; exact Nat.lt_succ_self 3) (Nat.succ_pos 2)
  | reset =>
    have hs : stopStep s = some ({ s with listenFd := none, ctl := .joinAccept }, []) := by
      simp only [stopStep, hctl]
    exact h.advances_of_stage hs (by rw [hctl]; exact Nat.lt_succ_self 2) (Nat.succ_pos 1)
  | joinAccept => exact h.advances_accept hctl
  | joinClients i => exact h.advances_join hctl

/-- Whether the mutex is held or not: the server can bring `stop` to its return if and only if no handler
has to wait for its peer and, while the mutex is held, no thread for the mutex. -/
theorem returns_iff (held : Bool) (h : (machine maxClients).Runs free tr s) (hstop : s.ctl ≠ .idle) :
    (∃ tr' s', ((machine maxClients).startAt s).Runs (fun _ => Permitted held) tr' s' ∧ s'.ctl = .idle) ↔
      Responsive s ∧ (held = true → Clear s) := by
  constructor
  · rintro ⟨tr', s', hrun, hidle⟩
    have hstopped := stopped_of_runs hrun hstop hidle
    constructor
    · intro c hc
      by_contra hnot
      exact (waiting_blocks_stop h hc hnot (hrun.mono fun _ _ _ _ _ hok _ => hok.1)).2.2 hstopped
    · rintro rfl
      by_contra hnot
      exact (mutex_blocks_stop h hnot hrun).2 hstopped
  · rintro ⟨hresp, hclear⟩
    exact Runs.exists_of_measure remaining (Q := Underway maxClients held) (fun _ hu => hu.advances)
      ⟨Inv.of_runs h, Sane.of_runs h, hresp, hclear, hstop⟩

/-- `stop` is entered while a client is connected that sends nothing, or has closed if `gone`. -/
def stopping (gone : Bool) : Server × List Event :=
  (machine 8).after (listenActs ++ connectActs 4 ++ [.handler 0 0] ++
    (if gone then [.hangUp 0] else []) ++ [.stop])

theorem stopping_runs : ∀ gone, (machine 8).Runs free (stopping gone).2 (stopping gone).1
  | true => Runs.after rfl
  | false => Runs.after rfl

/-- With an idle client `stop` is stuck. -/
theorem stop_waits_for_idle_client : ¬ ∀ maxClients tr s, (machine maxClients).Runs free tr s →
    s.ctl ≠ .idle → ∃ tr' s',
      ((machine maxClients).startAt s).Runs (fun _ => serverSide) tr' s' ∧ .stopped ∈ tr' := by
  intro h
  obtain ⟨tr', s', hrun, hstopped⟩ := h 8 _ _ (stopping_runs false) nofun
  have hnot : ¬ ((stopping false).1.conns 0).ready := by
    rintro (hgone | ⟨hfour, -⟩)
    · cases hgone
    · exact absurd hfour (by decide)
  exact (waiting_blocks_stop (stopping_runs false) Nat.one_pos hnot hrun).2.2 hstopped

end Lwipc.SocketServer

namespace Lwipc.SocketBroadcast

open Machine SocketServer

section
variable {τ : Type}

/-- The steps of the server's own threads. -/
def serverSide (s : State τ) : Act τ → Prop
  | .server a => SocketServer.serverSide s.server a
  | _ => False

variable [DecidableEq τ] {maxClients : Int} {s s' : State τ} {tr : List (Event τ)}

/-- The server runs as it does alone. -/
theorem server_of_runs (h : (machine maxClients).Runs free tr s) :
    ∃ e, (SocketServer.machine maxClients).Runs free e s.server := by
  induction h with
  | init => exact ⟨[], .init⟩
  | step _ _ hs ih =>
    obtain ⟨e, hr⟩ := ih
    cases move_of_step hs with
    | server a x o hfree hx => exact ⟨_, hr.step trivial hx⟩
    | _ => exact ⟨e, hr⟩

theorem step_server {a : SocketServer.Act} {o : List (Event τ)} (hside : SocketServer.serverSide s.server a) :
    (machine maxClients).step s (.server a) = some (s', o) ↔
      (s.lock.isSome && locks s.server a) = false ∧ o = [] ∧
        ∃ x e, SocketServer.step maxClients s.server a = some (x, e) ∧ s' = { s with server := x } := by
  have hstep : (machine maxClients).step s (.server a) =
      if s.lock.isSome && locks s.server a then none
      else (SocketServer.step maxClients s.server a).map fun r => ({ s with server := r.1 }, []) := by
    cases a with
    | broadcast => cases hside
    | _ => rfl
  rw [hstep]
  cases hl : s.lock.isSome && locks s.server a with
  | true => simp
  | false =>
    rw [if_neg (by simp)]
    constructor
    · intro h
      obtain ⟨⟨x, e⟩, hx, heq⟩ := Option.map_eq_some_iff.1 h
      cases heq
      exact ⟨rfl, rfl, x, e, hx, rfl⟩
    · rintro ⟨-, rfl, x, e, hx, rfl⟩
      rw [hx]
      rfl

/-- The server's threads alone leave the mutex with the call that has it. -/
theorem permitted_of_runs {tr' : List (Event τ)}
    (h : ((machine maxClients).startAt s).Runs (fun _ => serverSide) tr' s') : s'.lock = s.lock ∧
      ∃ e, ((SocketServer.machine maxClients).startAt s.server).Runs (fun _ => Permitted s.lock.isSome) e
        s'.server := by
  induction h with
  | init => exact ⟨rfl, [], .init⟩
  | @step tr₁ s₁ s₂ a o _ hside hs ih =>
    obtain ⟨hlock, e, hr⟩ := ih
    cases a with
    | server a =>
      obtain ⟨hfree, -, x, e', hx, rfl⟩ := (step_server hside).1 hs
      rw [hlock] at hfree
      exact ⟨hlock, _, hr.step ⟨hside, hfree⟩ hx⟩
    | call | run | send => cases hside

theorem runs_of_permitted {e : List SocketServer.Event} {x : Server}
    (h : ((SocketServer.machine maxClients).startAt s.server).Runs (fun _ => Permitted s.lock.isSome) e x) :
    ((machine maxClients).startAt s).Runs (fun _ => serverSide) [] { s with server := x } := by
  induction h with
  | init => exact .init
  | @step e₁ x₁ x₂ a e' _ hok hx ih =>
    have hs : (machine maxClients).step { s with server := x₁ } (.server a) =
        some ({ s with server := x₂ }, []) := (step_server hok.1).2 ⟨hok.2, rfl, x₂, e', hx, rfl⟩
    have hside : serverSide { s with server := x₁ } (.server a) := hok.1
    exact ih.step hside hs

/-- In every run of the server with any number of calls of `broadcast`: once `stop` was entered, the
threads of the server can bring it to its return without the peers and without the callers of `broadcast`
if and only if no handler is in a `recv_ipc_message` whose bytes have not arrived and whose peer has not
closed, and no call of `broadcast` has `client_fds_mutex_` while a client is in the list or the accept
thread is about to lock it. -/
theorem stop_returns_iff (maxClients : Int) (tr : List (Event τ)) (s : State τ)
    (h : (machine maxClients).Runs free tr s) (hstop : s.server.ctl ≠ .idle) :
    (∃ tr' s', ((machine maxClients).startAt s).Runs (fun _ => serverSide) tr' s' ∧
      s'.server.ctl = .idle) ↔
    Responsive s.server ∧
      (s.lock = none ∨ s.server.clientFds = [] ∧ ∀ c, s.server.acc ≠ some (.limit c)) := by
  obtain ⟨e, hserver⟩ := server_of_runs h
  have hiff := returns_iff s.lock.isSome hserver hstop
  have hlock : (s.lock.isSome = true → Clear s.server) ↔ s.lock = none ∨ Clear s.server := by
    cases s.lock <;> simp
  rw [hlock] at hiff
  refine Iff.trans ⟨?_, ?_⟩ hiff
  · rintro ⟨tr', s', hrun, hidle⟩
    obtain ⟨-, e', hr⟩ := permitted_of_runs hrun
    exact ⟨e', s'.server, hr, hidle⟩
  · rintro ⟨e', x, hr, hidle⟩
    exact ⟨[], { s with server := x }, runs_of_permitted hr, hidle⟩

end

/-- A client has closed, a call of `broadcast` waits for the mutex or, if `inside`, is in its send to
this client, and `stop` is entered. -/
def stoppingDuring (inside : Bool) : State Unit × List (Event Unit) :=
  (machine 8).after ((listenActs ++ connectActs 4 ++ [SocketServer.Act.handler 0 0, .hangUp 0]).map .server ++
    [.call () (.new .default none 0)] ++ (if inside then [.run (), .run ()] else []) ++ [.server .stop])

theorem stoppingDuring_runs : ∀ inside,
    (machine 8).Runs free (stoppingDuring inside).2 (stoppingDuring inside).1
  | true => Runs.after rfl
  | false => Runs.after rfl

theorem stoppingDuring_responsive : ∀ inside, Responsive (stoppingDuring inside).1.server := by
  intro inside c hc
  have hone : (stoppingDuring inside).1.server.accepted = 1 := by cases inside <;> rfl
  obtain rfl : c = 0 := by omega
  cases inside <;> exact .inl rfl

/-- The call that waits for the mutex does not keep `stop` from returning, the one inside does. -/
theorem stop_returns_iff_during :
    (∃ tr' s', ((machine 8).startAt (stoppingDuring false).1).Runs (fun _ => serverSide) tr' s' ∧
      s'.server.ctl = .idle) ∧
    ¬ ∃ tr' s', ((machine 8).startAt (stoppingDuring true).1).Runs (fun _ => serverSide) tr' s' ∧
      s'.server.ctl = .idle := by
  rw [stop_returns_iff 8 _ _ (stoppingDuring_runs false) nofun,
    stop_returns_iff 8 _ _ (stoppingDuring_runs true) nofun]
  refine ⟨⟨stoppingDuring_responsive false, .inl rfl⟩, ?_⟩
  rintro ⟨-, hlock | ⟨hfds, -⟩⟩
  · cases hlock
  · cases hfds

end Lwipc.SocketBroadcast
