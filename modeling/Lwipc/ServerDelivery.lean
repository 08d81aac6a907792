import Lwipc.ServerClients
import Lwipc.SocketReceive

/-!
# What the server delivers

Every connection has a stream of its own: the bytes that its peer has sent so far. Whatever the other
connections, the accept thread, `broadcast` and `stop` do meanwhile, and however `::recv` cuts the
bytes up, the callback sees of a connection the frames at the start of its stream, and all of them
unless the peer resets the connection or `stop` is called.

`ConnStep` says what one step of the server does to one connection.
-/

namespace Lwipc.SocketServer

open LittleEndian IPCMessage SocketTransport Machine

/-- What comes to the server from outside. -/
inductive Input
  | bytes (c : Nat) (bs : List Byte)
  /-- the peer resets the connection: what was not read is gone -/
  | reset (c : Nat)
  | stop
  deriving DecidableEq

def inputs (_ : Server) : Act → Server → List Input
  | .send c bs, _ => [.bytes c bs]
  | .abort c, _ => [.reset c]
  | .stop, _ => [.stop]
  | _, _ => []

def Input.bytesFor (c : Nat) : Input → List Byte
  | .bytes c' bs => if c' = c then bs else []
  | _ => []

/-- All bytes that have arrived on a connection. -/
def streamOf (c : Nat) (H : List Input) : List Byte := H.flatMap (Input.bytesFor c)

def Event.contentsFor (c : Nat) : Event → Option (IPCHeader × List Byte)
  | .callback c' m => if c' = c then some m.contents else none
  | _ => none

/-- What the callback was called with on behalf of a connection. -/
def callbacksOf (c : Nat) (tr : List Event) : List (IPCHeader × List Byte) :=
  tr.filterMap (Event.contentsFor c)

/-- `start` is given a callback. -/
def WithCallback (_ : List Event) (_ : Server) : Act → Prop
  | .start cb => cb = true
  | _ => True

variable {maxClients : Int} {s s' : Server} {tr o : List Event} {H : List Input} {a : Act} {c k n : Nat}

@[simp] theorem streamOf_append (c : Nat) (H H' : List Input) :
    streamOf c (H ++ H') = streamOf c H ++ streamOf c H' := List.flatMap_append

@[simp] theorem callbacksOf_append (c : Nat) (tr o : List Event) :
    callbacksOf c (tr ++ o) = callbacksOf c tr ++ callbacksOf c o := List.filterMap_append

@[simp] theorem streamOf_nil (c : Nat) : streamOf c [] = [] := rfl

@[simp] theorem callbacksOf_nil (c : Nat) : callbacksOf c [] = [] := rfl

/-- A handler in `recv_all`. -/
def Phase.receives : Phase → Bool
  | .len _ | .buf _ _ => true
  | _ => false

/-- A handler that has left its loop. -/
def Phase.left : Phase → Bool
  | .erase | .close | .finished => true
  | _ => false

/-- What a step does to connection `c`: the connection after it, the bytes that arrive and what the
callback is called with. `H` are the inputs of the step. -/
inductive ConnStep (s : Server) (c : Nat) (H : List Input) :
    Conn → List Byte → List (IPCHeader × List Byte) → Prop
  | frame : ConnStep s c H (s.conns c) [] []
  | opened (n : Nat) (hc : c = s.accepted) : ConnStep s c H ⟨n, .accepted, [], false⟩ [] []
  | passed (p : Phase) (hold : (s.conns c).phase = .accepted ∨ (s.conns c).phase = .listed)
      (hnew : p = .rejected ∨ p = .listed ∨ p = .top) :
      ConnStep s c H { s.conns c with phase := p } [] []
  | top (hc : c < s.accepted) (hp : (s.conns c).phase = .top) :
      ConnStep s c H { s.conns c with phase := if s.running then .len [] else .erase } [] []
  | eof (hp : (s.conns c).phase.receives = true) (hup : (s.conns c).hungUp = true)
      (hin : (s.conns c).inbox = []) : ConnStep s c H { s.conns c with phase := .erase } [] []
  | len (got : List Byte) (k : Nat) (hp : (s.conns c).phase = .len got) (hk : k ≤ 4 - got.length)
      (hin : k ≤ (s.conns c).inbox.length) :
      ConnStep s c H { s.conns c with
        phase := afterLen (got ++ (s.conns c).inbox.take k), inbox := (s.conns c).inbox.drop k } [] []
  | buf (total : Nat) (got : List Byte) (k : Nat) (hp : (s.conns c).phase = .buf total got)
      (hk : k ≤ total - got.length) (hin : k ≤ (s.conns c).inbox.length) :
      ConnStep s c H { s.conns c with
        phase := afterBuf total (got ++ (s.conns c).inbox.take k), inbox := (s.conns c).inbox.drop k }
        [] []
  | callback (m : IPCMessage) (hc : c < s.accepted) (hp : (s.conns c).phase = .callback m) :
      ConnStep s c H { s.conns c with phase := .top } [] [m.contents]
  | away (p : Phase) (hp : (s.conns c).phase.left = true) (hnew : p.left = true) :
      ConnStep s c H { s.conns c with phase := p } [] []
  | send (bs : List Byte) (hc : c < s.accepted) (hup : (s.conns c).hungUp = false) :
      ConnStep s c H { s.conns c with inbox := (s.conns c).inbox ++ bs } bs []
  | hangUp : ConnStep s c H { s.conns c with hungUp := true } [] []
  | abort (hr : .reset c ∈ H) : ConnStep s c H { s.conns c with hungUp := true, inbox := [] } [] []

theorem stopStep_callbacks (h : stopStep s = some (s', o)) (c : Nat) : callbacksOf c o = [] := by
  unfold stopStep at h
  split at h
  case h_1 => cases h
  case h_7 =>
    split at h
    case h_3 => cases h
    all_goals
      obtain ⟨-, rfl⟩ := Prod.mk.inj (Option.some.inj h)
      rfl
  case h_8 =>
    split at h
    · obtain ⟨-, h⟩ := Option.ite_none_left_eq_some.1 h
      obtain ⟨-, rfl⟩ := Prod.mk.inj (Option.some.inj h)
      rfl
    · obtain ⟨-, rfl⟩ := Prod.mk.inj (Option.some.inj h)
      rfl
  all_goals
    obtain ⟨-, rfl⟩ := Prod.mk.inj (Option.some.inj h)
    rfl

/-- The accept thread passes on the connection that it has in hand. -/
theorem connStep_update {c' : Nat} {p : Phase}
    (hold : (s.conns c').phase = .accepted ∨ (s.conns c').phase = .listed)
    (hnew : p = .rejected ∨ p = .listed ∨ p = .top) :
    ConnStep s c H (Function.update s.conns c' { s.conns c' with phase := p } c) [] [] := by
  by_cases heq : c = c'
  · subst heq
    rw [Function.update_self]
    exact .passed p hold hnew
  · rw [Function.update_of_ne heq]
    exact .frame

theorem connStep_of_acceptStep {out : Outcome} (h : Inv maxClients s)
    (hs : acceptStep maxClients s s.acc out = some (s', o)) (c : Nat) :
    ConnStep s c H (s'.conns c) [] (callbacksOf c o) := by
  generalize hacc : s.acc = pc at hs
  unfold acceptStep at hs
  split at hs
  case h_11 n =>
    obtain ⟨-, hs⟩ := Option.ite_none_right_eq_some.1 hs
    obtain ⟨rfl, rfl⟩ := Prod.mk.inj (Option.some.inj hs)
    show ConnStep s c H (Function.update s.conns s.accepted ⟨n, .accepted, [], false⟩ c) [] []
    by_cases heq : c = s.accepted
    · rw [heq, Function.update_self]
      exact .opened n rfl
    · rw [Function.update_of_ne heq]
      exact .frame
  case h_13 c' =>
    have hp := (h.of_limit hacc).2.1
    split at hs
    · obtain ⟨rfl, rfl⟩ := Prod.mk.inj (Option.some.inj hs)
      exact connStep_update (.inl hp) (.inl rfl)
    · obtain ⟨rfl, rfl⟩ := Prod.mk.inj (Option.some.inj hs)
      exact connStep_update (.inl hp) (.inr (.inl rfl))
  case h_15 c' =>
    have hp := ((h.handoff.listed c').1 (.inr hacc)).2
    obtain ⟨rfl, rfl⟩ := Prod.mk.inj (Option.some.inj hs)
    exact connStep_update (.inr hp) (.inr (.inr rfl))
  case h_16 => cases hs
  case h_1 | h_3 | h_5 =>
    obtain ⟨-, hs⟩ := Option.ite_none_right_eq_some.1 hs
    obtain ⟨rfl, rfl⟩ := Prod.mk.inj (Option.some.inj hs)
    exact .frame
  all_goals
    obtain ⟨rfl, rfl⟩ := Prod.mk.inj (Option.some.inj hs)
    exact .frame

theorem connStep_of_recv {next : List Byte → Phase} (ht : s.table (s.conns c).fd = some (.conn c))
    (hp : (s.conns c).phase.receives = true)
    (hnext : ∀ k ≤ n, k ≤ (s.conns c).inbox.length →
      ConnStep s c H { s.conns c with
        phase := next ((s.conns c).inbox.take k), inbox := (s.conns c).inbox.drop k } [] [])
    (h : recv s c n k next = some (s', o)) : ConnStep s c H (s'.conns c) [] (callbacksOf c o) := by
  unfold recv at h
  split at h
  · obtain ⟨hcond, h⟩ := Option.ite_none_right_eq_some.1 h
    obtain ⟨rfl, rfl⟩ := Prod.mk.inj (Option.some.inj h)
    obtain ⟨hup, hin⟩ := hcond.resolve_right (fun hne => hne ht)
    rw [setPhase_conns]
    exact .eof hp hup hin
  · obtain ⟨⟨-, hk, hin⟩, h⟩ := Option.ite_none_right_eq_some.1 h
    obtain ⟨rfl, rfl⟩ := Prod.mk.inj (Option.some.inj h)
    show ConnStep s c H (Function.update s.conns c _ c) [] []
    rw [Function.update_self]
    exact hnext k hk hin

theorem connStep_of_handleStep (hc : c < s.accepted) (hcb : s.hasCallback = true)
    (ht : (s.conns c).phase.isOpen = true → s.table (s.conns c).fd = some (.conn c))
    (h : handleStep s c k = some (s', o)) : ConnStep s c H (s'.conns c) [] (callbacksOf c o) := by
  unfold handleStep at h
  split at h
  · rename_i hp
    obtain ⟨rfl, rfl⟩ := Prod.mk.inj (Option.some.inj h)
    rw [setPhase_conns]
    exact .top hc hp
  · rename_i got hp
    exact connStep_of_recv (ht (by rw [hp]; rfl)) (by rw [hp]; rfl) (fun k => .len got k hp) h
  · rename_i total got hp
    exact connStep_of_recv (ht (by rw [hp]; rfl)) (by rw [hp]; rfl) (fun k => .buf total got k hp) h
  · rename_i m hp
    obtain ⟨rfl, rfl⟩ := Prod.mk.inj (Option.some.inj h)
    have hout : callbacksOf c [.callback c m] = [m.contents] := by
      simp [callbacksOf, Event.contentsFor]
    rw [setPhase_conns, if_pos hcb, hout]
    exact .callback m hc hp
  · rename_i hp
    obtain ⟨rfl, rfl⟩ := Prod.mk.inj (Option.some.inj h)
    show ConnStep s c H (Function.update s.conns c _ c) [] []
    rw [Function.update_self]
    exact .away .close (by rw [hp]; rfl) rfl
  · rename_i hp
    obtain ⟨rfl, rfl⟩ := Prod.mk.inj (Option.some.inj h)
    show ConnStep s c H (Function.update s.conns c _ c) [] []
    rw [Function.update_self]
    exact .away .finished (by rw [hp]; rfl) rfl
  · cases h

theorem handleStep_callbacks {c' : Nat} (h : handleStep s c k = some (s', o)) (hne : c' ≠ c) :
    callbacksOf c' o = [] := by
  have hrecv : ∀ {n next}, recv s c n k next = some (s', o) → callbacksOf c' o = [] := by
    intro n next h
    unfold recv at h
    split at h
    all_goals
      obtain ⟨-, h⟩ := Option.ite_none_right_eq_some.1 h
      obtain ⟨-, rfl⟩ := Prod.mk.inj (Option.some.inj h)
      rfl
  unfold handleStep at h
  split at h
  case h_2 | h_3 => exact hrecv h
  case h_4 m _ =>
    obtain ⟨-, rfl⟩ := Prod.mk.inj (Option.some.inj h)
    split
    · simp [callbacksOf, Event.contentsFor, hne.symm]
    · rfl
  case h_7 => cases h
  all_goals
    obtain ⟨-, rfl⟩ := Prod.mk.inj (Option.some.inj h)
    rfl

/-- A peer acts on its own connection. -/
theorem connStep_of_peer {c' : Nat} {x : Conn} {bs : List Byte}
    (h : c' = c → ConnStep s c H x bs []) (hother : c' ≠ c → bs = []) :
    ConnStep s c H ((s.setConn c' x).conns c) bs [] := by
  show ConnStep s c H (Function.update s.conns c' x c) bs []
  by_cases heq : c' = c
  · subst heq
    rw [Function.update_self]
    exact h rfl
  · rw [Function.update_of_ne (Ne.symm heq), hother heq]
    exact .frame

theorem connStep_of_step (h : Inv maxClients s) (hcb : 0 < s.accepted → s.hasCallback = true)
    (hs : step maxClients s a = some (s', o)) (c : Nat) :
    ConnStep s c (inputs s a s') (s'.conns c) (streamOf c (inputs s a s')) (callbacksOf c o) := by
  cases a with
  | start cb =>
    have hs : start s cb = some (s', o) := hs
    unfold start at hs
    split at hs
    · split at hs
      all_goals
        obtain ⟨rfl, rfl⟩ := Prod.mk.inj (Option.some.inj hs)
        exact .frame
    · cases hs
  | stop =>
    simp only [step] at hs
    split at hs
    · obtain ⟨rfl, rfl⟩ := Prod.mk.inj (Option.some.inj hs)
      exact .frame
    · cases hs
  | ctl =>
    rw [(stopStep_frame hs).1, stopStep_callbacks hs c]
    exact .frame
  | acc out => exact connStep_of_acceptStep h hs c
  | handler c' k =>
    obtain ⟨hc, hs⟩ := Option.ite_none_right_eq_some.1 hs
    by_cases heq : c = c'
    · subst heq
      exact connStep_of_handleStep hc (hcb (Nat.zero_lt_of_lt hc)) (h.sound.table_eq hc) hs
    · rw [handleStep_other hs heq, handleStep_callbacks hs heq]
      exact .frame
  | broadcast =>
    obtain ⟨rfl, rfl⟩ := Prod.mk.inj (Option.some.inj hs)
    have hout : callbacksOf c (s.clientFds.map fun fd => .sent (s.table fd)) = [] :=
      filterMap_map_eq_nil (fun _ => rfl) _
    rw [hout]
    exact .frame
  | send c' bs =>
    obtain ⟨⟨hc, hup⟩, hs⟩ := Option.ite_none_right_eq_some.1 hs
    obtain ⟨rfl, rfl⟩ := Prod.mk.inj (Option.some.inj hs)
    rw [show streamOf c (inputs s (.send c' bs) _) = if c' = c then bs else [] by
      simp [inputs, streamOf, Input.bytesFor]]
    refine connStep_of_peer ?_ fun hne => if_neg hne
    rintro rfl
    rw [if_pos rfl]
    exact .send bs hc hup
  | hangUp c' =>
    obtain ⟨hc, hs⟩ := Option.ite_none_right_eq_some.1 hs
    obtain ⟨rfl, rfl⟩ := Prod.mk.inj (Option.some.inj hs)
    refine connStep_of_peer ?_ fun _ => rfl
    rintro rfl
    exact .hangUp
  | abort c' =>
    obtain ⟨hc, hs⟩ := Option.ite_none_right_eq_some.1 hs
    obtain ⟨rfl, rfl⟩ := Prod.mk.inj (Option.some.inj hs)
    refine connStep_of_peer ?_ fun _ => rfl
    rintro rfl
    exact .abort (List.mem_singleton_self _)

/-! ### The stream of a connection -/

/-- Bytes at which no frame can start, whatever follows. -/
def Bad (bad : List Byte) : Prop := ∀ f, IsFrame f → ¬ f <+: bad ∧ ¬ bad <+: f

/-- No frame stands in the stream behind the frames `fs`. -/
def NoFurther (fs : List (List Byte)) (st : List Byte) : Prop := ∀ f, IsFrame f → ¬ fs.flatten ++ f <+: st

/-- The bytes of the current frame that were read, up to the call of the callback. -/
def Phase.Holds : Phase → List Byte → Prop
  | .accepted, part | .rejected, part | .listed, part | .top, part => part = []
  | .len got, part => part = got ∧ got.length < 4
  | .buf total got, part => ∃ p, part = p ++ got ∧ p.length = 4 ∧ fromLE p = total ∧
      (64 ≤ total ∧ total ≤ kMaxMessageSize) ∧ got.length < total
  | .callback m, part => IsFrame part ∧ m.contents = frameContents part
  | _, _ => False

variable {f bad part rest st : List Byte} {fs : List (List Byte)}

theorem isFrame_length (h : IsFrame f) : 68 ≤ f.length := by
  have := h.2.2.1
  have := h.1
  omega

/-- A frame and other bytes with the same start have the same length field. -/
theorem take_of_prefix (hf : IsFrame f) {p l : List Byte} (hp : p.length = 4)
    (h : f <+: p ++ l ∨ p ++ l <+: f) : f.take 4 = p := by
  have hlen := isFrame_length hf
  rcases h with ⟨t, ht⟩ | ⟨t, ht⟩
  · have := congrArg (List.take 4) ht
    rwa [List.take_append_of_le_length (by omega), List.take_left' hp] at this
  · rw [← ht, List.append_assoc, List.take_left' hp]

theorem bad_len (hlen : bad.length = 4) (h : fromLE bad < 64 ∨ fromLE bad > kMaxMessageSize) : Bad bad := by
  intro f hf
  rw [← not_or]
  intro hpre
  have htake : f.take 4 = bad := take_of_prefix (l := []) hf hlen (by simpa using hpre)
  obtain ⟨h1, h2, -⟩ := hf
  rw [htake] at h1 h2
  omega

theorem bad_buf {p got : List Byte} (hp : p.length = 4) (hgot : got.length = fromLE p)
    (h : ¬ (fromBuffer got).valid = true) : Bad (p ++ got) := by
  intro f hf
  rw [← not_or]
  intro hpre
  have htake : f.take 4 = p := take_of_prefix hf hp hpre
  have hlen : f.length = (p ++ got).length := by
    rw [hf.2.2.1, htake, List.length_append, hp, hgot]
  have heq : f = p ++ got := by
    rcases hpre with hpre | hpre
    · exact hpre.eq_of_length hlen
    · exact (hpre.eq_of_length hlen.symm).symm
  have hacc := hf.2.2.2
  rw [heq, List.drop_left' hp] at hacc
  exact h (fromBuffer_of_accepts hacc).1

theorem Bad.noFurther (h : Bad bad) (hp : fs.flatten ++ bad <+: st) : NoFurther fs st := by
  intro f hf hpf
  obtain ⟨t, rfl⟩ := hp
  rw [List.append_assoc] at hpf
  have hpf := (List.prefix_append_right_inj _).1 hpf
  rcases List.prefix_or_prefix_of_prefix hpf (List.prefix_append bad t) with hpre | hpre
  · exact (h f hf).1 hpre
  · exact (h f hf).2 hpre

/-- With everything read, there is no complete frame behind those that were delivered. -/
theorem Phase.Holds.noFurther {p : Phase} (h : p.Holds part) (hp : p.receives = true) :
    NoFurther fs (fs.flatten ++ part) := by
  intro f hf hpf
  have hpf := (List.prefix_append_right_inj _).1 hpf
  have hlen := isFrame_length hf
  have hle := hpf.length_le
  cases p with
  | len got =>
    obtain ⟨rfl, hgot⟩ := h
    omega
  | buf total got =>
    obtain ⟨p, rfl, hp4, htotal, -, hgot⟩ := h
    have htake := take_of_prefix hf hp4 (.inl hpf)
    have hflen := hf.2.2.1
    rw [htake, htotal] at hflen
    rw [List.length_append] at hle
    omega
  | _ => cases hp

/-- The bytes behind those that were read: the inbox, unless the peer has reset the connection. -/
def Ahead (cut : Prop) (x : Conn) (rest : List Byte) : Prop :=
  rest = x.inbox ∨ cut ∧ x.hungUp = true ∧ x.inbox = []

/-- How a connection stands to its stream: the callback has seen the frames `fs` at the start, and the
handler is behind them, or it has left for a reason. -/
inductive Served (cut : Prop) (x : Conn) (st : List Byte) : List (IPCHeader × List Byte) → Prop
  | reading (fs : List (List Byte)) (part rest : List Byte) (hfs : ∀ f ∈ fs, IsFrame f)
      (hst : st = fs.flatten ++ (part ++ rest)) (hpart : x.phase.Holds part) (hrest : Ahead cut x rest) :
      Served cut x st (fs.map frameContents)
  | away (fs : List (List Byte)) (hfs : ∀ f ∈ fs, IsFrame f) (hst : fs.flatten <+: st)
      (hleft : x.phase.left = true)
      (hwhy : cut ∨ (x.hungUp = true ∧ NoFurther fs st) ∨ ∃ bad, Bad bad ∧ fs.flatten ++ bad <+: st) :
      Served cut x st (fs.map frameContents)

namespace Served

variable {cut cut' : Prop} {x x' : Conn} {bs got : List Byte} {out out' : List (IPCHeader × List Byte)}

theorem not_left {p : Phase} (h : p.Holds part) : p.left = false := by
  cases p <;> first | rfl | cases h

/-- The cases by the phase: a handler that has not left its loop. -/
theorem exists_holds (h : Served cut x st out) (hp : x.phase.left = false) :
    ∃ (fs : List (List Byte)) (part rest : List Byte), (∀ f ∈ fs, IsFrame f) ∧
      st = fs.flatten ++ (part ++ rest) ∧ x.phase.Holds part ∧ Ahead cut x rest ∧
      out = fs.map frameContents := by
  cases h with
  | reading fs part rest hfs hst hpart hrest => exact ⟨fs, part, rest, hfs, hst, hpart, hrest, rfl⟩
  | away _ _ _ hleft =>
    rw [hp] at hleft
    cases hleft

theorem mono (h : Served cut x st out) (hcut : cut → cut') : Served cut' x st out := by
  cases h with
  | reading fs part rest hfs hst hpart hrest =>
    exact .reading fs part rest hfs hst hpart (hrest.imp_right fun h => ⟨hcut h.1, h.2⟩)
  | away fs hfs hst hleft hwhy => exact .away fs hfs hst hleft (hwhy.imp_left hcut)

/-- Without a change to the inbox and the bytes read of the current frame. -/
theorem of_phase (h : Served cut x st out) (hp : x.phase.left = false) {p : Phase}
    (hnew : ∀ part, x.phase.Holds part → p.Holds part) : Served cut { x with phase := p } st out := by
  obtain ⟨fs, part, rest, hfs, hst, hpart, hrest, rfl⟩ := h.exists_holds hp
  exact .reading fs part rest hfs hst (hnew part hpart) hrest

theorem ahead_take (h : Ahead cut x rest) (k : Nat) : ∃ rest', rest = x.inbox.take k ++ rest' ∧
    (rest' = x.inbox.drop k ∨ cut ∧ x.hungUp = true ∧ x.inbox.drop k = []) := by
  rcases h with rfl | ⟨hcut, hup, hin⟩
  · exact ⟨_, (List.take_append_drop k _).symm, .inl rfl⟩
  · exact ⟨rest, by rw [hin, List.take_nil, List.nil_append], .inr ⟨hcut, hup, by rw [hin, List.drop_nil]⟩⟩

/-- What follows in the stream when bytes were read: the rest of a frame, or bytes that end the
connection. -/
theorem recv {k : Nat} {p : Phase} (hfs : ∀ f ∈ fs, IsFrame f) (hst : st = fs.flatten ++ (part ++ rest))
    (hrest : Ahead cut x rest)
    (hp : p.Holds (part ++ x.inbox.take k) ∨ p = .erase ∧ Bad (part ++ x.inbox.take k)) :
    Served cut { x with phase := p, inbox := x.inbox.drop k } st (fs.map frameContents) := by
  obtain ⟨rest', rfl, hrest'⟩ := ahead_take hrest k
  rcases hp with hp | ⟨rfl, hbad⟩
  · exact .reading fs (part ++ x.inbox.take k) rest' hfs (by rw [hst, List.append_assoc part]) hp hrest'
  · refine .away fs hfs ⟨_, hst.symm⟩ rfl (.inr (.inr ⟨_, hbad, rest', ?_⟩))
    rw [hst, List.append_assoc, List.append_assoc]

theorem holds_afterLen (h : got.length ≤ 4) :
    (afterLen got).Holds got ∨ afterLen got = .erase ∧ Bad got := by
  unfold afterLen
  split
  · exact .inl ⟨rfl, by assumption⟩
  · have hlen : got.length = 4 := by omega
    split
    · exact .inr ⟨rfl, bad_len hlen (by assumption)⟩
    · exact .inl ⟨got, (List.append_nil got).symm, hlen, rfl, by omega, by show 0 < fromLE got; omega⟩

theorem holds_afterBuf {p : List Byte} (hp : p.length = 4) (hmin : 64 ≤ fromLE p)
    (hmax : fromLE p ≤ kMaxMessageSize) (h : got.length ≤ fromLE p) :
    (afterBuf (fromLE p) got).Holds (p ++ got) ∨
      afterBuf (fromLE p) got = .erase ∧ Bad (p ++ got) := by
  unfold afterBuf
  split
  · exact .inl ⟨p, rfl, hp, rfl, ⟨hmin, hmax⟩, by assumption⟩
  · have hlen : got.length = fromLE p := by omega
    split
    · rename_i hv
      have hacc := accepts_of_valid hv
      have htake : (p ++ got).take 4 = p := List.take_left' hp
      have hdrop : (p ++ got).drop 4 = got := List.drop_left' hp
      refine .inl ⟨⟨?_, ?_, ?_, ?_⟩, ?_⟩
      · rw [htake]; exact hmin
      · rw [htake]; exact hmax
      · rw [htake, List.length_append, hp, hlen]
      · rw [hdrop]; exact hacc
      · have hdrop' : (p ++ got).drop (4 + 64) = got.drop 64 := by rw [← List.drop_drop, hdrop]
        rw [(fromBuffer_of_accepts hacc).2, frameContents, hdrop, hdrop']
    · rename_i hv
      exact .inr ⟨rfl, bad_buf hp hlen hv⟩

theorem send (h : Served cut x st out) (hup : x.hungUp = false) (bs : List Byte) :
    Served cut { x with inbox := x.inbox ++ bs } (st ++ bs) out := by
  cases h with
  | reading fs part rest hfs hst hpart hrest =>
    rcases hrest with rfl | ⟨-, hup', -⟩
    · refine .reading fs part (x.inbox ++ bs) hfs ?_ hpart (.inl rfl)
      rw [hst]
      simp only [List.append_assoc]
    · rw [hup] at hup'
      cases hup'
  | away fs hfs hst hleft hwhy =>
    refine .away fs hfs (hst.trans (List.prefix_append _ _)) hleft ?_
    rcases hwhy with hcut | ⟨hup', -⟩ | ⟨bad, hbad, hpre⟩
    · exact .inl hcut
    · rw [hup] at hup'
      cases hup'
    · exact .inr (.inr ⟨bad, hbad, hpre.trans (List.prefix_append _ _)⟩)

theorem hangUp (h : Served cut x st out) : Served cut { x with hungUp := true } st out := by
  cases h with
  | reading fs part rest hfs hst hpart hrest =>
    exact .reading fs part rest hfs hst hpart (hrest.imp_right fun h => ⟨h.1, rfl, h.2.2⟩)
  | away fs hfs hst hleft hwhy =>
    exact .away fs hfs hst hleft (hwhy.imp_right (Or.imp_left fun h => ⟨rfl, h.2⟩))

theorem abort (h : Served cut x st out) (hcut : cut) :
    Served cut { x with hungUp := true, inbox := [] } st out := by
  cases h with
  | reading fs part rest hfs hst hpart hrest =>
    exact .reading fs part rest hfs hst hpart (.inr ⟨hcut, rfl, rfl⟩)
  | away fs hfs hst hleft hwhy => exact .away fs hfs hst hleft (.inl hcut)

theorem eof (h : Served cut x st out) (hp : x.phase.receives = true) (hup : x.hungUp = true)
    (hin : x.inbox = []) : Served cut { x with phase := .erase } st out := by
  have hleft : x.phase.left = false := by
    cases hphase : x.phase <;> first | rfl | (rw [hphase] at hp; cases hp)
  obtain ⟨fs, part, rest, hfs, hst, hpart, hrest, rfl⟩ := h.exists_holds hleft
  refine .away fs hfs ⟨_, hst.symm⟩ rfl ?_
  rcases hrest with rfl | ⟨hcut, -⟩
  · refine .inr (.inl ⟨hup, ?_⟩)
    rw [hst, hin, List.append_nil]
    exact hpart.noFurther hp
  · exact .inl hcut

/-- The message in hand goes to the callback. -/
theorem callback {m : IPCMessage} (h : Served cut x st out) (hp : x.phase = .callback m) :
    Served cut { x with phase := .top } st (out ++ [m.contents]) := by
  obtain ⟨fs, part, rest, hfs, hst, hpart, hrest, rfl⟩ := h.exists_holds (by rw [hp]; rfl)
  rw [hp] at hpart
  obtain ⟨hframe, hcont⟩ := hpart
  have hout : fs.map frameContents ++ [m.contents] = (fs ++ [part]).map frameContents := by
    rw [List.map_append, List.map_singleton, hcont]
  rw [hout]
  refine .reading (fs ++ [part]) [] rest ?_ ?_ rfl hrest
  · intro f hf
    rcases List.mem_append.1 hf with hf | hf
    · exact hfs f hf
    · rw [List.mem_singleton.1 hf]
      exact hframe
  · rw [hst, List.flatten_append, List.flatten_singleton, List.append_assoc, List.nil_append]

theorem step {s : Server} {c : Nat} {H : List Input} (h : Served cut (s.conns c) st out)
    (hs : ConnStep s c H x' bs out') (hstop : c < s.accepted → s.running = false → cut) (hreset : .reset c ∈ H → cut)
    (hnew : c = s.accepted → st = [] ∧ out = []) : Served cut x' (st ++ bs) (out ++ out') := by
  cases hs <;> simp only [List.append_nil]
  case frame => exact h
  case opened n hc =>
    obtain ⟨rfl, rfl⟩ := hnew hc
    exact .reading [] [] [] nofun rfl rfl (.inl rfl)
  case passed p hold hp =>
    refine h.of_phase (by rcases hold with hold | hold <;> rw [hold] <;> rfl) fun part hpart => ?_
    have hnil : part = [] := by rcases hold with hold | hold <;> rw [hold] at hpart <;> exact hpart
    rcases hp with rfl | rfl | rfl <;> exact hnil
  case top hc hp =>
    cases hrun : s.running with
    | true =>
      refine h.of_phase (by rw [hp]; rfl) fun part hpart => ?_
      rw [hp] at hpart
      exact ⟨hpart, Nat.succ_pos 3⟩
    | false =>
      obtain ⟨fs, part, rest, hfs, hst, -, -, rfl⟩ := h.exists_holds (by rw [hp]; rfl)
      exact .away fs hfs ⟨_, hst.symm⟩ rfl (.inl (hstop hc hrun))
  case eof hp hup hin => exact h.eof hp hup hin
  case len got k hp hk hin =>
    obtain ⟨fs, part, rest, hfs, hst, hpart, hrest, rfl⟩ := h.exists_holds (by rw [hp]; rfl)
    rw [hp] at hpart
    obtain ⟨rfl, hgot⟩ := hpart
    exact recv hfs hst hrest (holds_afterLen (by rw [List.length_append, List.length_take]; omega))
  case buf total got k hp hk hin =>
    obtain ⟨fs, part, rest, hfs, hst, hpart, hrest, rfl⟩ := h.exists_holds (by rw [hp]; rfl)
    rw [hp] at hpart
    obtain ⟨p, rfl, hp4, rfl, ⟨hmin, hmax⟩, hgot⟩ := hpart
    refine recv hfs hst hrest ?_
    rw [List.append_assoc]
    exact holds_afterBuf hp4 hmin hmax (by rw [List.length_append, List.length_take]; omega)
  case callback m hc hp => exact h.callback hp
  case away p hp hleft =>
    cases h with
    | reading _ _ _ _ _ hpart =>
      rw [not_left hpart] at hp
      cases hp
    | away fs hfs hst _ hwhy => exact .away fs hfs hst hleft hwhy
  case send hc hup => exact h.send hup bs
  case hangUp => exact h.hangUp
  case abort hr => exact h.abort (hreset hr)

end Served

/-! ### Runs -/

/-- What the inputs say about the threads: connections come after a `start` with a callback, and
`running_` is false after that only when `stop` was called. -/
structure Outside (H : List Input) (s : Server) : Prop where
  callback : s.acc.isSome = true ∨ 0 < s.accepted → s.hasCallback = true
  ctl : s.ctl = .idle ∨ .stop ∈ H
  running : s.running = true ∨ .stop ∈ H ∨ s.acc = none ∧ s.accepted = 0

namespace Outside

theorem mono (h : Outside H s) (H' : List Input) : Outside (H ++ H') s :=
  ⟨h.callback, h.ctl.imp_right (List.mem_append_left _),
    h.running.imp_right (Or.imp_left (List.mem_append_left _))⟩

theorem congr (h : Outside H s) (hcb : s'.hasCallback = s.hasCallback) (hacc : s'.acc = s.acc)
    (haccepted : s'.accepted = s.accepted) (hctl : s'.ctl = s.ctl) (hrun : s'.running = s.running) :
    Outside H s' :=
  ⟨by rw [hcb, hacc, haccepted]; exact h.callback, by rw [hctl]; exact h.ctl,
    by rw [hrun, hacc, haccepted]; exact h.running⟩

theorem stopStep (h : Outside H s) (hs : stopStep s = some (s', o)) : Outside H s' := by
  have hstop : .stop ∈ H := by
    refine h.ctl.resolve_left fun hctl => ?_
    rw [SocketServer.stopStep, hctl] at hs
    cases hs
  have hkeep : s'.hasCallback = s.hasCallback ∧ (s'.acc = none ∨ s'.acc = s.acc) := by
    unfold SocketServer.stopStep at hs
    split at hs
    case h_1 => cases hs
    case h_4 =>
      obtain ⟨rfl, -⟩ := Prod.mk.inj (Option.some.inj hs)
      split <;> exact ⟨rfl, .inr rfl⟩
    case h_7 =>
      split at hs
      case h_3 => cases hs
      all_goals
        obtain ⟨rfl, -⟩ := Prod.mk.inj (Option.some.inj hs)
        exact ⟨rfl, .inl rfl⟩
    case h_8 =>
      split at hs
      · obtain ⟨-, hs⟩ := Option.ite_none_left_eq_some.1 hs
        obtain ⟨rfl, -⟩ := Prod.mk.inj (Option.some.inj hs)
        exact ⟨rfl, .inr rfl⟩
      · obtain ⟨rfl, -⟩ := Prod.mk.inj (Option.some.inj hs)
        exact ⟨rfl, .inr rfl⟩
    all_goals
      obtain ⟨rfl, -⟩ := Prod.mk.inj (Option.some.inj hs)
      exact ⟨rfl, .inr rfl⟩
  refine ⟨fun hsome => ?_, .inr hstop, .inr (.inl hstop)⟩
  rw [hkeep.1]
  refine h.callback ?_
  rw [(stopStep_frame hs).2.1] at hsome
  refine hsome.imp_left fun hsome => ?_
  rcases hkeep.2 with hacc | hacc <;> rw [hacc] at hsome
  · cases hsome
  · exact hsome

theorem acceptStep {out : Outcome} (h : Outside H s) (hs : acceptStep maxClients s s.acc out = some (s', o)) :
    Outside H s' := by
  have hsome : s.acc.isSome = true := by
    cases hacc : s.acc with
    | none =>
      rw [hacc] at hs
      cases hs
    | some pc => rfl
  have hcb := h.callback (.inl hsome)
  have hrun : s.running = true ∨ .stop ∈ H := by
    refine h.running.imp_right fun hr => hr.resolve_right fun hnone => ?_
    rw [hnone.1] at hsome
    cases hsome
  have hkeep : s'.hasCallback = s.hasCallback ∧ s'.ctl = s.ctl ∧ s'.running = s.running := by
    generalize s.acc = pc at hs
    unfold SocketServer.acceptStep at hs
    split at hs
    case h_16 => cases hs
    case h_1 | h_3 | h_5 | h_11 =>
      obtain ⟨-, hs⟩ := Option.ite_none_right_eq_some.1 hs
      obtain ⟨rfl, -⟩ := Prod.mk.inj (Option.some.inj hs)
      exact ⟨rfl, rfl, rfl⟩
    case h_13 =>
      split at hs
      all_goals
        obtain ⟨rfl, -⟩ := Prod.mk.inj (Option.some.inj hs)
        exact ⟨rfl, rfl, rfl⟩
    all_goals
      obtain ⟨rfl, -⟩ := Prod.mk.inj (Option.some.inj hs)
      exact ⟨rfl, rfl, rfl⟩
  obtain ⟨hcb', hctl', hrun'⟩ := hkeep
  exact ⟨fun _ => hcb'.trans hcb, by rw [hctl']; exact h.ctl,
    by rw [hrun']; exact hrun.imp_right .inl⟩

theorem handleStep (h : Outside H s) (hs : handleStep s c k = some (s', o)) : Outside H s' := by
  have hrecv : ∀ {n next}, recv s c n k next = some (s', o) → Outside H s' := by
    intro n next hs
    unfold recv at hs
    split at hs
    all_goals
      obtain ⟨-, hs⟩ := Option.ite_none_right_eq_some.1 hs
      obtain ⟨rfl, -⟩ := Prod.mk.inj (Option.some.inj hs)
      exact h.congr rfl rfl rfl rfl rfl
  unfold SocketServer.handleStep at hs
  split at hs
  case h_2 | h_3 => exact hrecv hs
  case h_7 => cases hs
  all_goals
    obtain ⟨rfl, -⟩ := Prod.mk.inj (Option.some.inj hs)
    exact h.congr rfl rfl rfl rfl rfl

theorem step (h : Outside H s) (hok : WithCallback tr s a) (hs : step maxClients s a = some (s', o)) :
    Outside (H ++ inputs s a s') s' := by
  cases a with
  | start cb =>
    have hok : cb = true := hok
    have hs : start s cb = some (s', o) := hs
    unfold start at hs
    split at hs
    · rename_i hctl
      split at hs
      · obtain ⟨rfl, -⟩ := Prod.mk.inj (Option.some.inj hs)
        exact h.mono _
      · obtain ⟨rfl, -⟩ := Prod.mk.inj (Option.some.inj hs)
        exact ⟨fun _ => hok, .inl hctl, .inl rfl⟩
    · cases hs
  | stop =>
    simp only [SocketServer.step] at hs
    split at hs
    · obtain ⟨rfl, -⟩ := Prod.mk.inj (Option.some.inj hs)
      have hstop : .stop ∈ H ++ inputs s .stop { s with ctl := .store } :=
        List.mem_append_right _ (List.mem_singleton_self _)
      exact ⟨h.callback, .inr hstop, .inr (.inl hstop)⟩
    · cases hs
  | ctl => exact (h.stopStep hs).mono _
  | acc out => exact (h.acceptStep hs).mono _
  | handler c k => exact (h.handleStep (Option.ite_none_right_eq_some.1 hs).2).mono _
  | broadcast =>
    obtain ⟨rfl, -⟩ := Prod.mk.inj (Option.some.inj hs)
    exact h.mono _
  | send c bs =>
    obtain ⟨-, hs⟩ := Option.ite_none_right_eq_some.1 hs
    obtain ⟨rfl, -⟩ := Prod.mk.inj (Option.some.inj hs)
    exact (h.mono _).congr rfl rfl rfl rfl rfl
  | hangUp c | abort c =>
    obtain ⟨-, hs⟩ := Option.ite_none_right_eq_some.1 hs
    obtain ⟨rfl, -⟩ := Prod.mk.inj (Option.some.inj hs)
    exact (h.mono _).congr rfl rfl rfl rfl rfl

theorem of_observed (h : (machine maxClients).Observed WithCallback inputs tr H s) : Outside H s := by
  induction h with
  | init => exact ⟨fun h => h.elim nofun nofun, .inl rfl, .inr (.inr ⟨rfl, rfl⟩)⟩
  | step _ hok hs ih => exact ih.step hok hs

end Outside

/-- The peer has reset connection `c`, or `stop` was called. -/
def Cut (c : Nat) (H : List Input) : Prop := .reset c ∈ H ∨ .stop ∈ H

theorem Cut.append (h : Cut c H) (H' : List Input) : Cut c (H ++ H') :=
  h.imp (List.mem_append_left _) (List.mem_append_left _)

/-- Nothing comes to a connection that was not accepted yet. -/
theorem ConnStep.silent {x : Conn} {bs : List Byte} {out : List (IPCHeader × List Byte)}
    (h : ConnStep s c H x bs out) (hc : s.accepted ≤ c) : bs = [] ∧ out = [] := by
  cases h with
  | send _ hlt | callback _ hlt => exact absurd hlt (Nat.not_lt.2 hc)
  | _ => exact ⟨rfl, rfl⟩

theorem served_of_observed (h : (machine maxClients).Observed WithCallback inputs tr H s) (c : Nat) :
    (s.accepted ≤ c → streamOf c H = [] ∧ callbacksOf c tr = []) ∧
      Served (Cut c H) (s.conns c) (streamOf c H) (callbacksOf c tr) := by
  induction h with
  | init => exact ⟨fun _ => ⟨rfl, rfl⟩, .reading [] [] [] nofun rfl rfl (.inl rfl)⟩
  | @step tr H s s' a o h hok hs ih =>
    have hinv : Inv maxClients s := Inv.of_runs h.runs
    have hout := Outside.of_observed h
    have hstep := connStep_of_step hinv (fun hc => hout.callback (.inr hc)) hs c
    have hle := accepted_le_of_move (move_of_step hs)
    rw [streamOf_append, callbacksOf_append]
    refine ⟨fun hc => ?_, (ih.2.mono fun hcut => hcut.append _).step hstep ?_ ?_ ?_⟩
    · obtain ⟨hst, hcbs⟩ := ih.1 (hle.trans hc)
      obtain ⟨hbs, hnone⟩ := hstep.silent (hle.trans hc)
      rw [hst, hcbs, hbs, hnone]
      exact ⟨rfl, rfl⟩
    · intro hc hrun
      rw [← Bool.not_eq_true] at hrun
      rcases hout.running.resolve_left hrun with hstop | ⟨-, hzero⟩
      · exact .inr (List.mem_append_left _ hstop)
      · omega
    · exact fun hr => .inl (List.mem_append_right _ hr)
    · exact fun hc => ih.1 hc.ge

/-- Nothing more is to be read on a connection: its handler waits with all bytes read, or it has left its
loop. -/
def Conn.settled (x : Conn) : Prop := x.phase.receives = true ∧ x.inbox = [] ∨ x.phase.left = true

theorem Served.exists_frames {cut : Prop} {x : Conn} {out : List (IPCHeader × List Byte)}
    (h : Served cut x st out) : ∃ fs : List (List Byte), (∀ f ∈ fs, IsFrame f) ∧ fs.flatten <+: st ∧
      out = fs.map frameContents ∧ (x.settled → ¬ cut → NoFurther fs st) := by
  cases h with
  | reading fs part rest hfs hst hpart hrest =>
    refine ⟨fs, hfs, ⟨_, hst.symm⟩, rfl, fun hset hcut => ?_⟩
    rcases hset with ⟨hp, hin⟩ | hleft
    · rcases hrest with rfl | hrest
      · rw [hst, hin, List.append_nil]
        exact hpart.noFurther hp
      · exact absurd hrest.1 hcut
    · rw [not_left hpart] at hleft
      cases hleft
  | away fs hfs hst hleft hwhy =>
    refine ⟨fs, hfs, hst, rfl, fun _ hcut => ?_⟩
    rcases hwhy with hwhy | ⟨-, hno⟩ | ⟨bad, hbad, hpre⟩
    · exact absurd hwhy hcut
    · exact hno
    · exact hbad.noFurther hpre

/-- In every run of a server with a callback, the callback has been called on behalf of a connection with
the frames at the start of the stream of this connection, in order and each once; and when nothing more
is to be read there, with all frames of the stream up to the first place where there is none, unless
the peer has reset the connection or `stop` was called. -/
theorem callbacks_are_frames (h : (machine maxClients).Observed WithCallback inputs tr H s) (c : Nat) :
    ∃ fs : List (List Byte), (∀ f ∈ fs, IsFrame f) ∧ fs.flatten <+: streamOf c H ∧
      callbacksOf c tr = fs.map frameContents ∧
      ((s.conns c).settled → ¬ Cut c H → ∀ f, IsFrame f → ¬ fs.flatten ++ f <+: streamOf c H) :=
  (served_of_observed h c).2.exists_frames

/-- A test for `WithCallback`. -/
def startsWithCallback (_ : Server) : Act → Bool
  | .start cb => cb
  | _ => true

theorem withCallback_of_test (tr : List Event) (s : Server) (a : Act) (h : startsWithCallback s a = true) :
    WithCallback tr s a := by
  cases a with
  | start cb => exact h
  | _ => trivial

/-- Two clients at once: one sends a message in two pieces, the other a length that is too small. -/
theorem callbacks_are_frames_two : ∃ (tr : List Event) (H : List Input) (fs gs : List (List Byte)),
    streamOf 0 H = frame (new .default (some fun _ => 5) 1) ∧ streamOf 1 H = [9, 0, 0, 0] ∧
      callbacksOf 0 tr = fs.map frameContents ∧ (callbacksOf 0 tr).map Prod.snd = [[5]] ∧
      callbacksOf 1 tr = gs.map frameContents ∧ (callbacksOf 1 tr).map Prod.snd = [] ∧
      (∀ f, IsFrame f → ¬ fs.flatten ++ f <+: streamOf 0 H) ∧
      ∀ f, IsFrame f → ¬ gs.flatten ++ f <+: streamOf 1 H := by
  let m : IPCMessage := new .default (some fun _ => 5) 1
  let acts : List Act := listenActs ++ connectActs 4 ++ [.acc .ok, .acc .ok] ++ connectActs 5 ++
    [.send 0 ((frame m).take 3), .send 1 [9, 0, 0, 0], .handler 0 0, .handler 0 2, .handler 1 0,
      .handler 1 4, .handler 0 1, .send 0 ((frame m).drop 3), .handler 0 1, .handler 1 0,
      .handler 0 65, .handler 0 0, .handler 0 0]
  let H : List Input := [.bytes 0 ((frame m).take 3), .bytes 1 [9, 0, 0, 0], .bytes 0 ((frame m).drop 3)]
  have hexec : (((machine 8).restrict startsWithCallback).watch inputs (machine 8).init acts).map
      (fun r => (r.2.1, (callbacksOf 0 r.1).map Prod.snd, (callbacksOf 1 r.1).map Prod.snd,
        (r.2.2.conns 0).phase.receives && (r.2.2.conns 0).inbox.isEmpty && (r.2.2.conns 1).phase.left)) =
      some (H, [[5]], [], true) := by
    decide +kernel
  obtain ⟨tr, H', s, hrun, hend⟩ := exists_of_watch_restrict WithCallback withCallback_of_test hexec
  simp only [Prod.mk.injEq, Bool.and_eq_true, List.isEmpty_iff] at hend
  obtain ⟨rfl, h0, h1, ⟨hrecv, hin⟩, hleft⟩ := hend
  obtain ⟨fs, -, -, hfs, hmax⟩ := callbacks_are_frames hrun 0
  obtain ⟨gs, -, -, hgs, hmax'⟩ := callbacks_are_frames hrun 1
  have hcut : ∀ c, ¬ Cut c H := fun c => by simp [Cut, H]
  exact ⟨tr, H, fs, gs, by decide +kernel, by decide +kernel, hfs, h0, hgs, h1,
    hmax (.inl ⟨hrecv, hin⟩) (hcut 0), hmax' (.inr hleft) (hcut 1)⟩

end Lwipc.SocketServer
