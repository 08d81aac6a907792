import Lwipc.ShmRingBuffer
import Lwipc.IPCMessage
import Lwipc.LoanedSample

/-!
# The shared-memory channel: `Publisher` and `Subscriber`

One publisher, driven by one thread, and any number of subscribers, each with any number of cursors,
every cursor used by one call of `try_receive` at a time. The payload type is its object
representation, and the ring carries the bytes of `Publisher::Slot`. Besides the accesses to the
ring, the `fetch_add`s, the load and the store of the subscriber's statistics are steps of their own.
The clock is read by the steps that carry `now`; the arithmetic on `double` is a parameter.
-/

namespace Lwipc.Channel

open LittleEndian SpmcRing

/-- Where `T` lies in `Publisher<T>::Slot`: behind the header, possibly after and before padding. -/
structure Layout where
  /-- `sizeof(T)` -/
  size : Nat
  size_lt : size < 2 ^ 32
  offset : Nat
  header_le : 64 ≤ offset
  /-- `sizeof(Slot)` -/
  slotSize : Nat
  fits : offset + size ≤ slotSize

namespace Layout

variable (lay : Layout)

/-- The object representation of a `T`. -/
abbrev Item := Fin lay.size → Byte

/-- The object representation of a `Slot`. -/
abbrev Rep := Fin lay.slotSize → Byte

variable {lay}

/-- The slot with these members, its padding zero. -/
def encode (h : IPCHeader) (item : lay.Item) : lay.Rep := fun i =>
  if hi : lay.offset ≤ i.val ∧ i.val < lay.offset + lay.size then item ⟨i.val - lay.offset, by omega⟩
  else h.toBytes.getD i.val 0

def header (slot : lay.Rep) : IPCHeader := IPCHeader.ofBytes (List.ofFn slot)

def payload (slot : lay.Rep) : lay.Item := fun i =>
  slot ⟨lay.offset + i.val, by have := lay.fits; omega⟩

theorem payload_encode (h : IPCHeader) (item : lay.Item) : payload (encode h item) = item := by
  funext i
  unfold payload encode
  rw [dif_pos ⟨Nat.le_add_right _ _, by simp⟩]
  simp

theorem header_encode (h : IPCHeader) (item : lay.Item) : header (encode h item) = h := by
  have hoff := lay.header_le
  have hfits := lay.fits
  have htake : (List.ofFn (encode h item)).take 64 = h.toBytes := by
    refine List.ext_getElem (by simp; omega) fun k h1 h2 => ?_
    rw [IPCHeader.length_toBytes] at h2
    rw [List.getElem_take, List.getElem_ofFn]
    unfold encode
    rw [dif_neg (by simp only; omega), List.getD_eq_getElem _ _ (by simpa using h2)]
  unfold header
  rw [← List.take_append_drop 64 (List.ofFn (encode h item)), htake]
  exact IPCHeader.ofBytes_append _ _

end Layout

/-- The publisher's constructor arguments, its place among the publishers whose loans the program
handles, the subscriber of each cursor, and the `double` arithmetic of the latency estimate. -/
structure Config (ι C S D : Type) where
  cap : Capacity
  lay : Layout
  msgType : BitVec 16
  sensorId : BitVec 16
  loans : LoanedSample.Config ι
  me : ι
  owner : C → S
  zero : D
  /-- `prev + (lat_us - prev) / 16` for a latency in nanoseconds -/
  smooth : D → Nat → D

/-- Where a call of `try_receive` stands: in `pop`, before one of the accesses to the statistics, or
outside. -/
inductive RecvPc (D : Type)
  | idle
  | popping
  | addDropped
  | addReceived
  | loadLatency (lat : Nat)
  | storeLatency (prev : D) (lat : Nat)
  deriving DecidableEq

/-- The call on a cursor: the local `pre_pos` and the objects its arguments refer to. -/
structure Call (lay : Layout) (D : Type) where
  prePos : Nat
  header : IPCHeader
  payload : lay.Item
  pc : RecvPc D

structure Stats (D : Type) where
  received : Nat
  dropped : Nat
  avgLatencyUs : D

/-- The local `slot` of `try_receive` is the object that the ring's `pop` copies into; `sequence_` of
the publisher is kept with its pool. -/
structure State (lay : Layout) (ι L C S D : Type) where
  ring : SpmcRing.State Unit C lay.slotSize Byte
  loans : LoanedSample.State ι L lay.Item
  /-- the loan that the `publish` in progress resets at its end -/
  resetting : Option L
  calls : C → Call lay D
  stats : S → Stats D

inductive Act (lay : Layout) (ι L C : Type)
  | publish (item : lay.Item) (now : BitVec 64)
  | publishAt (item : lay.Item) (timestampNs : BitVec 64)
  | publishLoan (l : L) (now : BitVec 64)
  /-- the next access of the push in progress -/
  | push (a : PushAct lay.slotSize Byte)
  /-- `loan_sample.reset()` at the end of `publish` -/
  | reset
  /-- an operation on loans outside `publish` -/
  | loans (a : LoanedSample.Act ι L lay.Item)
  | makeCursor (c : C)
  | tryReceive (c : C) (header : IPCHeader) (payload : lay.Item)
  | check (c : C)
  | read (c : C) (i : Fin lay.slotSize)
  | recheck (c : C)
  /-- the return from `pop` -/
  | popped (c : C)
  | addDropped (c : C)
  | addReceived (c : C) (now : BitVec 64)
  | loadLatency (c : C)
  | storeLatency (c : C)

inductive Event (lay : Layout) (ι C : Type)
  | ring (e : SpmcRing.Event Unit C lay.slotSize Byte)
  | loans (e : LoanedSample.Event ι lay.Item)
  /-- a `publish` of this item with this timestamp reached the ring -/
  | publish (item : lay.Item) (timestampNs : BitVec 64)
  /-- `try_receive` returned, leaving the cursor at `pos` -/
  | ret (c : C) (ok : Bool) (pos : Nat) (header : IPCHeader) (payload : lay.Item)
  deriving DecidableEq

/-- The object `SlotType slot{}` of `try_receive`. -/
def emptySlot (lay : Layout) : lay.Rep := Layout.encode .default fun _ => 0

section
variable {ι L C S D : Type}

def init (cfg : Config ι C S D) : State cfg.lay ι L C S D where
  ring := SpmcRing.init
  loans := LoanedSample.init cfg.loans
  resetting := none
  calls _ := ⟨0, .default, fun _ => 0, .idle⟩
  stats _ := ⟨0, 0, cfg.zero⟩

/-- The header that both overloads of `publish` fill in. -/
def headerOf (cfg : Config ι C S D) (sequence : Nat) (item : cfg.lay.Item) (timestampNs : BitVec 64) :
    IPCHeader :=
  { IPCHeader.default with
    msgType := cfg.msgType
    sensorId := cfg.sensorId
    timestampNs
    sequence := BitVec.ofNat 64 sequence
    dataLength := BitVec.ofNat 32 cfg.lay.size
    checksum := crc32Update 0 (List.ofFn item) }

def slotOf (cfg : Config ι C S D) (sequence : Nat) (item : cfg.lay.Item) (timestampNs : BitVec 64) :
    cfg.lay.Rep :=
  Layout.encode (headerOf cfg sequence item timestampNs) item

variable {cfg : Config ι C S D} [DecidableEq ι] [DecidableEq L] [DecidableEq C] [DecidableEq S]

def State.setCall (s : State cfg.lay ι L C S D) (c : C) (x : Call cfg.lay D) :
    State cfg.lay ι L C S D :=
  { s with calls := Function.update s.calls c x }

def State.setStats (s : State cfg.lay ι L C S D) (σ : S) (x : Stats D) : State cfg.lay ι L C S D :=
  { s with stats := Function.update s.stats σ x }

def State.setPc (s : State cfg.lay ι L C S D) (c : C) (pc : RecvPc D) : State cfg.lay ι L C S D :=
  s.setCall c { s.calls c with pc }

/-- `header = slot.header; payload = slot.payload`. -/
def State.assign (s : State cfg.lay ι L C S D) (c : C) : State cfg.lay ι L C S D :=
  s.setCall c ⟨(s.calls c).prePos, Layout.header (s.ring.cons c).out,
    Layout.payload (s.ring.cons c).out, .addReceived⟩

/-- The return of `try_receive`. -/
def State.returned (s : State cfg.lay ι L C S D) (c : C) (ok : Bool) : Event cfg.lay ι C :=
  .ret c ok (s.ring.cons c).pos (s.calls c).header (s.calls c).payload

def ringStep (s : State cfg.lay ι L C S D) (a : SpmcRing.Act Unit C cfg.lay.slotSize Byte) :
    Option (State cfg.lay ι L C S D × List (Event cfg.lay ι C)) :=
  (SpmcRing.step true cfg.cap s.ring a).map fun (r, o) => ({ s with ring := r }, o.map .ring)

/-- Either overload of `publish`, up to the `fetch_add` of `push`; `l` is the loan it was called
for. -/
def publishItem (s : State cfg.lay ι L C S D) (item : cfg.lay.Item) (timestampNs : BitVec 64)
    (l : Option L) : Option (State cfg.lay ι L C S D × List (Event cfg.lay ι C)) :=
  if s.resetting.isNone then
    (ringStep s (.prod () (.push
      (slotOf cfg (u64 (s.loans.sequence cfg.me + 1)) item timestampNs)))).map fun (s', o) =>
        ({ s' with loans := LoanedSample.push s'.loans cfg.me, resetting := l },
          .publish item timestampNs :: o)
  else none

/-- Whether the publisher's thread is outside `publish`. -/
def State.free (s : State cfg.lay ι L C S D) : Bool :=
  s.resetting.isNone && (s.ring.prod () matches .idle)

/-- An operation on loans, other than a `publish` on this publisher. -/
def loansStep (s : State cfg.lay ι L C S D) (a : LoanedSample.Act ι L cfg.lay.Item) :
    Option (State cfg.lay ι L C S D × List (Event cfg.lay ι C)) :=
  (LoanedSample.step cfg.loans s.loans a).map fun (x, o) => ({ s with loans := x }, o.map .loans)

def step (s : State cfg.lay ι L C S D) :
    Act cfg.lay ι L C → Option (State cfg.lay ι L C S D × List (Event cfg.lay ι C))
  | .publish item now => publishItem s item now none
  | .publishAt item timestampNs => publishItem s item timestampNs none
  | .publishLoan l now =>
    match s.loans.samples l with
    | none => none
    | some ⟨none, _⟩ => if s.free then some (s, []) else none
    | some ⟨some p, _⟩ => publishItem s (s.loans.storage p) now (some l)
  | .push (.push _) => none
  | .push a => ringStep s (.prod () a)
  | .reset =>
    match s.resetting, s.ring.prod () with
    | some l, .idle =>
      (loansStep s (.reset l)).map fun (s', o) => ({ s' with resetting := none }, o)
    | _, _ => none
  | .loans (.publish i l) =>
    if s.free ∧ i ≠ cfg.me then loansStep s (.publish i l) else none
  | .loans a => if s.free then loansStep s a else none
  | .makeCursor c => ringStep s (.cons c .makeCursor)
  | .tryReceive c header payload =>
    match (s.calls c).pc with
    | .idle =>
      (ringStep s (.cons c (.pop (emptySlot cfg.lay)))).map fun (s', o) =>
        (s'.setCall c ⟨(s.ring.cons c).pos, header, payload, .popping⟩, o)
    | _ => none
  | .check c => ringStep s (.cons c .check)
  | .read c i => ringStep s (.cons c (.read i))
  | .recheck c => ringStep s (.cons c .recheck)
  | .popped c =>
    (ringStep s (.cons c .ret)).map fun (s', o) =>
      match (s.ring.cons c).pc with
      | .ret true =>
        if (s.ring.cons c).pos > u64 ((s.calls c).prePos + 1) then (s'.setPc c .addDropped, o)
        else (s'.assign c, o)
      | _ => (s'.setPc c .idle, o ++ [s.returned c false])
  | .addDropped c =>
    match (s.calls c).pc with
    | .addDropped =>
      let st := s.stats (cfg.owner c)
      some ((s.setStats (cfg.owner c)
        { st with
          dropped := u64 (st.dropped + ((s.ring.cons c).pos - (s.calls c).prePos - 1)) }).assign c, [])
    | _ => none
  | .addReceived c now =>
    match (s.calls c).pc with
    | .addReceived =>
      let st := s.stats (cfg.owner c)
      let s' := s.setStats (cfg.owner c) { st with received := u64 (st.received + 1) }
      let ts := (s.calls c).header.timestampNs.toNat
      if ts > 0 ∧ now.toNat ≥ ts then some (s'.setPc c (.loadLatency (now.toNat - ts)), [])
      else some (s'.setPc c .idle, [s.returned c true])
    | _ => none
  | .loadLatency c =>
    match (s.calls c).pc with
    | .loadLatency lat =>
      some (s.setPc c (.storeLatency (s.stats (cfg.owner c)).avgLatencyUs lat), [])
    | _ => none
  | .storeLatency c =>
    match (s.calls c).pc with
    | .storeLatency prev lat =>
      let st := s.stats (cfg.owner c)
      some ((s.setStats (cfg.owner c) { st with avgLatencyUs := cfg.smooth prev lat }).setPc c .idle,
        [s.returned c true])
    | _ => none

def machine (cfg : Config ι C S D) :
    Machine (State cfg.lay ι L C S D) (Act cfg.lay ι L C) (Event cfg.lay ι C) :=
  ⟨init cfg, step⟩

end

end Lwipc.Channel
