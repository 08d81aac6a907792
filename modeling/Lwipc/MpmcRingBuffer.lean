import Lwipc.Lib.Runs
import Lwipc.Lib.Word
import Mathlib.Logic.Function.Basic

/-!
# `MpmcRingBuffer`: one step per atomic access

The ring of `mpmc_ring_buffer.hpp` as a machine. Every call of `push`, `pop` or `approx_size` has an
identity `i : ι` and a program counter; a thread is the sequence of its calls, so a run in which any
calls may overlap covers every number of threads. `run i` performs the next access of call `i`, and
`spurious i` is a `compare_exchange_weak` that fails whatever the counter holds. The code between
two accesses touches only the locals of the call and is part of the step before it.
-/

namespace Lwipc.MpmcRingBuffer

structure Slot (α : Type) where
  sequence : Nat
  data : α

/-- Where a `push` stands: the access it performs next, with its local `pos`. -/
inductive PushPc
  | loadPos
  | loadSeq (pos : Nat)
  | cas (pos : Nat)
  | reload (pos : Nat)
  | copy (pos : Nat)
  | store (pos : Nat)
  | done (ok : Bool)
  deriving DecidableEq

/-- Where a `pop` stands; `done none` is `return false`. -/
inductive PopPc (α : Type)
  | loadPos
  | loadSeq (pos : Nat)
  | cas (pos : Nat)
  | reload (pos : Nat)
  | copy (pos : Nat)
  | store (pos : Nat) (out : α)
  | done (out : Option α)
  deriving DecidableEq

/-- Where an `approx_size` stands. -/
inductive SizePc
  | loadWrite
  | loadRead (w : Nat)
  | done (size : Nat)
  deriving DecidableEq

inductive Call (α : Type)
  | idle
  | push (item : α) (pc : PushPc)
  | pop (pc : PopPc α)
  | size (pc : SizePc)
  deriving DecidableEq

structure State (ι α : Type) where
  writePos : Nat
  readPos : Nat
  slots : Nat → Slot α
  calls : ι → Call α

inductive Act (ι α : Type)
  | callPush (i : ι) (item : α)
  | callPop (i : ι)
  | callSize (i : ι)
  | run (i : ι)
  | spurious (i : ι)

/-- The successful `compare_exchange_weak` calls on the two counters. -/
inductive Event (ι α : Type)
  | pushed (i : ι) (pos : Nat) (item : α)
  | popped (i : ι) (pos : Nat)

variable {ι α : Type} [DecidableEq ι]

namespace State

def setCall (s : State ι α) (i : ι) (c : Call α) : State ι α :=
  { s with calls := Function.update s.calls i c }

def setSlot (s : State ι α) (x : Nat) (f : Slot α → Slot α) : State ι α :=
  { s with slots := Function.update s.slots x (f (s.slots x)) }

variable (s : State ι α) (i : ι) (c : Call α) (x : Nat) (f : Slot α → Slot α)

@[simp] theorem setCall_writePos : (s.setCall i c).writePos = s.writePos := rfl
@[simp] theorem setCall_readPos : (s.setCall i c).readPos = s.readPos := rfl
@[simp] theorem setCall_slots : (s.setCall i c).slots = s.slots := rfl
@[simp] theorem setCall_calls : (s.setCall i c).calls = Function.update s.calls i c := rfl
omit [DecidableEq ι] in
@[simp] theorem setSlot_writePos : (s.setSlot x f).writePos = s.writePos := rfl
omit [DecidableEq ι] in
@[simp] theorem setSlot_readPos : (s.setSlot x f).readPos = s.readPos := rfl
omit [DecidableEq ι] in
@[simp] theorem setSlot_slots :
    (s.setSlot x f).slots = Function.update s.slots x (f (s.slots x)) := rfl
omit [DecidableEq ι] in
@[simp] theorem setSlot_calls : (s.setSlot x f).calls = s.calls := rfl

end State

/-- The constructor: slot `i` is pre-seeded with sequence `i`. -/
def init [Inhabited α] : State ι α where
  writePos := 0
  readPos := 0
  slots x := ⟨u64 x, default⟩
  calls _ := .idle

/-- `static_cast<int64_t>(seq) - static_cast<int64_t>(pos)`. -/
def diff (seq pos : Nat) : Int := s64 (s64 seq - s64 pos)

/-- The next access of call `i`, a `push` of `item`. -/
def pushStep (cap : Capacity) (s : State ι α) (i : ι) (item : α) :
    PushPc → Option (State ι α × List (Event ι α))
  | .loadPos | .reload _ => some (s.setCall i (.push item (.loadSeq s.writePos)), [])
  | .loadSeq pos =>
    let d := diff (s.slots (cap.slot pos)).sequence pos
    if d = 0 then some (s.setCall i (.push item (.cas pos)), [])
    else if d < 0 then some (s.setCall i (.push item (.done false)), [])
    else some (s.setCall i (.push item (.reload pos)), [])
  | .cas pos =>
    if s.writePos = pos then
      some (State.setCall { s with writePos := u64 (pos + 1) } i (.push item (.copy pos)),
        [.pushed i pos item])
    else some (s.setCall i (.push item (.loadSeq s.writePos)), [])
  | .copy pos =>
    some ((s.setSlot (cap.slot pos) fun x => { x with data := item }).setCall i
      (.push item (.store pos)), [])
  | .store pos =>
    some ((s.setSlot (cap.slot pos) fun x => { x with sequence := u64 (pos + 1) }).setCall i
      (.push item (.done true)), [])
  | .done _ => none

/-- The next access of call `i`, a `pop`. -/
def popStep (cap : Capacity) (s : State ι α) (i : ι) :
    PopPc α → Option (State ι α × List (Event ι α))
  | .loadPos | .reload _ => some (s.setCall i (.pop (.loadSeq s.readPos)), [])
  | .loadSeq pos =>
    let d := diff (s.slots (cap.slot pos)).sequence (u64 (pos + 1))
    if d = 0 then some (s.setCall i (.pop (.cas pos)), [])
    else if d < 0 then some (s.setCall i (.pop (.done none)), [])
    else some (s.setCall i (.pop (.reload pos)), [])
  | .cas pos =>
    if s.readPos = pos then
      some (State.setCall { s with readPos := u64 (pos + 1) } i (.pop (.copy pos)), [.popped i pos])
    else some (s.setCall i (.pop (.loadSeq s.readPos)), [])
  | .copy pos => some (s.setCall i (.pop (.store pos (s.slots (cap.slot pos)).data)), [])
  | .store pos out =>
    some ((s.setSlot (cap.slot pos) fun x => { x with sequence := u64 (pos + cap.val) }).setCall i
      (.pop (.done (some out))), [])
  | .done _ => none

/-- The next access of call `i`, an `approx_size`. -/
def sizeStep (s : State ι α) (i : ι) : SizePc → Option (State ι α × List (Event ι α))
  | .loadWrite => some (s.setCall i (.size (.loadRead s.writePos)), [])
  | .loadRead w =>
    some (s.setCall i (.size (.done (if w ≥ s.readPos then w - s.readPos else 0))), [])
  | .done _ => none

def step (cap : Capacity) (s : State ι α) : Act ι α → Option (State ι α × List (Event ι α))
  | .callPush i item =>
    match s.calls i with
    | .idle => some (s.setCall i (.push item .loadPos), [])
    | _ => none
  | .callPop i =>
    match s.calls i with
    | .idle => some (s.setCall i (.pop .loadPos), [])
    | _ => none
  | .callSize i =>
    match s.calls i with
    | .idle => some (s.setCall i (.size .loadWrite), [])
    | _ => none
  | .run i =>
    match s.calls i with
    | .idle => none
    | .push item pc => pushStep cap s i item pc
    | .pop pc => popStep cap s i pc
    | .size pc => sizeStep s i pc
  | .spurious i =>
    -- the failed exchange leaves the value it saw in `pos`
    match s.calls i with
    | .push item (.cas _) => some (s.setCall i (.push item (.loadSeq s.writePos)), [])
    | .pop (.cas _) => some (s.setCall i (.pop (.loadSeq s.readPos)), [])
    | _ => none

/-- The ring as a machine. -/
def machine [Inhabited α] (cap : Capacity) : Machine (State ι α) (Act ι α) (Event ι α) :=
  ⟨init, step cap⟩

/-- The calls that made the successful exchanges on `write_pos_`, in order, with their items. -/
def pushes (tr : List (Event ι α)) : List (ι × α) :=
  tr.filterMap fun | .pushed i _ item => some (i, item) | .popped .. => none

/-- The calls that made the successful exchanges on `read_pos_`, in order. -/
def pops (tr : List (Event ι α)) : List ι :=
  tr.filterMap fun | .pushed .. => none | .popped i _ => some i

/-- The positions the pushes claimed, in order. -/
def pushPositions (tr : List (Event ι α)) : List Nat :=
  tr.filterMap fun | .pushed _ pos _ => some pos | .popped .. => none

/-- The positions the pops claimed, in order. -/
def popPositions (tr : List (Event ι α)) : List Nat :=
  tr.filterMap fun | .pushed .. => none | .popped _ pos => some pos

section
omit [DecidableEq ι]
variable (tr tr' : List (Event ι α)) (i : ι) (pos : Nat) (item : α)

@[simp] theorem pushes_append : pushes (tr ++ tr') = pushes tr ++ pushes tr' := List.filterMap_append
@[simp] theorem pops_append : pops (tr ++ tr') = pops tr ++ pops tr' := List.filterMap_append
@[simp] theorem pushPositions_append :
    pushPositions (tr ++ tr') = pushPositions tr ++ pushPositions tr' := List.filterMap_append
@[simp] theorem popPositions_append :
    popPositions (tr ++ tr') = popPositions tr ++ popPositions tr' := List.filterMap_append
@[simp] theorem pushes_pushed : pushes [Event.pushed i pos item] = [(i, item)] := rfl
@[simp] theorem pushes_popped : pushes [(Event.popped i pos : Event ι α)] = [] := rfl
@[simp] theorem pops_pushed : pops [Event.pushed i pos item] = [] := rfl
@[simp] theorem pops_popped : pops [(Event.popped i pos : Event ι α)] = [i] := rfl
@[simp] theorem pushPositions_pushed : pushPositions [Event.pushed i pos item] = [pos] := rfl
@[simp] theorem pushPositions_popped : pushPositions [(Event.popped i pos : Event ι α)] = [] := rfl
@[simp] theorem popPositions_pushed : popPositions [Event.pushed i pos item] = [] := rfl
@[simp] theorem popPositions_popped : popPositions [(Event.popped i pos : Event ι α)] = [pos] := rfl

end

end Lwipc.MpmcRingBuffer
