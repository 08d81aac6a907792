import Lwipc.Lib.Runs
import Lwipc.Lib.Linked
import Lwipc.Lib.Word

/-!
# `ObjectPool`: a free list with a tagged head

The free list is linked through `next_` and its head packs an index (16 bits) with a tag (48 bits)
that every successful CAS increments. Every access of `acquire`, `release` and `available` to
`head_` or `next_` is one step of the thread that makes it; calling one of them is its load of
`head_`. A pointer is its byte offset in `storage_`, and a thread may release only a pointer that
`acquire` returned to it.
-/

namespace Lwipc.ObjectPool

/-- The template arguments: the number of slots and the size of one. -/
structure Params where
  capacity : Nat
  ge_one : 1 ≤ capacity
  le : capacity ≤ 65535
  pow2 : capacity &&& (capacity - 1) = 0
  kSlotSize : Nat
  size_pos : 0 < kSlotSize

/-- Two slots of eight bytes. -/
def Params.two : Params := ⟨2, by decide, by decide, Capacity.two.pow2, 8, by decide⟩

def kNullIndex : Nat := 0xFFFF

/-- Bits 63 to 16 are the tag, bits 15 to 0 the index. -/
def pack (idx tag : Nat) : Nat := ((tag <<< 16) % 2 ^ 64) ||| idx

def indexOf (v : Nat) : Nat := v &&& 0xFFFF

def tagOf (v : Nat) : Nat := v >>> 16

/-- The address of a slot, relative to `storage_`. -/
def Params.ptr (c : Params) (idx : Nat) : Nat := idx * c.kSlotSize

def Params.indexOfPtr (c : Params) (p : Nat) : Nat := p / c.kSlotSize % 2 ^ 16

/-- The shared memory of a pool. -/
structure Pool where
  head : Nat
  next : Nat → Nat

/-- The constructor links slot 0 to 1 and so on, the last one to `kNullIndex`. -/
def Pool.init (c : Params) : Pool where
  head := pack 0 0
  next i := if i + 1 < c.capacity then i + 1 else kNullIndex

/-- Where a thread stands: before the read of `next_[idx]` or the CAS of `acquire`, at its return,
before the write of `next_[idx]` or the CAS of `release`, before the next read of `available`, or at
its return. -/
inductive Pc
  | idle
  | acqNext (oldHead : Nat)
  | acqCas (oldHead next : Nat)
  | acquired (p : Option Nat)
  | relNext (p oldHead : Nat)
  | relCas (p oldHead : Nat)
  | walk (idx count : Nat)
  | counted (count : Nat)
  deriving DecidableEq

structure State (τ : Type) where
  pool : Pool
  pc : τ → Pc
  /-- the pointers returned to a thread by `acquire` and not passed to `release` since -/
  held : τ → List Nat

inductive Act (τ : Type)
  | acquire (t : τ)
  | release (t : τ) (p : Nat)
  | available (t : τ)
  /-- the next access, or the return -/
  | run (t : τ)
  /-- a CAS that fails although the comparison holds -/
  | spurious (t : τ)

inductive Event (τ : Type)
  /-- a load of `head_`, or a failed CAS on it -/
  | read (t : τ)
  /-- a successful CAS on `head_` -/
  | cas (t : τ)

variable {τ : Type} [DecidableEq τ]

def State.setPc (s : State τ) (t : τ) (pc : Pc) : State τ :=
  { s with pc := Function.update s.pc t pc }

def State.setHead (s : State τ) (v : Nat) : State τ := { s with pool := ⟨v, s.pool.next⟩ }

def State.setNext (s : State τ) (idx v : Nat) : State τ :=
  { s with pool := ⟨s.pool.head, Function.update s.pool.next idx v⟩ }

def State.setHeld (s : State τ) (t : τ) (l : List Nat) : State τ :=
  { s with held := Function.update s.held t l }

def init (c : Params) : State τ := ⟨Pool.init c, fun _ => .idle, fun _ => []⟩

/-- `acquire` with a fresh value of `head_`. -/
def acqLoop (oldHead : Nat) : Pc :=
  if indexOf oldHead = kNullIndex then .acquired none else .acqNext oldHead

/-- The loop test of `available`. -/
def walkLoop (c : Params) (idx count : Nat) : Pc :=
  if idx ≠ kNullIndex ∧ count ≤ c.capacity then .walk idx count else .counted count

/-- The next access of a thread, by where it stands. -/
def runStep (c : Params) (s : State τ) (t : τ) : Pc → Option (State τ × List (Event τ))
  | .idle => none
  | .acqNext old => some (s.setPc t (.acqCas old (s.pool.next (indexOf old))), [])
  | .acqCas old nxt =>
    if s.pool.head = old then
      some ((s.setHead (pack nxt (u64 (tagOf old + 1)))).setPc t
        (.acquired (some (c.ptr (indexOf old)))), [.cas t])
    else some (s.setPc t (acqLoop s.pool.head), [.read t])
  | .acquired none => some (s.setPc t .idle, [])
  | .acquired (some p) => some ((s.setPc t .idle).setHeld t (p :: s.held t), [])
  | .relNext p old =>
    some ((s.setNext (c.indexOfPtr p) (indexOf old)).setPc t (.relCas p old), [])
  | .relCas p old =>
    if s.pool.head = old then
      some ((s.setHead (pack (c.indexOfPtr p) (u64 (tagOf old + 1)))).setPc t .idle, [.cas t])
    else some (s.setPc t (.relNext p s.pool.head), [.read t])
  | .walk idx count => some (s.setPc t (walkLoop c (s.pool.next idx) (count + 1)), [])
  | .counted _ => some (s.setPc t .idle, [])

def step (c : Params) (s : State τ) : Act τ → Option (State τ × List (Event τ))
  | .acquire t =>
    match s.pc t with
    | .idle => some (s.setPc t (acqLoop s.pool.head), [.read t])
    | _ => none
  | .release t p =>
    match s.pc t with
    | .idle =>
      if p ∈ s.held t then
        some ((s.setPc t (.relNext p s.pool.head)).setHeld t ((s.held t).erase p), [.read t])
      else none
    | _ => none
  | .available t =>
    match s.pc t with
    | .idle => some (s.setPc t (walkLoop c (indexOf s.pool.head) 0), [.read t])
    | _ => none
  | .run t => runStep c s t (s.pc t)
  | .spurious t =>
    match s.pc t with
    | .acqCas _ _ => some (s.setPc t (acqLoop s.pool.head), [.read t])
    | .relCas p _ => some (s.setPc t (.relNext p s.pool.head), [.read t])
    | _ => none

def machine (c : Params) : Machine (State τ) (Act τ) (Event τ) := ⟨init c, step c⟩

/-- The successful CASes of a history. -/
def casCount (tr : List (Event τ)) : Nat := tr.countP fun | .cas _ => true | .read _ => false

/-- The successful CASes since `t` last read `head_`. -/
def since (t : τ) : List (Event τ) → Nat :=
  List.foldl (fun k e => match e with
    | .read t' => if t' = t then 0 else k
    | .cas _ => k + 1) 0

/-- A thread at its CAS has read `head_` fewer than `2 ^ 48` successful CASes ago. -/
def Timely (tr : List (Event τ)) (s : State τ) : Act τ → Prop
  | .run t =>
    match s.pc t with
    | .acqCas _ _ | .relCas _ _ => since t tr < 2 ^ 48
    | _ => True
  | _ => True

/-- The pointer a call is about to return, or has been given to release. -/
def Pc.ptr : Pc → Option Nat
  | .acquired p => p
  | .relNext p _ | .relCas p _ => some p
  | _ => none

/-- The pointers of a thread, those inside a call included. -/
def State.owned (s : State τ) (t : τ) : List Nat := (s.pc t).ptr.toList ++ s.held t

/-- Some thread owns the slot. -/
def State.Held (c : Params) (s : State τ) (idx : Nat) : Prop := ∃ t, c.ptr idx ∈ s.owned t

end Lwipc.ObjectPool
