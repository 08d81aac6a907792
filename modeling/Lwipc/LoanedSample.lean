import Lwipc.ObjectPool

/-!
# `LoanedSample`, `loan` and `publish` of a loan

Publishers of both kinds, each with its pool, and the `LoanedSample` objects of a program that one
thread runs. A pool used by one thread has its compare-exchanges succeed at once, a spurious failure
changing nothing, so `acquire`, `release` and `available` are functions here (`exec_acquire` and
`exec_release` connect them with the accesses). A pointer carries the pool whose storage it points
into; `ObjectPool::release` does not look at that, and its calls are shown as events so that it can
be asked whether they were legal.
-/

namespace Lwipc.ObjectPool.Pool

/-- `acquire`, the pointer returned and the pool it leaves. -/
def acquire (c : Params) (pool : Pool) : Option Nat × Pool :=
  if indexOf pool.head = kNullIndex then (none, pool)
  else
    (some (c.ptr (indexOf pool.head)),
      ⟨pack (pool.next (indexOf pool.head)) (u64 (tagOf pool.head + 1)), pool.next⟩)

def release (c : Params) (pool : Pool) (p : Nat) : Pool :=
  ⟨pack (c.indexOfPtr p) (u64 (tagOf pool.head + 1)),
    Function.update pool.next (c.indexOfPtr p) (indexOf pool.head)⟩

/-- The loop of `available` with `fuel` iterations left by the test `count <= Capacity`. -/
def availableLoop (pool : Pool) : Nat → Nat → Nat → Nat
  | 0, _, count => count
  | fuel + 1, idx, count =>
    if idx = kNullIndex then count else pool.availableLoop fuel (pool.next idx) (count + 1)

def available (c : Params) (pool : Pool) : Nat :=
  pool.availableLoop (c.capacity + 1) (indexOf pool.head) 0

end Lwipc.ObjectPool.Pool

namespace Lwipc

/-- A `T*` into the storage of a pool. -/
structure Ptr (ι : Type) where
  pool : ι
  offset : Nat
  deriving DecidableEq

/-- The members `ptr_` and `pool_`, `none` being null. -/
structure LoanedSample (ι : Type) where
  ptr : Option (Ptr ι)
  pool : Option ι
  deriving DecidableEq

namespace LoanedSample

/-- Default-constructed, or moved from. -/
def empty {ι : Type} : LoanedSample ι := ⟨none, none⟩

inductive Kind
  | publisher
  | intraPublisher
  deriving DecidableEq

/-- The publishers of a program: of which class each is, and its pool. -/
structure Config (ι : Type) where
  kind : ι → Kind
  pool : ι → ObjectPool.Params

/-- `samples l` is `none` while there is no object `l`; `escaped` are the results of `release_raw`
that have not been given back. -/
structure State (ι L T : Type) where
  pools : ι → ObjectPool.Pool
  storage : Ptr ι → T
  sequence : ι → Nat
  poolExhaustions : ι → Nat
  samples : L → Option (LoanedSample ι)
  escaped : List (Ptr ι)

/-- What a program does with loans. A fresh object is made by `loan`, `construct` or
`moveConstruct`. -/
inductive Act (ι L T : Type)
  | loan (i : ι) (l : L)
  | construct (l : L)
  | moveConstruct (l other : L)
  | moveAssign (l other : L)
  | reset (l : L)
  | destroy (l : L)
  | releaseRaw (l : L)
  /-- `pool.release` of a pointer obtained by `release_raw` -/
  | giveBack (p : Ptr ι)
  /-- a write through `operator*` or `operator->` -/
  | fill (l : L) (item : T)
  | publish (i : ι) (l : L)

inductive Event (ι T : Type)
  /-- a call of `ObjectPool::release` on the pool of `i` -/
  | release (i : ι) (p : Ptr ι)
  /-- a push on the ring of `i` -/
  | push (i : ι) (item : T)
  deriving DecidableEq

variable {ι L T : Type}

def init [Inhabited T] (cfg : Config ι) : State ι L T where
  pools i := ObjectPool.Pool.init (cfg.pool i)
  storage _ := default
  sequence _ := 0
  poolExhaustions _ := 0
  samples _ := none
  escaped := []

section
variable [DecidableEq ι] [DecidableEq L]

def State.setSample (s : State ι L T) (l : L) (x : Option (LoanedSample ι)) : State ι L T :=
  { s with samples := Function.update s.samples l x }

/-- `pool_->release(ptr_)`. -/
def State.poolRelease (cfg : Config ι) (s : State ι L T) (i : ι) (p : Ptr ι) : State ι L T :=
  { s with pools := Function.update s.pools i ((s.pools i).release (cfg.pool i) p.offset) }

/-- `do_release` of object `l` with members `x`. -/
def doRelease (cfg : Config ι) (s : State ι L T) (l : L) (x : LoanedSample ι) :
    State ι L T × List (Event ι T) :=
  match x.ptr, x.pool with
  | some p, some i => ((s.poolRelease cfg i p).setSample l (some empty), [.release i p])
  | _, _ => (s.setSample l (some empty), [])

/-- `loan` of either class; only `Publisher` counts its failures. -/
def loan (cfg : Config ι) (s : State ι L T) (i : ι) (l : L) : State ι L T :=
  match (s.pools i).acquire (cfg.pool i) with
  | (some p, pool) =>
    State.setSample { s with pools := Function.update s.pools i pool } l (some ⟨some ⟨i, p⟩, some i⟩)
  | (none, pool) =>
    State.setSample
      { s with
        pools := Function.update s.pools i pool
        poolExhaustions :=
          if cfg.kind i = .publisher then
            Function.update s.poolExhaustions i (u64 (s.poolExhaustions i + 1))
          else s.poolExhaustions } l (some empty)

/-- Both classes push the item once and count it. -/
def push (s : State ι L T) (i : ι) : State ι L T :=
  { s with sequence := Function.update s.sequence i (u64 (s.sequence i + 1)) }

/-- `publish(LoanType&&)` on `i` of object `l` with members `x`. -/
def publish (cfg : Config ι) (s : State ι L T) (i : ι) (l : L) (x : LoanedSample ι) :
    State ι L T × List (Event ι T) :=
  match x.ptr with
  | none => (s, [])
  | some p =>
    ((doRelease cfg (push s i) l x).1, .push i (s.storage p) :: (doRelease cfg (push s i) l x).2)

def step (cfg : Config ι) (s : State ι L T) : Act ι L T → Option (State ι L T × List (Event ι T))
  | .loan i l => if s.samples l = none then some (loan cfg s i l, []) else none
  | .construct l => if s.samples l = none then some (s.setSample l (some empty), []) else none
  | .moveConstruct l other =>
    if s.samples l = none then
      (s.samples other).map fun y => ((s.setSample l (some y)).setSample other (some empty), [])
    else none
  | .moveAssign l other =>
    (s.samples l).bind fun x => (s.samples other).map fun y =>
      if l = other then (s, [])
      else
        (((doRelease cfg s l x).1.setSample l (some y)).setSample other (some empty),
          (doRelease cfg s l x).2)
  | .reset l => (s.samples l).map fun x => doRelease cfg s l x
  | .destroy l =>
    (s.samples l).map fun x => ((doRelease cfg s l x).1.setSample l none, (doRelease cfg s l x).2)
  | .releaseRaw l =>
    (s.samples l).map fun x =>
      (State.setSample { s with escaped := x.ptr.toList ++ s.escaped } l (some empty), [])
  | .giveBack p =>
    if p ∈ s.escaped then
      some (State.poolRelease cfg { s with escaped := s.escaped.erase p } p.pool p, [.release p.pool p])
    else none
  | .fill l item =>
    (s.samples l).bind fun x => x.ptr.map fun p =>
      ({ s with storage := Function.update s.storage p item }, [])
  | .publish i l => (s.samples l).map fun x => publish cfg s i l x

def machine [Inhabited T] (cfg : Config ι) : Machine (State ι L T) (Act ι L T) (Event ι T) :=
  ⟨init cfg, step cfg⟩

end

/-- The members of a loan of slot `idx` of the pool of `i`. -/
def Config.sample (cfg : Config ι) (i : ι) (idx : Nat) : LoanedSample ι :=
  ⟨some ⟨i, (cfg.pool i).ptr idx⟩, some i⟩

/-- Object `l` is a loan of slot `idx` of the pool of `i`. -/
def State.Holds (cfg : Config ι) (s : State ι L T) (l : L) (i : ι) (idx : Nat) : Prop :=
  s.samples l = some (cfg.sample i idx)

/-- The non-empty loans from the pool of `i`. -/
def State.loans (s : State ι L T) (i : ι) : Set L :=
  {l | ∃ x p, s.samples l = some x ∧ x.ptr = some p ∧ p.pool = i}

section
variable [DecidableEq ι] [DecidableEq L] {cfg : Config ι} {s s' : State ι L T}

@[simp] theorem doRelease_sequence (l : L) (x : LoanedSample ι) :
    (doRelease cfg s l x).1.sequence = s.sequence := by
  unfold doRelease
  split <;> rfl

/-- Only a `publish` on `j` counts on `j`. -/
theorem sequence_of_step {a : Act ι L T} {o : List (Event ι T)} {j : ι}
    (ha : ∀ i l, a = .publish i l → i ≠ j) (hs : step cfg s a = some (s', o)) :
    s'.sequence j = s.sequence j := by
  unfold step at hs
  cases a with
  | loan i l =>
    obtain ⟨-, hs⟩ := Option.ite_none_right_eq_some.1 hs
    cases hs
    unfold loan
    split <;> rfl
  | construct l =>
    obtain ⟨-, hs⟩ := Option.ite_none_right_eq_some.1 hs
    cases hs
    rfl
  | moveConstruct l other =>
    obtain ⟨-, hs⟩ := Option.ite_none_right_eq_some.1 hs
    obtain ⟨y, -, heq⟩ := Option.map_eq_some_iff.1 hs
    cases heq
    rfl
  | moveAssign l other =>
    obtain ⟨x, -, hs⟩ := Option.bind_eq_some_iff.1 hs
    obtain ⟨y, -, heq⟩ := Option.map_eq_some_iff.1 hs
    by_cases hne : l = other
    · rw [if_pos hne] at heq
      cases heq
      rfl
    · rw [if_neg hne] at heq
      cases heq
      simp [State.setSample]
  | reset l =>
    obtain ⟨x, -, heq⟩ := Option.map_eq_some_iff.1 hs
    have hd : (doRelease cfg s l x).1.sequence = s.sequence := doRelease_sequence l x
    rw [heq] at hd
    rw [hd]
  | destroy l =>
    obtain ⟨x, -, heq⟩ := Option.map_eq_some_iff.1 hs
    cases heq
    simp [State.setSample]
  | releaseRaw l =>
    obtain ⟨x, -, heq⟩ := Option.map_eq_some_iff.1 hs
    cases heq
    rfl
  | giveBack p =>
    obtain ⟨-, hs⟩ := Option.ite_none_right_eq_some.1 hs
    cases hs
    rfl
  | fill l item =>
    obtain ⟨x, -, hs⟩ := Option.bind_eq_some_iff.1 hs
    obtain ⟨p, -, heq⟩ := Option.map_eq_some_iff.1 hs
    cases heq
    rfl
  | publish i l =>
    obtain ⟨x, -, heq⟩ := Option.map_eq_some_iff.1 hs
    unfold publish at heq
    split at heq <;> cases heq
    · rfl
    · simp [push, Function.update_of_ne (Ne.symm (ha i l rfl))]

end

end LoanedSample

end Lwipc
