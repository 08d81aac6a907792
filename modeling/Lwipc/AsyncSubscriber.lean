import Lwipc.ShmRingBuffer

/-!
# Asynchronous subscribers

`start_async` of `Subscriber` and `IntraSubscriber` launches `spin` in a worker thread; `stop` raises
the flag that `spin` tests and joins the worker. The two classes run the same loop over rings that
differ in `beats` only; the item of a `Subscriber` is the publisher's slot, a header and a payload,
and the statistics of its `try_receive` are those of `Lwipc.Channel`. The publisher, the worker and
the thread that owns the subscriber take steps in any order, and `start_async` is called once.

The worker makes its cursor itself, in its first step. What is pushed between the return of
`start_async` and that step is not delivered (`missed_before_cursor`); from the cursor on, a position
is passed over only when it has been overwritten (`delivered_from_cursor`).
-/

namespace Lwipc.AsyncSubscriber

open SpmcRing

/-- Where the worker stands in `spin`: before `make_cursor`, at the test of `stop_flag_`, in
`try_receive`, before the callback, in `sleep_for`, or returned; `none` before it is launched. -/
inductive SpinPc
  | none
  | makeCursor
  | test
  | receive
  | callback
  | sleep
  | done
  deriving DecidableEq

/-- Where the owner stands: in `start_async` before the thread is launched, or after; in `stop` before
the join; or outside. -/
inductive OwnerPc
  | idle
  | launch
  | launched
  | join
  deriving DecidableEq

structure State (n : Nat) (W : Type) where
  ring : SpmcRing.State Unit Unit n W
  stopFlag : Bool
  worker : SpinPc
  owner : OwnerPc

inductive OwnerAct
  | startAsync
  | launch
  | started
  | stop
  | join

/-- The accesses of the `pop` in `try_receive`. -/
inductive ReceiveAct (n : Nat)
  | pop
  | check
  | read (i : Fin n)
  | recheck
  | ret

inductive SpinAct (n : Nat)
  | makeCursor
  | loadStop
  | receive (a : ReceiveAct n)
  | callback
  | wake

inductive Act (n : Nat) (W : Type)
  | push (a : PushAct n W)
  | owner (a : OwnerAct)
  | spin (a : SpinAct n)

inductive Event (n : Nat) (W : Type)
  | ring (e : SpmcRing.Event Unit Unit n W)
  /-- the worker's cursor moved -/
  | moved (pos pos' : Nat)
  /-- the callback was called with the item popped at `pos` -/
  | callback (pos : Nat) (item : Fin n → W)
  /-- `start_async` returned -/
  | started
  /-- `stop` returned -/
  | stopped
  deriving DecidableEq

variable {n : Nat} {W : Type}

/-- The payload that `pop` copies into is value-initialised in every turn of the loop. -/
def ReceiveAct.access [Inhabited W] : ReceiveAct n → PopAct n W
  | .pop => .pop fun _ => default
  | .check => .check
  | .read i => .read i
  | .recheck => .recheck
  | .ret => .ret

/-- Where the worker goes from `try_receive`, by where `pop` stood before the access. -/
def received : PopPc n → SpinPc
  | .ret true => .callback
  | .ret false => .sleep
  | _ => .receive

/-- The event of a cursor that was at `pos` and is at `pos'`. -/
def moves (pos pos' : Nat) : List (Event n W) := if pos' = pos then [] else [.moved pos pos']

def ownerStep (s : State n W) : OwnerAct → Option (State n W × List (Event n W))
  | .startAsync =>
    match s.owner, s.worker with
    | .idle, .none => some ({ s with stopFlag := false, owner := .launch }, [])
    | _, _ => none
  | .launch =>
    match s.owner with
    | .launch => some ({ s with worker := .makeCursor, owner := .launched }, [])
    | _ => none
  | .started =>
    match s.owner with
    | .launched => some ({ s with owner := .idle }, [.started])
    | _ => none
  | .stop =>
    match s.owner with
    | .idle => some ({ s with stopFlag := true, owner := .join }, [])
    | _ => none
  | .join =>
    -- a worker that was never launched is not joinable
    match s.owner, s.worker with
    | .join, .none | .join, .done => some ({ s with owner := .idle }, [.stopped])
    | _, _ => none

section
variable [Inhabited W]

def spinStep (beats : Bool) (cap : Capacity) (s : State n W) :
    SpinAct n → Option (State n W × List (Event n W))
  | .makeCursor =>
    match s.worker with
    | .makeCursor => (SpmcRing.step beats cap s.ring (.cons () .makeCursor)).map fun (r, o) =>
        ({ s with ring := r, worker := .test }, o.map .ring)
    | _ => none
  | .loadStop =>
    match s.worker with
    | .test => some ({ s with worker := if s.stopFlag then .done else .receive }, [])
    | _ => none
  | .receive a =>
    match s.worker with
    | .receive => (SpmcRing.step beats cap s.ring (.cons () a.access)).map fun (r, o) =>
        ({ s with ring := r, worker := received (s.ring.cons ()).pc },
          o.map .ring ++ moves (s.ring.cons ()).pos (r.cons ()).pos)
    | _ => none
  | .callback =>
    match s.worker with
    | .callback => some ({ s with worker := .test },
        [.callback ((s.ring.cons ()).pos - 1) (s.ring.cons ()).out])
    | _ => none
  | .wake =>
    match s.worker with
    | .sleep => some ({ s with worker := .test }, [])
    | _ => none

def step (beats : Bool) (cap : Capacity) (s : State n W) :
    Act n W → Option (State n W × List (Event n W))
  | .push a => (SpmcRing.step beats cap s.ring (.prod () a)).map fun (r, o) =>
      ({ s with ring := r }, o.map .ring)
  | .owner a => ownerStep s a
  | .spin a => spinStep beats cap s a

/-- A new ring and a new subscriber; `beats` for `Subscriber`, not for `IntraSubscriber`. -/
def machine (beats : Bool) (cap : Capacity) : Machine (State n W) (Act n W) (Event n W) where
  init := ⟨SpmcRing.init, false, .none, .idle⟩
  step := step beats cap

end

/-- What happened in the ring. -/
def ringTrace (tr : List (Event n W)) : List (SpmcRing.Event Unit Unit n W) :=
  tr.filterMap fun | .ring e => some e | _ => none

/-- The ring positions of the messages passed to the callback, in order. -/
def positions (tr : List (Event n W)) : List Nat :=
  tr.filterMap fun | .callback pos _ => some pos | _ => none

/-- The position a lap after `p` was claimed before the worker's cursor moved past `p`. -/
def Overwritten (cap : Capacity) (tr : List (Event n W)) (p : Nat) : Prop :=
  ∃ tr₁ pos pos' tr₂ item, tr = tr₁ ++ .moved pos pos' :: tr₂ ∧ pos ≤ p ∧ p < pos' ∧
    .ring (.claim () (p + cap.val) item) ∈ tr₁

section
variable {cap : Capacity} {tr o : List (Event n W)}

@[simp] theorem ringTrace_append : ringTrace (tr ++ o) = ringTrace tr ++ ringTrace o :=
  List.filterMap_append

@[simp] theorem positions_append : positions (tr ++ o) = positions tr ++ positions o :=
  List.filterMap_append

@[simp] theorem ringTrace_map (o : List (SpmcRing.Event Unit Unit n W)) :
    ringTrace (o.map .ring) = o := by
  simp [ringTrace, List.filterMap_map]

@[simp] theorem positions_map (o : List (SpmcRing.Event Unit Unit n W)) :
    positions (o.map .ring) = [] := by
  simp [positions, List.filterMap_map]

@[simp] theorem ringTrace_moves (pos pos' : Nat) : ringTrace (moves pos pos' : List (Event n W)) = [] := by
  unfold moves
  split <;> rfl

@[simp] theorem positions_moves (pos pos' : Nat) : positions (moves pos pos' : List (Event n W)) = [] := by
  unfold moves
  split <;> rfl

theorem positions_access (o : List (SpmcRing.Event Unit Unit n W)) (pos pos' : Nat) :
    positions (o.map .ring ++ moves pos pos') = [] := by
  rw [positions_append, positions_map, positions_moves, List.append_nil]

theorem mem_ringTrace {e : SpmcRing.Event Unit Unit n W} : e ∈ ringTrace tr ↔ .ring e ∈ tr := by
  unfold ringTrace
  rw [List.mem_filterMap]
  constructor
  · rintro ⟨e', he', h⟩
    rcases e' with e' | _ | _ | _ | _ <;> simp at h
    exact h ▸ he'
  · exact fun h => ⟨_, h, rfl⟩

theorem mem_positions {p : Nat} : p ∈ positions tr ↔ ∃ item, .callback p item ∈ tr := by
  unfold positions
  rw [List.mem_filterMap]
  constructor
  · rintro ⟨e, he, h⟩
    rcases e with _ | _ | ⟨pos, item⟩ | _ | _ <;> simp at h
    exact ⟨item, h ▸ he⟩
  · rintro ⟨item, h⟩
    exact ⟨_, h, rfl⟩

theorem Overwritten.append {p : Nat} (h : Overwritten cap tr p) (o : List (Event n W)) :
    Overwritten cap (tr ++ o) p := by
  obtain ⟨tr₁, pos, pos', tr₂, item, rfl, h⟩ := h
  exact ⟨tr₁, pos, pos', tr₂ ++ o, item, by simp, h⟩

end

/-- The moves, one constructor for each access: what `step` computes (`move_of_step`). -/
inductive Move [Inhabited W] (beats : Bool) (cap : Capacity) (s : State n W) :
    Act n W → State n W → List (Event n W) → Prop
  | push (a : PushAct n W) {r : SpmcRing.State Unit Unit n W}
      {o : List (SpmcRing.Event Unit Unit n W)} (hm : PushMove beats cap s.ring () a r o) :
    Move beats cap s (.push a) { s with ring := r } (o.map .ring)
  | startAsync (hw : s.worker = .none) :
    Move beats cap s (.owner .startAsync) { s with stopFlag := false, owner := .launch } []
  | launch (ho : s.owner = .launch) :
    Move beats cap s (.owner .launch) { s with worker := .makeCursor, owner := .launched } []
  | started : Move beats cap s (.owner .started) { s with owner := .idle } [.started]
  | stop : Move beats cap s (.owner .stop) { s with stopFlag := true, owner := .join } []
  | join : Move beats cap s (.owner .join) { s with owner := .idle } [.stopped]
  | makeCursor {x : Consumer n W} {o : List (SpmcRing.Event Unit Unit n W)}
      (hw : s.worker = .makeCursor)
      (hm : PopMove cap s.ring.writePos s.ring.slots () (s.ring.cons ()) .makeCursor x o) :
    Move beats cap s (.spin .makeCursor) { s with ring := s.ring.setCons () x, worker := .test }
      (o.map .ring)
  | loadStop (hw : s.worker = .test) :
    Move beats cap s (.spin .loadStop)
      { s with worker := if s.stopFlag then .done else .receive } []
  | receive (a : ReceiveAct n) {x : Consumer n W} {o : List (SpmcRing.Event Unit Unit n W)}
      (hw : s.worker = .receive)
      (hm : PopMove cap s.ring.writePos s.ring.slots () (s.ring.cons ()) a.access x o) :
    Move beats cap s (.spin (.receive a))
      { s with ring := s.ring.setCons () x, worker := received (s.ring.cons ()).pc }
      (o.map .ring ++ moves (s.ring.cons ()).pos x.pos)
  | callback (hw : s.worker = .callback) :
    Move beats cap s (.spin .callback) { s with worker := .test }
      [.callback ((s.ring.cons ()).pos - 1) (s.ring.cons ()).out]
  | wake (hw : s.worker = .sleep) :
    Move beats cap s (.spin .wake) { s with worker := .test } []

section
variable {beats : Bool} {cap : Capacity} {s s' : State n W} {tr o : List (Event n W)}

theorem ownerMove_of_step [Inhabited W] {a : OwnerAct} (hs : ownerStep s a = some (s', o)) :
    Move beats cap s (.owner a) s' o := by
  cases a with
  | startAsync =>
    simp only [ownerStep] at hs
    split at hs <;> cases hs
    exact .startAsync ‹_›
  | launch =>
    simp only [ownerStep] at hs
    split at hs <;> cases hs
    exact .launch ‹_›
  | started =>
    simp only [ownerStep] at hs
    split at hs <;> cases hs
    exact .started
  | stop =>
    simp only [ownerStep] at hs
    split at hs <;> cases hs
    exact .stop
  | join =>
    simp only [ownerStep] at hs
    split at hs <;> cases hs
    · exact .join
    · exact .join

variable [Inhabited W]

theorem spinMove_of_step {a : SpinAct n} (hs : spinStep beats cap s a = some (s', o)) :
    Move beats cap s (.spin a) s' o := by
  cases a with
  | makeCursor =>
    simp only [spinStep] at hs
    split at hs
    · obtain ⟨⟨r, o'⟩, hr, heq⟩ := Option.map_eq_some_iff.1 hs
      obtain ⟨x, hx, rfl⟩ := step_cons_eq_some.1 hr
      cases heq
      exact .makeCursor ‹_› hx
    · cases hs
  | loadStop =>
    simp only [spinStep] at hs
    split at hs <;> cases hs
    exact .loadStop ‹_›
  | receive a =>
    simp only [spinStep] at hs
    split at hs
    · obtain ⟨⟨r, o'⟩, hr, heq⟩ := Option.map_eq_some_iff.1 hs
      obtain ⟨x, hx, rfl⟩ := step_cons_eq_some.1 hr
      simp only [State.setCons_self] at heq
      cases heq
      exact .receive a ‹_› hx
    · cases hs
  | callback =>
    simp only [spinStep] at hs
    split at hs <;> cases hs
    exact .callback ‹_›
  | wake =>
    simp only [spinStep] at hs
    split at hs <;> cases hs
    exact .wake ‹_›

theorem move_of_step {a : Act n W} (hs : (machine beats cap).step s a = some (s', o)) :
    Move beats cap s a s' o := by
  cases a with
  | push a =>
    obtain ⟨⟨r, o'⟩, hr, heq⟩ := Option.map_eq_some_iff.1 hs
    cases heq
    exact .push a (step_prod_eq_some.1 hr)
  | owner a => exact ownerMove_of_step hs
  | spin a => exact spinMove_of_step hs

/-- The ring's part of a step is a step of the ring, or nothing. -/
theorem step_ring {a : Act n W} (hs : (machine beats cap).step s a = some (s', o)) :
    (s'.ring = s.ring ∧ ringTrace o = []) ∨
      ∃ b, SpmcRing.step beats cap s.ring b = some (s'.ring, ringTrace o) := by
  cases move_of_step hs with
  | push a hm => exact .inr ⟨.prod () a, by simpa using step_prod_eq_some.2 hm⟩
  | makeCursor hw hm =>
    exact .inr ⟨.cons () .makeCursor, step_cons_eq_some.2 ⟨_, by simpa using hm, rfl⟩⟩
  | receive a hw hm =>
    exact .inr ⟨.cons () a.access, step_cons_eq_some.2 ⟨_, by simpa using hm, rfl⟩⟩
  | startAsync | launch | started | stop | join | loadStop | callback | wake => exact .inl ⟨rfl, rfl⟩

/-- The publisher is alone, so no push laps another. -/
theorem ring_runs (h : (machine beats cap).Runs Machine.free tr s) :
    (SpmcRing.machine beats cap).Runs (NoLap cap) (ringTrace tr) s.ring := by
  refine h.project (f := State.ring) (g := ringTrace) rfl rfl (fun _ _ => ringTrace_append) ?_
  intro tr s a s' o _ _ hs
  rcases step_ring hs with h | ⟨b, hb⟩
  · exact .inl h
  · exact .inr ⟨b, ShmRingBuffer.noLap_of_step hb, hb⟩

end

/-! ### The worker -/

/-- In `try_receive`: the increment of the cursor will not wrap, and has happened before the return of
true. -/
def Receiving (x : Consumer n W) : Prop :=
  match x.pc with
  | .none => False
  | .loadSeq | .copy _ => x.pos + 1 < 2 ^ 64
  | .ret true => 0 < x.pos
  | _ => True

def WorkerOk (x : Consumer n W) : SpinPc → Prop
  | .none | .makeCursor => x.pc = .none
  | .test | .sleep | .done => x.pc = .idle
  | .receive => Receiving x
  | .callback => x.pc = .idle ∧ 0 < x.pos

theorem WorkerOk.pc_ne {x : Consumer n W} {w : SpinPc} (h : WorkerOk x w) (h1 : w ≠ .none)
    (h2 : w ≠ .makeCursor) : x.pc ≠ .none := by
  intro hpc
  cases w with
  | none => exact h1 rfl
  | makeCursor => exact h2 rfl
  | test | sleep | done => simp [WorkerOk, hpc] at h
  | receive => simp [WorkerOk, Receiving, hpc] at h
  | callback => simp [WorkerOk, hpc] at h

theorem received_ne (pc : PopPc n) : received pc ≠ .none ∧ received pc ≠ .makeCursor := by
  unfold received
  split <;> simp

/-- The lowest position the worker can still pass to the callback. -/
def next (x : Consumer n W) : SpinPc → Nat
  | .callback => x.pos - 1
  | _ => ShmRingBuffer.next x

/-- An access in `try_receive`: what the cursor moves past without delivering it has been
overwritten. -/
theorem receive_move [Inhabited W] {cap : Capacity} {w : Nat} {slots : Nat → Slot n W}
    {x x' : Consumer n W} {a : ReceiveAct n} {o : List (SpmcRing.Event Unit Unit n W)}
    (hx : Receiving x) (hw : w < 2 ^ 64) (hm : PopMove cap w slots () x a.access x' o) :
    WorkerOk x' (received x.pc) ∧ (∀ start, .cursor () start ∉ o) ∧
    next x .receive ≤ next x' (received x.pc) ∧
    ∀ p, next x .receive ≤ p → p < next x' (received x.pc) →
      x.pos ≤ p ∧ p < x'.pos ∧ p + cap.val < w := by
  have hkept : ∀ {k p : Nat} {Q : Prop}, k ≤ p → p < k → Q := fun h1 h2 => absurd h2 (Nat.not_lt.2 h1)
  generalize (a.access : PopAct n W) = b at hm
  cases hm with
  | makeCursor | makeCursorFromStart => exact hx.elim
  | nothingNew pos old out hle => exact ⟨trivial, by simp, Nat.le_refl _, fun p => hkept⟩
  | forward pos old out hlt =>
    refine ⟨?_, by simp, le_fastForward cap w pos, fun p h1 h2 => ⟨h1, h2, ?_⟩⟩
    · have := fastForward_lt cap hlt
      show fastForward cap w pos + 1 < 2 ^ 64
      omega
    · simp only [next, ShmRingBuffer.next, received, fastForward] at h1 h2
      split at h2 <;> omega
  | notReady pos out hne => exact ⟨trivial, by simp, Nat.le_refl _, fun p => hkept⟩
  | isReady pos out heq => exact ⟨hx, by simp, Nat.le_refl _, fun p => hkept⟩
  | read pos out copied i => exact ⟨hx, by simp, Nat.le_refl _, fun p => hkept⟩
  | torn pos out copied hall hne => exact ⟨trivial, by simp, Nat.le_refl _, fun p => hkept⟩
  | taken pos out copied hall heq =>
    have hpos : u64 (pos + 1) = pos + 1 := u64_of_lt hx
    rw [hpos]
    exact ⟨Nat.succ_pos pos, by simp, Nat.le_refl _, fun p => hkept⟩
  | ret pos out ok =>
    cases ok with
    | false => exact ⟨rfl, by simp, Nat.le_refl _, fun p => hkept⟩
    | true => exact ⟨⟨rfl, hx⟩, by simp, Nat.le_refl _, fun p => hkept⟩

/-- What the worker has passed to the callback: increasing positions below `next`, and of those from
its cursor's start on all that were not overwritten. -/
structure Handed (cap : Capacity) (tr : List (Event n W)) (s : State n W) : Prop where
  worker : WorkerOk (s.ring.cons ()) s.worker
  launch : s.owner = .launch → s.worker = .none
  fresh : (s.ring.cons ()).pc = .none → ∀ start, .ring (.cursor () start) ∉ tr
  sorted : (positions tr).Pairwise (· < ·)
  below : ∀ p ∈ positions tr, p < next (s.ring.cons ()) s.worker
  covered : ∀ start p, .ring (.cursor () start) ∈ tr → start ≤ p →
    p < next (s.ring.cons ()) s.worker → p ∈ positions tr ∨ Overwritten cap tr p

section
variable {beats : Bool} {cap : Capacity} {s s' : State n W} {tr o : List (Event n W)}

/-- A step without callback and without a new cursor, which moves past nothing but overwritten
positions. -/
theorem Handed.quiet (h : Handed cap tr s) (hworker : WorkerOk (s'.ring.cons ()) s'.worker)
    (hlaunch : s'.owner = .launch → s'.worker = .none)
    (hfresh : (s'.ring.cons ()).pc = .none → (s.ring.cons ()).pc = .none)
    (hpos : positions o = []) (hcur : ∀ start, .ring (.cursor () start) ∉ o)
    (hle : next (s.ring.cons ()) s.worker ≤ next (s'.ring.cons ()) s'.worker)
    (hnew : ∀ p, next (s.ring.cons ()) s.worker ≤ p → p < next (s'.ring.cons ()) s'.worker →
      Overwritten cap (tr ++ o) p) : Handed cap (tr ++ o) s' := by
  have hmem : ∀ start, .ring (.cursor () start) ∈ tr ++ o → .ring (.cursor () start) ∈ tr := by
    intro start hst
    exact (List.mem_append.1 hst).resolve_right (hcur start)
  have heq : positions (tr ++ o) = positions tr := by rw [positions_append, hpos, List.append_nil]
  refine ⟨hworker, hlaunch, fun hpc start hst => h.fresh (hfresh hpc) start (hmem start hst), ?_, ?_, ?_⟩
  · rw [heq]
    exact h.sorted
  · rw [heq]
    exact fun p hp => Nat.lt_of_lt_of_le (h.below p hp) hle
  · intro start p hst h1 h2
    rw [heq]
    rcases Nat.lt_or_ge p (next (s.ring.cons ()) s.worker) with hlt | hge
    · exact (h.covered start p (hmem start hst) h1 hlt).imp_right fun h => h.append o
    · exact .inr (hnew p hge h2)

theorem Handed.keep (h : Handed cap tr s) (hcons : s'.ring.cons () = s.ring.cons ())
    (hworker : WorkerOk (s.ring.cons ()) s'.worker)
    (hnext : next (s.ring.cons ()) s'.worker = next (s.ring.cons ()) s.worker)
    (hlaunch : s'.owner = .launch → s'.worker = .none) (hpos : positions o = [])
    (hcur : ∀ start, .ring (.cursor () start) ∉ o) : Handed cap (tr ++ o) s' := by
  refine h.quiet (hcons ▸ hworker) hlaunch (fun hpc => hcons ▸ hpc) hpos hcur ?_ ?_
  · rw [hcons, hnext]
  · intro p h1 h2
    rw [hcons, hnext] at h2
    exact absurd h2 (Nat.not_lt.2 h1)

/-- The cursor is the worker's first, and nothing has been delivered before it. -/
theorem Handed.makeCursor {x : Consumer n W} {o : List (SpmcRing.Event Unit Unit n W)}
    (h : Handed cap tr s) (hw : s.worker = .makeCursor)
    (hm : PopMove cap s.ring.writePos s.ring.slots () (s.ring.cons ()) .makeCursor x o) :
    Handed cap (tr ++ o.map .ring) { s with ring := s.ring.setCons () x, worker := .test } := by
  obtain ⟨hworker, hlaunch, hfresh, hsorted, hbelow, -⟩ := h
  rw [hw] at hlaunch hbelow
  generalize hy : s.ring.cons () = y at *
  cases hm with
  | makeCursor pos out =>
    have hnil : positions tr = [] := by
      refine List.eq_nil_iff_forall_not_mem.2 fun p hp => ?_
      exact Nat.not_lt_zero p (hbelow p hp)
    have hpos : positions (tr ++ [.ring (.cursor () s.ring.writePos)]) = [] := by
      rw [positions_append, hnil]
      rfl
    refine ⟨?_, fun ho => SpinPc.noConfusion (hlaunch ho), fun hpc => ?_, ?_, ?_, ?_⟩
    · rw [State.setCons_self]
      rfl
    · rw [State.setCons_self] at hpc
      cases hpc
    · exact hpos ▸ List.Pairwise.nil
    · intro p hp
      rw [List.map_singleton, hpos] at hp
      cases hp
    · intro start p hst h1 h2
      rcases List.mem_append.1 hst with hst | hst
      · exact absurd hst (hfresh rfl start)
      · obtain rfl : start = s.ring.writePos := by simpa using hst
        rw [State.setCons_self] at h2
        exact absurd h2 (Nat.not_lt.2 h1)

theorem Handed.callback (h : Handed cap tr s) (hw : s.worker = .callback) :
    Handed cap (tr ++ [.callback ((s.ring.cons ()).pos - 1) (s.ring.cons ()).out])
      { s with worker := .test } := by
  obtain ⟨hworker, hlaunch, hfresh, hsorted, hbelow, hcovered⟩ := h
  rw [hw] at hworker hlaunch hbelow hcovered
  obtain ⟨hpc, hpos⟩ := hworker
  have hnext : next (s.ring.cons ()) .test = (s.ring.cons ()).pos := by
    simp [next, ShmRingBuffer.next, hpc]
  have hposs : positions (tr ++ [.callback ((s.ring.cons ()).pos - 1) (s.ring.cons ()).out]) =
      positions tr ++ [(s.ring.cons ()).pos - 1] := positions_append
  have hcur : ∀ start, .ring (.cursor () start) ∈ tr ++
      [.callback ((s.ring.cons ()).pos - 1) (s.ring.cons ()).out] → .ring (.cursor () start) ∈ tr := by
    intro start hst
    simpa using hst
  refine ⟨hpc, fun ho => SpinPc.noConfusion (hlaunch ho), fun hn => ?_, ?_, ?_, ?_⟩
  · rw [hpc] at hn
    cases hn
  · rw [hposs, List.pairwise_append]
    refine ⟨hsorted, List.pairwise_singleton _ _, fun p hp q hq => ?_⟩
    rw [List.mem_singleton.1 hq]
    exact hbelow p hp
  · intro p hp
    show p < next (s.ring.cons ()) .test
    rw [hnext]
    rw [hposs] at hp
    rcases List.mem_append.1 hp with hp | hp
    · have : p < (s.ring.cons ()).pos - 1 := hbelow p hp
      omega
    · rw [List.mem_singleton.1 hp]
      omega
  · intro start p hst h1 h2
    rw [hposs]
    change p < next (s.ring.cons ()) .test at h2
    rw [hnext] at h2
    rcases Nat.lt_or_ge p ((s.ring.cons ()).pos - 1) with hlt | hge
    · exact (hcovered start p (hcur start hst) h1 hlt).imp (List.mem_append_left _) fun h => h.append _
    · exact .inl (List.mem_append_right _ (List.mem_singleton.2 (by omega)))

variable [Inhabited W]

theorem handed_init : Handed cap [] (machine beats cap : Machine (State n W) _ _).init where
  worker := rfl
  launch := fun h => by cases h
  fresh := fun _ _ h => by cases h
  sorted := List.Pairwise.nil
  below := fun _ h => by cases h
  covered := fun _ _ h => by cases h

theorem Handed.receive {a : ReceiveAct n} {x : Consumer n W}
    {o : List (SpmcRing.Event Unit Unit n W)} (hr : (machine beats cap).Runs Machine.free tr s)
    (h : Handed cap tr s) (hw : s.worker = .receive)
    (hm : PopMove cap s.ring.writePos s.ring.slots () (s.ring.cons ()) a.access x o) :
    Handed cap (tr ++ (o.map .ring ++ moves (s.ring.cons ()).pos x.pos))
      { s with ring := s.ring.setCons () x, worker := received (s.ring.cons ()).pc } := by
  have hx : Receiving (s.ring.cons ()) := by simpa [hw, WorkerOk] using h.worker
  have hself : (s.ring.setCons () x).cons () = x := State.setCons_self _ _ _
  obtain ⟨hok, hcur, hle, hnew⟩ := receive_move hx (writePos_lt (ring_runs hr)) hm
  obtain ⟨hne, hne'⟩ := received_ne (s.ring.cons ()).pc
  refine h.quiet (by rwa [hself]) (fun ho => ?_) (fun hpc => ?_) (positions_access _ _ _) ?_ ?_ ?_
  · have hnone := h.launch ho
    rw [hw] at hnone
    cases hnone
  · rw [hself] at hpc
    exact absurd hpc (hok.pc_ne hne hne')
  · intro start hst
    rw [← mem_ringTrace, ringTrace_append, ringTrace_map, ringTrace_moves, List.append_nil] at hst
    exact hcur start hst
  · rwa [hself, hw]
  · intro p h1 h2
    rw [hw] at h1
    rw [hself] at h2
    obtain ⟨hge, hlt, hlap⟩ := hnew p h1 h2
    obtain ⟨⟨⟩, item, hmem⟩ := claimed_of_lt (ring_runs hr) _ hlap
    refine ⟨tr ++ o.map .ring, _, _, [], item, ?_, hge, hlt,
      List.mem_append_left _ (mem_ringTrace.1 hmem)⟩
    rw [moves, if_neg (by omega), List.append_assoc]

theorem Handed.step {a : Act n W} (hr : (machine beats cap).Runs Machine.free tr s)
    (h : Handed cap tr s) (hs : (machine beats cap).step s a = some (s', o)) :
    Handed cap (tr ++ o) s' := by
  have hbusy : ∀ {w : SpinPc}, s.worker = w → w ≠ .none → ∀ {Q : Prop}, s.owner = .launch → Q := by
    intro w hw hne Q ho
    exact absurd (hw ▸ h.launch ho) hne
  have hworker := h.worker
  cases move_of_step hs with
  | @push a r o hm =>
    have hcons : r.cons = s.ring.cons := by cases hm <;> rfl
    have hcur : ∀ start, .cursor () start ∉ o := by cases hm <;> simp
    refine h.keep (congrFun hcons ()) hworker rfl h.launch (positions_map o) fun start hst => ?_
    rw [← mem_ringTrace, ringTrace_map] at hst
    exact hcur start hst
  | startAsync hw => exact h.keep rfl hworker rfl (fun _ => hw) rfl (by simp)
  | launch ho =>
    have hw := h.launch ho
    rw [hw] at hworker
    refine h.keep rfl hworker ?_ (fun ho => OwnerPc.noConfusion ho) rfl (by simp)
    rw [hw]
    rfl
  | started | stop | join =>
    exact h.keep rfl hworker rfl (fun ho => OwnerPc.noConfusion ho) rfl (by simp)
  | makeCursor hw hm => exact h.makeCursor hw hm
  | loadStop hw =>
    rw [hw] at hworker
    refine h.keep rfl ?_ ?_ (hbusy hw (by simp)) rfl (by simp)
    · have hidle : (s.ring.cons ()).pc = .idle := hworker
      show WorkerOk (s.ring.cons ()) (if s.stopFlag then .done else .receive)
      split
      · exact hidle
      · simp [WorkerOk, Receiving, hidle]
    · rw [hw]
      show next (s.ring.cons ()) (if s.stopFlag then .done else .receive) = _
      split <;> rfl
  | receive a hw hm => exact h.receive hr hw hm
  | callback hw => exact h.callback hw
  | wake hw =>
    rw [hw] at hworker
    refine h.keep rfl hworker ?_ (hbusy hw (by simp)) rfl (by simp)
    rw [hw]
    rfl

theorem handed_of_runs (h : (machine beats cap).Runs Machine.free tr s) : Handed cap tr s := by
  induction h with
  | init => exact handed_init
  | step hr _ hs ih => exact ih.step hr hs

/-- What the callback gets was returned by `pop`, at the position just passed. -/
structure Popped (tr : List (Event n W)) (s : State n W) : Prop where
  called : ∀ pos item, .callback pos item ∈ tr → .ring (.ret () true (pos + 1) item) ∈ tr
  waiting : s.worker = .callback → .ring (.ret () true (s.ring.cons ()).pos (s.ring.cons ()).out) ∈ tr

omit [Inhabited W] in
theorem Popped.keep (h : Popped tr s) (hcons : s'.worker = .callback →
      s.worker = .callback ∧ s'.ring.cons () = s.ring.cons ())
    (hpos : positions o = []) : Popped (tr ++ o) s' := by
  refine ⟨fun pos item hmem => ?_, fun hw => ?_⟩
  · rcases List.mem_append.1 hmem with hmem | hmem
    · exact List.mem_append_left _ (h.called pos item hmem)
    · have hp : pos ∈ positions o := mem_positions.2 ⟨item, hmem⟩
      rw [hpos] at hp
      cases hp
  · obtain ⟨hw', hc⟩ := hcons hw
    rw [hc]
    exact List.mem_append_left _ (h.waiting hw')

theorem popped_of_runs (h : (machine beats cap).Runs Machine.free tr s) : Popped tr s := by
  induction h with
  | init =>
    refine ⟨fun _ _ h => ?_, fun h => ?_⟩
    · cases h
    · cases h
  | @step tr s s' a o hr _ hs ih =>
    cases move_of_step hs with
    | @push a r o hm =>
      have hcons : r.cons = s.ring.cons := by cases hm <;> rfl
      exact ih.keep (fun hw => ⟨hw, congrFun hcons ()⟩) (positions_map o)
    | startAsync | started | stop | join => exact ih.keep (fun hw => ⟨hw, rfl⟩) rfl
    | launch | wake => exact ih.keep (fun hw => SpinPc.noConfusion hw) rfl
    | makeCursor => exact ih.keep (fun hw => SpinPc.noConfusion hw) (positions_map _)
    | loadStop hw =>
      refine ih.keep (fun hw => ?_) rfl
      dsimp only at hw
      split at hw <;> cases hw
    | receive a hw hm =>
      generalize (a.access : PopAct n W) = b at hm
      generalize hy : s.ring.cons () = y at hm
      cases hm with
      | ret pos out ok =>
        cases ok with
        | false => exact ih.keep (fun hw => SpinPc.noConfusion hw) (positions_access _ _ _)
        | true =>
          refine ⟨fun pos' item hmem => ?_, fun _ => ?_⟩
          · have hmem' : .callback pos' item ∈ tr := by simpa [moves] using hmem
            exact List.mem_append_left _ (ih.called pos' item hmem')
          · dsimp only
            rw [State.setCons_self]
            simp
      | _ => exact ih.keep (fun hw => SpinPc.noConfusion hw) (positions_access _ _ _)
    | callback hw =>
      obtain ⟨-, hpos⟩ : WorkerOk (s.ring.cons ()) .callback := hw ▸ (handed_of_runs hr).worker
      refine ⟨fun pos item hmem => List.mem_append_left _ ?_, fun hw => SpinPc.noConfusion hw⟩
      rcases List.mem_append.1 hmem with hmem | hmem
      · exact ih.called pos item hmem
      · obtain ⟨rfl, rfl⟩ : pos = (s.ring.cons ()).pos - 1 ∧ item = (s.ring.cons ()).out := by
          simpa using hmem
        rw [Nat.sub_add_cancel hpos]
        exact ih.waiting hw

/-- In every run: the messages passed to the callback have strictly increasing positions; with `start`
where the worker's `make_cursor` placed the cursor, every position from `start` on below a delivered
one is delivered too, unless the position a lap later was claimed before the cursor moved past it.
With at most `2 ^ 64` pushes these are all the positions claimed after `make_cursor`, and with fewer
than `2 ^ 63` each message is the item of the push that obtained its position. -/
theorem delivered_from_cursor (beats : Bool) (cap : Capacity) (tr : List (Event n W)) (s : State n W)
    (h : (machine beats cap).Runs Machine.free tr s) :
    (positions tr).Pairwise (· < ·) ∧
    (∀ start, .ring (.cursor () start) ∈ tr → ∀ p q, start ≤ p → p < q → q ∈ positions tr →
      p ∈ positions tr ∨ Overwritten cap tr p) ∧
    ((claims (ringTrace tr)).length ≤ 2 ^ 64 → ∀ tr₁ start tr₂ p item,
      tr = tr₁ ++ .ring (.cursor () start) :: tr₂ → .ring (.claim () p item) ∈ tr₂ → start ≤ p) ∧
    ((claims (ringTrace tr)).length < 2 ^ 63 → ∀ p item, .callback p item ∈ tr →
      itemAt (ringTrace tr) p = some item) := by
  have hh := handed_of_runs h
  refine ⟨hh.sorted, ?_, ?_, ?_⟩
  · intro start hst p q h1 h2 hq
    exact hh.covered start p hst h1 (Nat.lt_trans h2 (hh.below q hq))
  · rintro hb tr₁ start tr₂ p item rfl hmem
    have hpw := pairwise_notBelow (ring_runs h) hb
    have heq : ringTrace (tr₁ ++ .ring (.cursor () start) :: tr₂) =
        ringTrace tr₁ ++ .cursor () start :: ringTrace tr₂ := ringTrace_append
    rw [heq, List.pairwise_append, List.pairwise_cons] at hpw
    exact hpw.2.1.1 _ (mem_ringTrace.2 hmem)
  · intro hb p item hmem
    have hret := mem_ringTrace.2 ((popped_of_runs h).called p item hmem)
    exact (item_of_ret (ring_runs h) hb hret).2

end

def publishActs (beats : Bool) (k : Nat) : List (Act 1 Nat) :=
  [.push (.push fun _ => k), .push .mark, .push (.word 0), .push .ready] ++
    if beats then [.push (.beat 1)] else []

/-- One turn of the loop, with a message. -/
def deliverActs : List (Act 1 Nat) :=
  [.spin .loadStop, .spin (.receive .pop), .spin (.receive .check), .spin (.receive (.read 0)),
    .spin (.receive .recheck), .spin (.receive .ret), .spin .callback]

/-- A `Subscriber` whose worker is fast to make its cursor and then slow: two slots, three messages. -/
def slowWorker : State 1 Nat × List (Event 1 Nat) :=
  (machine true .two).after ([Act.owner .startAsync, .owner .launch, .spin .makeCursor,
    .owner .started] ++ publishActs true 7 ++ publishActs true 8 ++ publishActs true 9 ++ deliverActs)

theorem slowWorker_runs : (machine true .two).Runs Machine.free slowWorker.2 slowWorker.1 :=
  Machine.Runs.after rfl

theorem delivered_from_cursor_slow : positions slowWorker.2 = [1] ∧ Overwritten .two slowWorker.2 0 ∧
    .callback 1 (fun _ => 8) ∈ slowWorker.2 := by
  obtain ⟨-, hcov, -, hitem⟩ := delivered_from_cursor true .two _ _ slowWorker_runs
  have hpos : positions slowWorker.2 = [1] := rfl
  obtain ⟨item, hcall⟩ := mem_positions.1 (hpos ▸ List.mem_singleton_self 1)
  obtain rfl : (fun _ => 8) = item := Option.some.inj (hitem (by decide) 1 item hcall)
  refine ⟨hpos, ?_, hcall⟩
  rcases hcov 0 (by decide) 0 1 (Nat.le_refl 0) Nat.one_pos (by decide) with hmem | hover
  · rw [hpos] at hmem
    cases List.mem_singleton.1 hmem
  · exact hover

/-- An `IntraSubscriber` whose worker is slow to make its cursor: `start_async` returns, a message is
published, the cursor is made, another message is published. -/
def lateCursor : State 1 Nat × List (Event 1 Nat) :=
  (machine false .two).after ([Act.owner .startAsync, .owner .launch, .owner .started] ++
    publishActs false 7 ++ [Act.spin .makeCursor] ++ publishActs false 8 ++ deliverActs)

/-- The first message is missed although it was published after `start_async` had returned and nothing
overwrote it. -/
theorem missed_before_cursor : ¬ ∀ (beats : Bool) (cap : Capacity) (tr tr₁ tr₂ : List (Event 1 Nat))
    (s : State 1 Nat) (p q : Nat) (item : Fin 1 → Nat), (machine beats cap).Runs Machine.free tr s →
      tr = tr₁ ++ .started :: tr₂ → .ring (.claim () p item) ∈ tr₂ → q ∈ positions tr → p < q →
        p ∈ positions tr ∨ Overwritten cap tr p := by
  intro h
  have hrun : (machine false .two).Runs Machine.free lateCursor.2 lateCursor.1 :=
    Machine.Runs.after rfl
  rcases h false .two _ [] _ _ 0 1 (fun _ => 7) hrun rfl (by decide) (by decide) Nat.one_pos with
    hmem | ⟨tr₁, pos, pos', tr₂, item, heq, -, -, hmem⟩
  · have hpos : positions lateCursor.2 = [1] := rfl
    rw [hpos] at hmem
    cases List.mem_singleton.1 hmem
  -- position 2 is never claimed
  · have hnone : itemAt (ringTrace lateCursor.2) 2 = none := rfl
    have hmem' : .claim () 2 item ∈ ringTrace lateCursor.2 := by
      rw [mem_ringTrace, heq]
      exact List.mem_append_left _ hmem
    simpa using List.findSome?_eq_none_iff.1 hnone _ hmem'

end Lwipc.AsyncSubscriber
