import Lwipc.Lib.Runs
import Lwipc.Lib.Word
import Mathlib.Logic.Function.Basic
import Mathlib.Data.Fintype.Pi

/-!
# The overwriting ring of `ShmRingBuffer` and `IntraRingBuffer`

Both classes have the same `push` and `pop`; they differ in the heartbeat that `ShmRingBuffer::push`
stores last (`beats`) and in who may push. Producers are numbered by `P` and consumers, each with
its own `Cursor`, by `C`. Every access to shared memory is one step and a payload of `n` words is
copied one word a step, in any order. A call has no effect before its first access, so calling
`push` is its `fetch_add` and calling `pop` is its load of `write_pos`; what follows an access
without touching shared memory belongs to that access.
-/

namespace Lwipc.SpmcRing

structure Slot (n : Nat) (W : Type) where
  sequence : Nat
  data : Fin n → W

/-- Where a producer stands in `push`: before the store of `pos * 2`, in the `memcpy` into the slot,
before the heartbeat, or outside. -/
inductive PushPc (n : Nat) (W : Type)
  | idle
  | mark (pos : Nat) (item : Fin n → W)
  | copy (pos : Nat) (item : Fin n → W) (copied : Fin n → Bool)
  | beat (pos : Nat)
  deriving DecidableEq

/-- Where a consumer stands in `pop`: before the first load of the sequence, in the `memcpy` out of
the slot, at the return, or outside; `none` before it has a cursor. -/
inductive PopPc (n : Nat)
  | none
  | idle
  | loadSeq
  | copy (copied : Fin n → Bool)
  | ret (ok : Bool)
  deriving DecidableEq

/-- A consumer: its cursor, the object `pop` copies into, and where it stands. -/
structure Consumer (n : Nat) (W : Type) where
  pos : Nat
  out : Fin n → W
  pc : PopPc n

structure State (P C : Type) (n : Nat) (W : Type) where
  writePos : Nat
  lastHeartbeat : Nat
  slots : Nat → Slot n W
  prod : P → PushPc n W
  cons : C → Consumer n W

/-- The accesses of `push`. -/
inductive PushAct (n : Nat) (W : Type)
  | push (item : Fin n → W)
  | mark
  | word (i : Fin n)
  | ready
  | beat (now : Nat)

/-- The accesses of `make_cursor`, `make_cursor_from_start` and `pop`. -/
inductive PopAct (n : Nat) (W : Type)
  | makeCursor
  | makeCursorFromStart
  | pop (out : Fin n → W)
  | check
  | read (i : Fin n)
  | recheck
  | ret

inductive Act (P C : Type) (n : Nat) (W : Type)
  | prod (p : P) (a : PushAct n W)
  | cons (c : C) (a : PopAct n W)

inductive Event (P C : Type) (n : Nat) (W : Type)
  /-- a `fetch_add` returned `pos` -/
  | claim (p : P) (pos : Nat) (item : Fin n → W)
  /-- the store of `pos * 2 + 1` -/
  | ready (p : P) (pos : Nat)
  /-- a cursor was created -/
  | cursor (c : C) (pos : Nat)
  /-- a `pop` returned, leaving the cursor at `pos` -/
  | ret (c : C) (ok : Bool) (pos : Nat) (out : Fin n → W)
  deriving DecidableEq

variable {P C : Type} {n : Nat} {W : Type}

def State.setProd [DecidableEq P] (s : State P C n W) (p : P) (pc : PushPc n W) : State P C n W :=
  { s with prod := Function.update s.prod p pc }

def State.setCons [DecidableEq C] (s : State P C n W) (c : C) (x : Consumer n W) : State P C n W :=
  { s with cons := Function.update s.cons c x }

def State.setSlot (s : State P C n W) (x : Nat) (f : Slot n W → Slot n W) : State P C n W :=
  { s with slots := Function.update s.slots x (f (s.slots x)) }

/-- A new ring: `write_pos`, the heartbeat and every sequence are zero. -/
def init [Inhabited W] : State P C n W where
  writePos := 0
  lastHeartbeat := 0
  slots _ := ⟨0, fun _ => default⟩
  prod _ := .idle
  cons _ := ⟨0, fun _ => default, .none⟩

/-- The cursor after the fast-forward test of `pop`. -/
def fastForward (cap : Capacity) (writePos pos : Nat) : Nat :=
  if writePos - pos > cap.val then writePos - cap.val else pos

/-- The sequence a `pop` at `pos` expects. -/
def expected (pos : Nat) : Nat := u64 (pos * 2 + 1)

/-- One access of `push`. -/
def pushStep [DecidableEq P] (beats : Bool) (cap : Capacity) (s : State P C n W) (p : P) :
    PushAct n W → Option (State P C n W × List (Event P C n W))
  | .push item =>
    match s.prod p with
    | .idle =>
      some (State.setProd { s with writePos := u64 (s.writePos + 1) } p (.mark s.writePos item),
        [.claim p s.writePos item])
    | _ => none
  | .mark =>
    match s.prod p with
    | .mark pos item =>
      some ((s.setSlot (cap.slot pos) fun x => { x with sequence := u64 (pos * 2) }).setProd p
        (.copy pos item fun _ => false), [])
    | _ => none
  | .word i =>
    match s.prod p with
    | .copy pos item copied =>
      some ((s.setSlot (cap.slot pos) fun x =>
        { x with data := Function.update x.data i (item i) }).setProd p
          (.copy pos item (Function.update copied i true)), [])
    | _ => none
  | .ready =>
    match s.prod p with
    | .copy pos _ copied =>
      if ∀ i, copied i = true then
        some ((s.setSlot (cap.slot pos) fun x => { x with sequence := u64 (pos * 2 + 1) }).setProd p
          (if beats then .beat pos else .idle), [.ready p pos])
      else none
    | _ => none
  | .beat now =>
    match s.prod p with
    | .beat _ => some (State.setProd { s with lastHeartbeat := u64 now } p .idle, [])
    | _ => none

/-- One access of a consumer. It reads `write_pos` and the slots and writes nothing shared. -/
def popStep (cap : Capacity) (writePos : Nat) (slots : Nat → Slot n W) (c : C) (x : Consumer n W) :
    PopAct n W → Option (Consumer n W × List (Event P C n W))
  | .makeCursor =>
    match x.pc with
    | .none => some ({ x with pos := writePos, pc := .idle }, [.cursor c writePos])
    | _ => none
  | .makeCursorFromStart =>
    match x.pc with
    | .none => some ({ x with pos := 0, pc := .idle }, [.cursor c 0])
    | _ => none
  | .pop out =>
    match x.pc with
    | .idle =>
      if x.pos ≥ writePos then some (⟨x.pos, out, .ret false⟩, [])
      else some (⟨fastForward cap writePos x.pos, out, .loadSeq⟩, [])
    | _ => none
  | .check =>
    match x.pc with
    | .loadSeq =>
      if (slots (cap.slot x.pos)).sequence ≠ expected x.pos then
        some ({ x with pc := .ret false }, [])
      else some ({ x with pc := .copy fun _ => false }, [])
    | _ => none
  | .read i =>
    match x.pc with
    | .copy copied =>
      some (⟨x.pos, Function.update x.out i ((slots (cap.slot x.pos)).data i),
        .copy (Function.update copied i true)⟩, [])
    | _ => none
  | .recheck =>
    match x.pc with
    | .copy copied =>
      if ∀ i, copied i = true then
        if (slots (cap.slot x.pos)).sequence ≠ expected x.pos then
          some ({ x with pc := .ret false }, [])
        else some ({ x with pos := u64 (x.pos + 1), pc := .ret true }, [])
      else none
    | _ => none
  | .ret =>
    match x.pc with
    | .ret ok => some ({ x with pc := .idle }, [.ret c ok x.pos x.out])
    | _ => none

section
variable [DecidableEq P] [DecidableEq C]

def step (beats : Bool) (cap : Capacity) (s : State P C n W) :
    Act P C n W → Option (State P C n W × List (Event P C n W))
  | .prod p a => pushStep beats cap s p a
  | .cons c a =>
    (popStep cap s.writePos s.slots c (s.cons c) a).map fun (x, o) => (s.setCons c x, o)

/-- The ring as a machine. -/
def machine [Inhabited W] (beats : Bool) (cap : Capacity) :
    Machine (State P C n W) (Act P C n W) (Event P C n W) :=
  ⟨init, step beats cap⟩

end

/-- The items in the order of their `fetch_add`: the item at index `p` got position `p`. -/
def claims (tr : List (Event P C n W)) : List (Fin n → W) :=
  tr.filterMap fun | .claim _ _ item => some item | _ => none

/-- The item of the push whose `fetch_add` returned `pos`. -/
def itemAt (tr : List (Event P C n W)) (pos : Nat) : Option (Fin n → W) :=
  tr.findSome? fun | .claim _ pos' item => if pos' = pos then some item else none | _ => none

/-- The positions whose ready store is done. -/
def readied (tr : List (Event P C n W)) : List Nat :=
  tr.filterMap fun | .ready _ pos => some pos | _ => none

/-- What the successful calls of `c` returned: where they left the cursor, and the item. -/
def returns [DecidableEq C] (c : C) (tr : List (Event P C n W)) : List (Nat × (Fin n → W)) :=
  tr.filterMap fun | .ret c' true pos out => if c' = c then some (pos, out) else none | _ => none

/-- The positions cursor `c` delivered: one less than the cursor at each successful return. -/
def delivered [DecidableEq C] (c : C) (tr : List (Event P C n W)) : List Nat :=
  (returns c tr).map fun x => x.1 - 1

/-- The moves of a producer, one constructor for each access: what `pushStep` computes
(`pushStep_eq_some`). -/
inductive PushMove [DecidableEq P] (beats : Bool) (cap : Capacity) (s : State P C n W) (p : P) :
    PushAct n W → State P C n W → List (Event P C n W) → Prop
  | claim (item : Fin n → W) (hp : s.prod p = .idle) :
    PushMove beats cap s p (.push item)
      (State.setProd { s with writePos := u64 (s.writePos + 1) } p (.mark s.writePos item))
      [.claim p s.writePos item]
  | mark (pos : Nat) (item : Fin n → W) (hp : s.prod p = .mark pos item) :
    PushMove beats cap s p .mark
      ((s.setSlot (cap.slot pos) fun x => { x with sequence := u64 (pos * 2) }).setProd p
        (.copy pos item fun _ => false)) []
  | word (pos : Nat) (item : Fin n → W) (copied : Fin n → Bool) (i : Fin n)
      (hp : s.prod p = .copy pos item copied) :
    PushMove beats cap s p (.word i)
      ((s.setSlot (cap.slot pos) fun x =>
        { x with data := Function.update x.data i (item i) }).setProd p
          (.copy pos item (Function.update copied i true))) []
  | ready (pos : Nat) (item : Fin n → W) (copied : Fin n → Bool)
      (hp : s.prod p = .copy pos item copied) (hall : ∀ i, copied i = true) :
    PushMove beats cap s p .ready
      ((s.setSlot (cap.slot pos) fun x => { x with sequence := u64 (pos * 2 + 1) }).setProd p
        (if beats then .beat pos else .idle)) [.ready p pos]
  | beat (pos now : Nat) (hp : s.prod p = .beat pos) :
    PushMove beats cap s p (.beat now)
      (State.setProd { s with lastHeartbeat := u64 now } p .idle) []

theorem pushStep_eq_some [DecidableEq P] {beats : Bool} {cap : Capacity} {s s' : State P C n W}
    {p : P} {a : PushAct n W} {o : List (Event P C n W)} :
    pushStep beats cap s p a = some (s', o) ↔ PushMove beats cap s p a s' o := by
  constructor
  · intro hs
    cases a with
    | push item =>
      simp only [pushStep] at hs
      split at hs <;> cases hs
      exact .claim item ‹_›
    | mark =>
      simp only [pushStep] at hs
      split at hs <;> cases hs
      exact .mark _ _ ‹_›
    | word i =>
      simp only [pushStep] at hs
      split at hs <;> cases hs
      exact .word _ _ _ i ‹_›
    | ready =>
      simp only [pushStep] at hs
      split at hs
      · rename_i hp
        by_cases hall : ∀ i, ‹Fin n → Bool› i = true
        · rw [if_pos hall] at hs
          cases hs
          exact .ready _ _ _ hp hall
        · rw [if_neg hall] at hs
          cases hs
      · cases hs
    | beat now =>
      simp only [pushStep] at hs
      split at hs <;> cases hs
      exact .beat _ now ‹_›
  · intro hm
    cases hm with
    | ready pos item copied hp hall => simp [pushStep, hp, hall]
    | claim item hp | mark _ _ hp | word _ _ _ _ hp | beat _ _ hp => simp [pushStep, hp]

/-- The moves of a consumer, one constructor for each way through an access: what `popStep` computes
(`popStep_eq_some`). -/
inductive PopMove (cap : Capacity) (w : Nat) (slots : Nat → Slot n W) (c : C) :
    Consumer n W → PopAct n W → Consumer n W → List (Event P C n W) → Prop
  | makeCursor (pos : Nat) (out : Fin n → W) :
    PopMove cap w slots c ⟨pos, out, .none⟩ .makeCursor ⟨w, out, .idle⟩ [.cursor c w]
  | makeCursorFromStart (pos : Nat) (out : Fin n → W) :
    PopMove cap w slots c ⟨pos, out, .none⟩ .makeCursorFromStart ⟨0, out, .idle⟩ [.cursor c 0]
  | nothingNew (pos : Nat) (old out : Fin n → W) (h : w ≤ pos) :
    PopMove cap w slots c ⟨pos, old, .idle⟩ (.pop out) ⟨pos, out, .ret false⟩ []
  | forward (pos : Nat) (old out : Fin n → W) (h : pos < w) :
    PopMove cap w slots c ⟨pos, old, .idle⟩ (.pop out) ⟨fastForward cap w pos, out, .loadSeq⟩ []
  | notReady (pos : Nat) (out : Fin n → W) (h : (slots (cap.slot pos)).sequence ≠ expected pos) :
    PopMove cap w slots c ⟨pos, out, .loadSeq⟩ .check ⟨pos, out, .ret false⟩ []
  | isReady (pos : Nat) (out : Fin n → W) (h : (slots (cap.slot pos)).sequence = expected pos) :
    PopMove cap w slots c ⟨pos, out, .loadSeq⟩ .check ⟨pos, out, .copy fun _ => false⟩ []
  | read (pos : Nat) (out : Fin n → W) (copied : Fin n → Bool) (i : Fin n) :
    PopMove cap w slots c ⟨pos, out, .copy copied⟩ (.read i)
      ⟨pos, Function.update out i ((slots (cap.slot pos)).data i),
        .copy (Function.update copied i true)⟩ []
  | torn (pos : Nat) (out : Fin n → W) (copied : Fin n → Bool) (hall : ∀ i, copied i = true)
      (h : (slots (cap.slot pos)).sequence ≠ expected pos) :
    PopMove cap w slots c ⟨pos, out, .copy copied⟩ .recheck ⟨pos, out, .ret false⟩ []
  | taken (pos : Nat) (out : Fin n → W) (copied : Fin n → Bool) (hall : ∀ i, copied i = true)
      (h : (slots (cap.slot pos)).sequence = expected pos) :
    PopMove cap w slots c ⟨pos, out, .copy copied⟩ .recheck ⟨u64 (pos + 1), out, .ret true⟩ []
  | ret (pos : Nat) (out : Fin n → W) (ok : Bool) :
    PopMove cap w slots c ⟨pos, out, .ret ok⟩ .ret ⟨pos, out, .idle⟩ [.ret c ok pos out]

theorem popStep_eq_some {cap : Capacity} {w : Nat} {slots : Nat → Slot n W} {c : C}
    {x x' : Consumer n W} {a : PopAct n W} {o : List (Event P C n W)} :
    popStep cap w slots c x a = some (x', o) ↔ PopMove cap w slots c x a x' o := by
  constructor
  · intro hs
    obtain ⟨pos, out, pc⟩ := x
    cases a with
    | makeCursor =>
      simp only [popStep] at hs
      split at hs <;> cases hs
      exact .makeCursor pos out
    | makeCursorFromStart =>
      simp only [popStep] at hs
      split at hs <;> cases hs
      exact .makeCursorFromStart pos out
    | pop out' =>
      simp only [popStep] at hs
      split at hs
      · split_ifs at hs with hge <;> cases hs
        · exact .nothingNew pos out out' hge
        · exact .forward pos out out' (Nat.lt_of_not_le hge)
      · cases hs
    | check =>
      simp only [popStep] at hs
      split at hs
      · split_ifs at hs with hne <;> cases hs
        · exact .notReady pos out hne
        · exact .isReady pos out (not_not.1 hne)
      · cases hs
    | read i =>
      simp only [popStep] at hs
      split at hs <;> cases hs
      exact .read pos out _ i
    | recheck =>
      simp only [popStep] at hs
      split at hs
      · split_ifs at hs with hall hne <;> cases hs
        · exact .torn pos out _ hall hne
        · exact .taken pos out _ hall (not_not.1 hne)
      · cases hs
    | ret =>
      simp only [popStep] at hs
      split at hs <;> cases hs
      exact .ret pos out _
  · intro hm
    cases hm with
    | nothingNew pos old out h => simp [popStep, h]
    | forward pos old out h => simp [popStep, Nat.not_le.2 h]
    | notReady pos out h => simp [popStep, h]
    | isReady pos out h => simp [popStep, h]
    | torn pos out copied hall h => simp [popStep, hall, h]
    | taken pos out copied hall h => simp [popStep, hall, h]
    | _ => rfl

theorem step_prod_eq_some [DecidableEq P] [DecidableEq C] {beats : Bool} {cap : Capacity}
    {s s' : State P C n W} {p : P} {a : PushAct n W} {o : List (Event P C n W)} :
    step beats cap s (.prod p a) = some (s', o) ↔ PushMove beats cap s p a s' o :=
  pushStep_eq_some

theorem step_cons_eq_some [DecidableEq P] [DecidableEq C] {beats : Bool} {cap : Capacity}
    {s s' : State P C n W} {c : C} {a : PopAct n W} {o : List (Event P C n W)} :
    step beats cap s (.cons c a) = some (s', o) ↔
      ∃ x, PopMove cap s.writePos s.slots c (s.cons c) a x o ∧ s' = s.setCons c x := by
  simp only [step, Option.map_eq_some_iff, Prod.exists, Prod.mk.injEq]
  constructor
  · rintro ⟨x, o', hx, rfl, rfl⟩
    exact ⟨x, popStep_eq_some.1 hx, rfl⟩
  · rintro ⟨x, hx, rfl⟩
    exact ⟨x, o, popStep_eq_some.2 hx, rfl, rfl⟩

theorem le_fastForward (cap : Capacity) (w pos : Nat) : pos ≤ fastForward cap w pos := by
  unfold fastForward
  split <;> omega

theorem fastForward_lt (cap : Capacity) {w pos : Nat} (h : pos < w) : fastForward cap w pos < w := by
  have := cap.pos
  unfold fastForward
  split <;> omega

@[simp] theorem State.setProd_self [DecidableEq P] (s : State P C n W) (p : P) (pc : PushPc n W) :
    (s.setProd p pc).prod p = pc := Function.update_self _ _ _

section
variable [DecidableEq C] (s : State P C n W) (c c' : C) (x : Consumer n W)

@[simp] theorem State.setCons_self : (s.setCons c x).cons c = x := Function.update_self _ _ _
@[simp] theorem State.setCons_slots : (s.setCons c x).slots = s.slots := rfl
@[simp] theorem State.setCons_prod : (s.setCons c x).prod = s.prod := rfl
@[simp] theorem State.setCons_writePos : (s.setCons c x).writePos = s.writePos := rfl

variable {s c c' x} in
theorem State.setCons_of_ne (h : c' ≠ c) : (s.setCons c x).cons c' = s.cons c' :=
  Function.update_of_ne h _ _

end

end Lwipc.SpmcRing
