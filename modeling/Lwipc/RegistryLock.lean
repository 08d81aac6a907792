import Lwipc.ChannelRegistry

/-!
# The registry under its spinlock

`ChannelRegistry.machine` takes every operation as one step. Here a step is one access to the shared
segment: an exchange on the lock word, a load of one byte of a name, a store to one field. The
lock is held by `register_channel` and `unregister_channel` only; `touch`, `contains` and `list` go through the
table while it is being written. The compiler may order the stores and loads of an assignment of a whole
entry as it likes, so these are made in any order, and those of `register_channel` too.
-/

namespace Lwipc.RegistryLock

open CString ChannelRegistry

/-- A call that looks for a name. -/
inductive Op
  | register (name : List Byte) (msgType sensorId : BitVec 16) (pid : BitVec 32)
  | unregister (name : List Byte)
  | touch (name : List Byte)
  | contains (name : List Byte)
  deriving DecidableEq

inductive Res
  | registered (ok : Bool)
  | unit
  | found (b : Bool)
  deriving DecidableEq

def Op.name : Op → List Byte
  | .register name _ _ _ | .unregister name | .touch name | .contains name => name

/-- The operation has a `SpinLockGuard`. -/
def Op.locks : Op → Bool
  | .register .. | .unregister _ => true
  | .touch _ | .contains _ => false

/-- What is stored or loaded at once. -/
inductive Cell
  | name (k : Fin 64)
  | msgType
  | sensorId
  | producerPid
  | createdNs
  | heartbeatNs
  deriving DecidableEq

/-- The cells of an entry. -/
def cells : List Cell :=
  (List.finRange 64).map .name ++ [.msgType, .sensorId, .producerPid, .createdNs, .heartbeatNs]

/-- One cell of `src` is copied to `dst`. -/
def setCell (dst src : ChannelEntry) : Cell → ChannelEntry
  | .name k => { dst with
      name := dst.name.set k (src.name.getD k 0)
      size := (List.length_set).trans dst.size }
  | .msgType => { dst with msgType := src.msgType }
  | .sensorId => { dst with sensorId := src.sensorId }
  | .producerPid => { dst with producerPid := src.producerPid }
  | .createdNs => { dst with createdNs := src.createdNs }
  | .heartbeatNs => { dst with heartbeatNs := src.heartbeatNs }

/-- The access a thread performs next: the exchange of the guard; the load of `name[0]` by `active()` in the
first loop over the table; the load of `name[k]` by `strncmp`; the load of `name[0]` by `active()` in the
second loop of `register_channel`; a store of the cells left of an assignment; the store to `heartbeat_ns`;
the store of the guard's destructor; the load of `name[0]` in `list`; a load of the cells left of an entry that
`list` copies; or the return of an operation or of `list`. -/
inductive Pc
  | idle
  | lock (op : Op)
  | active (op : Op) (i : Fin kMaxChannels)
  | compare (op : Op) (i : Fin kMaxChannels) (k : Nat)
  | free (name : List Byte) (msgType sensorId : BitVec 16) (pid : BitVec 32) (i : Fin kMaxChannels)
  | write (op : Op) (i : Fin kMaxChannels) (src : ChannelEntry) (todo : List Cell)
  | beat (op : Op) (i : Fin kMaxChannels)
  | unlock (op : Op) (r : Res)
  | listing (i : Fin kMaxChannels) (acc : List ChannelEntry)
  | copy (i : Fin kMaxChannels) (e : ChannelEntry) (todo : List Cell) (acc : List ChannelEntry)
  | done (op : Op) (r : Res)
  | listed (l : List ChannelEntry)
  deriving DecidableEq

structure State (τ : Type) where
  /-- 0 is free, 1 is locked -/
  lock : Nat
  table : Table
  pc : τ → Pc

inductive Act (τ : Type)
  | call (t : τ) (op : Op)
  | list (t : τ)
  /-- the next access; `now` is what the clock says, should it be asked -/
  | run (t : τ) (now : BitVec 64)
  /-- a store or load of a thread that has several to make -/
  | cell (t : τ) (c : Cell)
  /-- an exchange that fails although the lock is free -/
  | spurious (t : τ)

def first : Fin kMaxChannels := ⟨0, by decide⟩

/-- The entry after `i`, if there is one. -/
def next (i : Fin kMaxChannels) : Option (Fin kMaxChannels) :=
  if h : i.val + 1 < kMaxChannels then some ⟨i.val + 1, h⟩ else none

/-- The first loop goes on behind entry `i`. -/
def scan (op : Op) (i : Fin kMaxChannels) : Pc :=
  match next i with
  | some j => .active op j
  | none =>
    match op with
    | .register name msgType sensorId pid => .free name msgType sensorId pid first
    | .unregister _ => .unlock op .unit
    | .touch _ => .done op .unit
    | .contains _ => .done op (.found false)

/-- The first loop has found the name in entry `i`. -/
def hit (op : Op) (i : Fin kMaxChannels) : Pc :=
  match op with
  | .register .. | .touch _ => .beat op i
  | .unregister _ => .write op i .default cells
  | .contains _ => .done op (.found true)

/-- What an operation that has stored its entry returns. -/
def Op.stored : Op → Res
  | .register .. => .registered true
  | _ => .unit

/-- The loop of `list` goes on behind entry `i`. -/
def listNext (i : Fin kMaxChannels) (acc : List ChannelEntry) : Pc :=
  match next i with
  | some j => .listing j acc
  | none => .listed acc

variable {τ : Type} [DecidableEq τ]

def State.setPc (s : State τ) (t : τ) (pc : Pc) : State τ :=
  { s with pc := Function.update s.pc t pc }

def State.setEntry (s : State τ) (i : Fin kMaxChannels) (e : ChannelEntry) : State τ :=
  { s with table := Function.update s.table i e }

/-- The next access of a thread, by where it stands. -/
def runStep (s : State τ) (t : τ) (now : BitVec 64) : Pc → Option (State τ)
  | .idle => none
  | .lock op =>
    if s.lock = 0 then some (State.setPc { s with lock := 1 } t (.active op first)) else some s
  | .active op i =>
    if (s.table i).active then some (s.setPc t (.compare op i 0)) else some (s.setPc t (scan op i))
  | .compare op i k =>
    let a := (s.table i).name.getD k 0
    if a ≠ op.name.getD k 0 then some (s.setPc t (scan op i))
    else if a = 0 ∨ k + 1 = 63 then some (s.setPc t (hit op i))
    else some (s.setPc t (.compare op i (k + 1)))
  | .free name msgType sensorId pid i =>
    if (s.table i).active then
      match next i with
      | some j => some (s.setPc t (.free name msgType sensorId pid j))
      | none => some (s.setPc t (.unlock (.register name msgType sensorId pid) (.registered false)))
    else
      some (s.setPc t (.write (.register name msgType sensorId pid) i
        ((s.table i).fill name msgType sensorId pid now) cells))
  | .beat op i =>
    some ((s.setEntry i ((s.table i).beat now)).setPc t
      (if op.locks then .unlock op (.registered true) else .done op .unit))
  | .unlock op r => some (State.setPc { s with lock := 0 } t (.done op r))
  | .listing i acc =>
    if (s.table i).active then some (s.setPc t (.copy i .default cells acc))
    else some (s.setPc t (listNext i acc))
  | .write .. | .copy .. => none
  | .done _ _ | .listed _ => some (s.setPc t .idle)

/-- A store or load of one cell. -/
def cellStep (s : State τ) (t : τ) (c : Cell) : Pc → Option (State τ)
  | .write op i src todo =>
    if c ∈ todo then
      let rest := todo.filter (· ≠ c)
      some ((s.setEntry i (setCell (s.table i) src c)).setPc t
        (if rest = [] then .unlock op op.stored else .write op i src rest))
    else none
  | .copy i e todo acc =>
    if c ∈ todo then
      let rest := todo.filter (· ≠ c)
      let e' := setCell e (s.table i) c
      some (s.setPc t (if rest = [] then listNext i (acc ++ [e']) else .copy i e' rest acc))
    else none
  | _ => none

def step (s : State τ) : Act τ → Option (State τ × List Empty)
  | .call t op =>
    match s.pc t with
    | .idle => some (s.setPc t (if op.locks then .lock op else .active op first), [])
    | _ => none
  | .list t =>
    match s.pc t with
    | .idle => some (s.setPc t (.listing first []), [])
    | _ => none
  | .run t now => (runStep s t now (s.pc t)).map fun s' => (s', [])
  | .cell t c => (cellStep s t c (s.pc t)).map fun s' => (s', [])
  | .spurious t =>
    match s.pc t with
    | .lock _ => some (s, [])
    | _ => none

/-- Threads of any number of processes that have mapped the segment, which is zero when it is created. -/
def machine : Machine (State τ) (Act τ) Empty := ⟨⟨0, fun _ => .default, fun _ => .idle⟩, step⟩

end Lwipc.RegistryLock
