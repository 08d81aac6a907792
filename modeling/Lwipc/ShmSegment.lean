import Lwipc.Lib.Runs
import Lwipc.Lib.CString
import Mathlib.Logic.Function.Basic

/-!
# Names and segments of shared memory

The constructor and the destructor of `ShmRingBuffer` as the sequences of calls they make to the
system: a name is bound to a segment, a process has descriptors that refer to segments and mappings
of them. Unbinding a name leaves its segment to those who have it open. The system sees of a name what
`c_str()` shows of it, the bytes before the first NUL. Whether a call gets what it needs is an argument of it.
What the constructor writes into a new segment is the initial state of the ring.
-/

namespace Lwipc.ShmSegment

open CString

/-- A `std::string`. -/
abbrev Name := List Byte

structure Process where
  /-- open descriptors, with the segments they refer to -/
  fds : List (Nat × Nat)
  /-- mapped segments, one entry for each mapping -/
  maps : List Nat

structure Os where
  /-- the segments that names without NUL are bound to -/
  links : Name → Option Nat
  /-- the number of segments made so far, and the next one -/
  made : Nat
  procs : Nat → Process

/-- The smallest number that is not in use. -/
def lowest (used : List Nat) : Nat := ((List.range (used.length + 1)).find? (· ∉ used)).getD 0

namespace Os

def process (os : Os) (pid : Nat) (f : Process → Process) : Os :=
  { os with procs := Function.update os.procs pid (f (os.procs pid)) }

/-- What a name that is passed as a C string is bound to. -/
def bound (os : Os) (name : Name) : Option Nat := os.links (cstr name)

/-- `name` is bound to `seg`, or unbound. -/
def bind (os : Os) (name : Name) (seg : Option Nat) : Os :=
  { os with links := Function.update os.links (cstr name) seg }

def shmUnlink (os : Os) (name : Name) : Os := os.bind name none

/-- A new descriptor for a segment. -/
def openFd (os : Os) (pid seg : Nat) : Nat × Os :=
  let fd := lowest ((os.procs pid).fds.map Prod.fst)
  (fd, os.process pid fun p => { p with fds := (fd, seg) :: p.fds })

def close (os : Os) (pid fd : Nat) : Os :=
  os.process pid fun p => { p with fds := p.fds.filter (·.1 ≠ fd) }

/-- `shm_open`, with `O_CREAT` or without. -/
def shmOpen (os : Os) (pid : Nat) (name : Name) (create granted : Bool) : Option Nat × Os :=
  if granted then
    match os.bound name with
    | some seg => (os.openFd pid seg).map some id
    | none =>
      if create then
        let os' := { os.bind name (some os.made) with made := os.made + 1 }
        (os'.openFd pid os.made).map some id
      else (none, os)
  else (none, os)

/-- `mmap` of the segment a descriptor refers to. -/
def mmap (os : Os) (pid fd : Nat) (granted : Bool) : Option Nat × Os :=
  match (os.procs pid).fds.lookup fd, granted with
  | some seg, true => (some seg, os.process pid fun p => { p with maps := seg :: p.maps })
  | _, _ => (none, os)

def munmap (os : Os) (pid seg : Nat) : Os :=
  os.process pid fun p => { p with maps := p.maps.erase seg }

end Os

/-- `shm_exists`, called by process `pid`. -/
def shmExists (os : Os) (pid : Nat) (name : Name) : Bool × Os :=
  match os.shmOpen pid name false true with
  | (none, os') => (false, os')
  | (some fd, os') => (true, os'.close pid fd)

/-- A constructed `ShmRingBuffer` of process `pid`. -/
structure Ring where
  pid : Nat
  shmName : Name
  isOwner : Bool
  fd : Nat
  /-- the segment that `ctrl_` and `slots_` point into -/
  ctrl : Nat

/-- The exceptions of `open_shm`. -/
inductive Failure
  | create
  | truncate
  | attach
  | map
  deriving DecidableEq

/-- Which of the calls of `open_shm` get what they need. -/
structure Outcomes where
  opened : Bool
  truncated : Bool
  mapped : Bool
  deriving DecidableEq

def Outcomes.all : Outcomes := ⟨true, true, true⟩

/-- The part of `open_shm` after the descriptor was opened. -/
def mapShm (os : Os) (pid : Nat) (name : Name) (create : Bool) (fd : Nat) (out : Outcomes) :
    Except Failure Ring × Os :=
  match os.mmap pid fd out.mapped with
  | (none, os') => (.error .map, os')
  | (some seg, os') => (.ok ⟨pid, name, create, fd, seg⟩, os')

/-- The constructor. An exception leaves what was opened before it: there is no object yet. -/
def openShm (os : Os) (pid : Nat) (name : Name) (create : Bool) (out : Outcomes) :
    Except Failure Ring × Os :=
  if create then
    match (os.shmUnlink name).shmOpen pid name true out.opened with
    | (none, os') => (.error .create, os')
    | (some fd, os') =>
      if out.truncated then mapShm os' pid name create fd out else (.error .truncate, os')
  else
    match os.shmOpen pid name false out.opened with
    | (none, os') => (.error .attach, os')
    | (some fd, os') => mapShm os' pid name create fd out

/-- The destructor. -/
def Ring.destroy (r : Ring) (os : Os) : Os :=
  let os := (os.munmap r.pid r.ctrl).close r.pid r.fd
  if r.isOwner then os.shmUnlink r.shmName else os

/-! ### The objects of all processes -/

structure State where
  os : Os
  /-- the objects that are alive, under the numbers of their constructions -/
  rings : Nat → Option Ring
  constructed : Nat

inductive Act
  | construct (pid : Nat) (name : Name) (create : Bool) (out : Outcomes)
  | destroy (r : Nat)

inductive Event
  | constructed (r : Nat) (name : Name) (create : Bool)
  | threw (e : Failure)
  | destroyed (r : Nat)
  deriving DecidableEq

def step (s : State) : Act → Option (State × List Event)
  | .construct pid name create out =>
    match openShm s.os pid name create out with
    | (.ok ring, os) =>
      some (⟨os, Function.update s.rings s.constructed (some ring), s.constructed + 1⟩,
        [.constructed s.constructed name create])
    | (.error e, os) => some ({ s with os := os }, [.threw e])
  | .destroy r =>
    (s.rings r).map fun ring =>
      ({ s with os := ring.destroy s.os, rings := Function.update s.rings r none }, [.destroyed r])

def machine : Machine State Act Event :=
  ⟨⟨⟨fun _ => none, 0, fun _ => ⟨[], []⟩⟩, fun _ => none, 0⟩, step⟩

/-- All calls to the system get what they need. -/
def Succeeds (_ : List Event) (_ : State) : Act → Prop
  | .construct _ _ _ out => out = .all
  | .destroy _ => True

def Event.owner (name : Name) (latest : Option Nat) : Event → Option Nat
  | .constructed r name' create => if cstr name' = cstr name ∧ create = true then some r else latest
  | _ => latest

/-- The most recently created owner for a name; names that `c_str()` does not tell apart are one. -/
def latestOwner (tr : List Event) (name : Name) : Option Nat := tr.foldl (Event.owner name) none

/-- As long as the most recent owner for a name is alive, the name leads to its segment. -/
def Attachable (tr : List Event) (s : State) : Prop :=
  ∀ name r, latestOwner tr name = some r → .destroyed r ∉ tr →
    ∃ ring, s.rings r = some ring ∧ ∀ pid, (shmExists s.os pid name).1 = true ∧
      ∃ ring' os', openShm s.os pid name false .all = (.ok ring', os') ∧ ring'.ctrl = ring.ctrl

/-- An owner is destroyed only when it is the most recently created one for its name, or that one has been
destroyed. -/
def Considerate (tr : List Event) (s : State) : Act → Prop
  | .construct _ _ _ _ => True
  | .destroy r => ∀ ring, s.rings r = some ring → ring.isOwner = true →
      ∀ r', latestOwner tr ring.shmName = some r' → .destroyed r' ∉ tr → r' = r

instance (tr : List Event) (s : State) : DecidablePred (Succeeds tr s)
  | .construct _ _ _ out => inferInstanceAs (Decidable (out = .all))
  | .destroy _ => .isTrue trivial

instance (tr : List Event) (s : State) : DecidablePred (Considerate tr s)
  | .construct _ _ _ _ => .isTrue trivial
  | .destroy r => inferInstanceAs (Decidable (∀ ring ∈ s.rings r, ring.isOwner = true →
      ∀ r' ∈ latestOwner tr ring.shmName, .destroyed r' ∉ tr → r' = r))

/-! ### The calls -/

variable {os os' : Os} {pid fd seg : Nat} {name : Name} {ring : Ring}

theorem openFd_lookup (os : Os) (pid seg : Nat) :
    ((os.openFd pid seg).2.procs pid).fds.lookup (os.openFd pid seg).1 = some seg := by
  simp [Os.openFd, Os.process]

theorem mapShm_all (name : Name) (create : Bool) (h : (os.procs pid).fds.lookup fd = some seg) :
    ∃ os', mapShm os pid name create fd .all = (.ok ⟨pid, name, create, fd, seg⟩, os') ∧
      os'.bound = os.bound := by
  unfold mapShm Os.mmap
  rw [h]
  exact ⟨_, rfl, rfl⟩

@[simp] theorem bind_bound (os : Os) (name : Name) (seg : Option Nat) : (os.bind name seg).bound name = seg :=
  Function.update_self _ _ _

theorem bind_bound_of_ne {name' : Name} (h : cstr name' ≠ cstr name) (seg : Option Nat) :
    (os.bind name seg).bound name' = os.bound name' :=
  Function.update_of_ne h _ _

theorem bound_congr {name' : Name} (h : cstr name' = cstr name) : os.bound name' = os.bound name :=
  congrArg os.links h

/-- The `shm_open` of a creation finds the name unbound. -/
theorem shmOpen_unlinked (os : Os) (pid : Nat) (name : Name) : (os.shmUnlink name).shmOpen pid name true true =
    (Os.openFd { os.bind name (some os.made) with made := os.made + 1 } pid os.made).map some id := by
  have hnone : (os.shmUnlink name).bound name = none := bind_bound os name none
  have hbind : (os.shmUnlink name).bind name (some os.made) = os.bind name (some os.made) := by
    simp [Os.shmUnlink, Os.bind]
  simp only [Os.shmOpen, hnone, if_true, ← hbind]
  rfl

theorem openShm_attach (pid : Nat) (h : os.bound name = some seg) : ∃ ring os',
    openShm os pid name false .all = (.ok ring, os') ∧ ring.shmName = name ∧ ring.isOwner = false ∧
      ring.ctrl = seg ∧ os'.bound = os.bound := by
  obtain ⟨os', ho, hb⟩ := mapShm_all name false (openFd_lookup os pid seg)
  refine ⟨_, os', Eq.trans ?_ ho, rfl, rfl, rfl, hb⟩
  simp [openShm, Os.shmOpen, Outcomes.all, h, Prod.map]

theorem openShm_attach_unbound (h : os.bound name = none) :
    openShm os pid name false .all = (.error .attach, os) := by
  simp [openShm, Os.shmOpen, Outcomes.all, h]

theorem openShm_create (os : Os) (pid : Nat) (name : Name) : ∃ ring os',
    openShm os pid name true .all = (.ok ring, os') ∧ ring.shmName = name ∧ ring.isOwner = true ∧
      ring.ctrl = os.made ∧ os'.bound = (os.bind name (some os.made)).bound := by
  obtain ⟨os', ho, hb⟩ := mapShm_all name true (openFd_lookup
    { os.bind name (some os.made) with made := os.made + 1 } pid os.made)
  refine ⟨_, os', Eq.trans ?_ ho, rfl, rfl, rfl, hb⟩
  simp [openShm, shmOpen_unlinked, Outcomes.all, Prod.map]

theorem shmExists_eq (os : Os) (pid : Nat) (name : Name) :
    (shmExists os pid name).1 = (os.bound name).isSome := by
  unfold shmExists Os.shmOpen
  cases os.bound name <;> rfl

theorem bound_destroy (r : Ring) (os : Os) :
    (r.destroy os).bound = if r.isOwner then (os.bind r.shmName none).bound else os.bound := by
  unfold Ring.destroy
  split <;> rfl

/-! ### Runs -/

variable {tr : List Event} {s s' : State} {r : Nat} {o : List Event} {a : Act}

/-- What a construction or a destruction does when all calls get what they need. -/
theorem step_cases (hok : Succeeds tr s a) (hs : step s a = some (s', o)) :
    (∃ pid name create ring, a = .construct pid name create .all ∧
      ring.shmName = name ∧ ring.isOwner = create ∧ o = [.constructed s.constructed name create] ∧
      s'.rings = Function.update s.rings s.constructed (some ring) ∧
      s'.constructed = s.constructed + 1 ∧
      s'.os.bound = if create then (s.os.bind name (some ring.ctrl)).bound else s.os.bound) ∨
    (∃ pid name, a = .construct pid name false .all ∧ s' = s ∧ o = [.threw .attach]) ∨
    (∃ r ring, a = .destroy r ∧ s.rings r = some ring ∧ o = [.destroyed r] ∧
      s'.rings = Function.update s.rings r none ∧ s'.constructed = s.constructed ∧
      s'.os.bound = if ring.isOwner then (s.os.bind ring.shmName none).bound else s.os.bound) := by
  cases a with
  | construct pid name create out =>
    obtain rfl : out = .all := hok
    simp only [step] at hs
    cases create with
    | true =>
      obtain ⟨ring, os', ho, hn, howner, hctrl, hb⟩ := openShm_create s.os pid name
      rw [ho] at hs
      obtain ⟨rfl, rfl⟩ := Prod.mk.inj (Option.some.inj hs)
      exact .inl ⟨pid, name, true, ring, rfl, hn, howner, rfl, rfl, rfl, by rw [if_pos rfl, hb, hctrl]⟩
    | false =>
      cases hb : s.os.bound name with
      | some seg =>
        obtain ⟨ring, os', ho, hn, howner, -, hb'⟩ := openShm_attach pid hb
        rw [ho] at hs
        obtain ⟨rfl, rfl⟩ := Prod.mk.inj (Option.some.inj hs)
        exact .inl ⟨pid, name, false, ring, rfl, hn, howner, rfl, rfl, rfl, hb'⟩
      | none =>
        rw [openShm_attach_unbound hb] at hs
        obtain ⟨rfl, rfl⟩ := Prod.mk.inj (Option.some.inj hs)
        exact .inr (.inl ⟨pid, name, rfl, rfl, rfl⟩)
  | destroy r =>
    obtain ⟨ring, hr, heq⟩ := Option.map_eq_some_iff.1 hs
    obtain ⟨rfl, rfl⟩ := Prod.mk.inj heq
    exact .inr (.inr ⟨r, ring, rfl, hr, rfl, rfl, rfl, bound_destroy ring s.os⟩)

theorem latestOwner_snoc (ev : Event) :
    latestOwner (tr ++ [ev]) name = ev.owner name (latestOwner tr name) := by
  unfold latestOwner
  rw [List.foldl_append]
  rfl

theorem latestOwner_congr {name' : Name} (h : cstr name' = cstr name) :
    latestOwner tr name' = latestOwner tr name := by
  have howner : Event.owner name' = Event.owner name := by
    funext latest ev
    unfold Event.owner
    rw [h]
  rw [latestOwner, latestOwner, howner]

/-- The objects alive are those of the history. -/
structure Inv (tr : List Event) (s : State) : Prop where
  alive : ∀ r, (∃ ring, s.rings r = some ring) ↔ r < s.constructed ∧ .destroyed r ∉ tr
  destroyed : ∀ r, .destroyed r ∈ tr → r < s.constructed
  latest : ∀ name r, latestOwner tr name = some r → r < s.constructed ∧
    ∀ ring, s.rings r = some ring → cstr ring.shmName = cstr name ∧ ring.isOwner = true

theorem Inv.step (h : Inv tr s) (hok : Succeeds tr s a) (hs : ShmSegment.step s a = some (s', o)) :
    Inv (tr ++ o) s' := by
  rcases step_cases hok hs with ⟨pid, name, create, ring, -, hn, howner, rfl, hrings, hcon, -⟩ |
    ⟨pid, name, -, rfl, rfl⟩ | ⟨r, ring, -, hr, rfl, hrings, hcon, -⟩
  · have hnew : Event.destroyed s.constructed ∉ tr := fun hd => Nat.lt_irrefl _ (h.destroyed _ hd)
    refine ⟨fun r => ?_, fun r hd => ?_, fun name' r hl => ?_⟩
    · rw [hrings, hcon]
      by_cases hr : r = s.constructed
      · subst hr
        simpa using hnew
      · have hlt : r < s.constructed + 1 ↔ r < s.constructed := by omega
        rw [Function.update_of_ne hr, h.alive r, hlt]
        simp
    · rw [hcon]
      exact Nat.lt_succ_of_lt (h.destroyed r (by simpa using hd))
    · rw [latestOwner_snoc, Event.owner] at hl
      rw [hrings, hcon]
      split at hl
      · rename_i hc
        obtain rfl := Option.some.inj hl
        refine ⟨Nat.lt_succ_self _, fun ring' hr => ?_⟩
        rw [Function.update_self] at hr
        obtain rfl := Option.some.inj hr
        exact ⟨(congrArg cstr hn).trans hc.1, howner.trans hc.2⟩
      · have hlt := (h.latest name' r hl).1
        refine ⟨Nat.lt_succ_of_lt hlt, fun ring' hr => (h.latest name' r hl).2 ring' ?_⟩
        rwa [Function.update_of_ne (Nat.ne_of_lt hlt)] at hr
  · refine ⟨fun r => ?_, fun r hd => h.destroyed r (by simpa using hd), fun name' r hl => ?_⟩
    · rw [h.alive r]
      simp
    · rw [latestOwner_snoc] at hl
      exact h.latest name' r hl
  · have hlt : r < s.constructed := ((h.alive r).1 ⟨ring, hr⟩).1
    refine ⟨fun r' => ?_, fun r' hd => ?_, fun name' r' hl => ?_⟩
    · rw [hrings, hcon]
      by_cases hr' : r' = r
      · subst hr'
        simp
      · rw [Function.update_of_ne hr', h.alive r']
        simp [hr']
    · rw [hcon]
      rcases List.mem_append.1 hd with hd | hd
      · exact h.destroyed r' hd
      · obtain rfl : r' = r := by simpa using hd
        exact hlt
    · rw [latestOwner_snoc] at hl
      rw [hrings, hcon]
      refine ⟨(h.latest name' r' hl).1, fun ring' hr' => (h.latest name' r' hl).2 ring' ?_⟩
      by_cases heq : r' = r
      · rw [heq, Function.update_self] at hr'
        cases hr'
      · rwa [Function.update_of_ne heq] at hr'

theorem Inv.of_runs (h : machine.Runs Succeeds tr s) : Inv tr s := by
  refine h.invariant (I := Inv) ⟨fun r => ?_, nofun, nofun⟩ fun _ _ _ _ _ ih hok hs => ih.step hok hs
  exact iff_of_false (by rintro ⟨ring, hr⟩; cases hr) fun hlt => Nat.not_lt_zero r hlt.1

/-- The names of live latest owners are bound to their segments. -/
def Leads (tr : List Event) (s : State) : Prop :=
  ∀ name r ring, latestOwner tr name = some r → s.rings r = some ring → s.os.bound name = some ring.ctrl

theorem attachable_iff (h : Inv tr s) : Attachable tr s ↔ Leads tr s := by
  constructor
  · intro ha name r ring hl hr
    obtain ⟨ring', hr', hpid⟩ := ha name r hl ((h.alive r).1 ⟨ring, hr⟩).2
    obtain rfl : ring' = ring := Option.some.inj (hr'.symm.trans hr)
    obtain ⟨hex, ring₂, os₂, ho, hctrl⟩ := hpid 0
    rw [shmExists_eq] at hex
    obtain ⟨seg, hseg⟩ := Option.isSome_iff_exists.1 hex
    obtain ⟨ring₃, os₃, ho', -, -, hctrl', -⟩ := openShm_attach 0 hseg
    obtain rfl : ring₂ = ring₃ := by
      rw [ho] at ho'
      exact Except.ok.inj (Prod.mk.inj ho').1
    rw [hseg, ← hctrl, hctrl']
  · intro hl name r hlatest hd
    obtain ⟨ring, hr⟩ := (h.alive r).2 ⟨(h.latest name r hlatest).1, hd⟩
    have hb := hl name r ring hlatest hr
    refine ⟨ring, hr, fun pid => ⟨by rw [shmExists_eq, hb]; rfl, ?_⟩⟩
    obtain ⟨ring', os', ho, -, -, hctrl, -⟩ := openShm_attach pid hb
    exact ⟨ring', os', ho, hctrl⟩

/-- A step keeps the names of the live owners bound if and only if it does not destroy an owner that
has a live successor. -/
theorem leads_step_iff (h : Inv tr s) (hl : Leads tr s) (hok : Succeeds tr s a)
    (hs : step s a = some (s', o)) : Leads (tr ++ o) s' ↔ Considerate tr s a := by
  rcases step_cases hok hs with ⟨pid, name, create, ring, rfl, -, -, rfl, hrings, -, hb⟩ |
    ⟨pid, name, rfl, rfl, rfl⟩ | ⟨r, ring, rfl, hr, rfl, hrings, -, hb⟩
  · refine iff_of_true (fun name' r ring' hl' hr => ?_) trivial
    rw [latestOwner_snoc, Event.owner] at hl'
    rw [hrings] at hr
    rw [hb]
    split at hl'
    · rename_i hc
      obtain ⟨hname, rfl⟩ := hc
      obtain rfl := Option.some.inj hl'
      rw [Function.update_self] at hr
      rw [if_pos rfl, bound_congr hname.symm, bind_bound, Option.some.inj hr]
    · rename_i hc
      have hlt := (h.latest name' r hl').1
      rw [Function.update_of_ne (Nat.ne_of_lt hlt)] at hr
      rw [← hl name' r ring' hl' hr]
      cases create with
      | true =>
        have hne : cstr name' ≠ cstr name := fun heq => hc ⟨heq.symm, rfl⟩
        rw [if_pos rfl, bind_bound_of_ne hne]
      | false => rfl
  · refine iff_of_true (fun name' r ring' hl' hr => ?_) trivial
    rw [latestOwner_snoc] at hl'
    exact hl name' r ring' hl' hr
  · constructor
    · intro hafter ring₁ hr₁ howner r' hl' hd
      obtain rfl : ring₁ = ring := Option.some.inj (hr₁.symm.trans hr)
      by_contra hne
      obtain ⟨ring', hr'⟩ := (h.alive r').2 ⟨(h.latest _ r' hl').1, hd⟩
      have hbound := hafter ring₁.shmName r' ring' (by rw [latestOwner_snoc]; exact hl')
        (by rw [hrings, Function.update_of_ne hne]; exact hr')
      rw [hb, if_pos howner, bind_bound] at hbound
      cases hbound
    · intro hcons name' r' ring' hl' hr'
      rw [latestOwner_snoc] at hl'
      rw [hrings] at hr'
      have hne : r' ≠ r := by
        rintro rfl
        rw [Function.update_self] at hr'
        cases hr'
      rw [Function.update_of_ne hne] at hr'
      rw [hb, ← hl name' r' ring' hl' hr']
      split
      · rename_i howner
        refine bind_bound_of_ne (fun heq => hne ?_) _
        have hl' : latestOwner tr name' = some r' := hl'
        rw [latestOwner_congr heq] at hl'
        exact hcons ring hr howner r' hl' ((h.alive r').1 ⟨ring', hr'⟩).2
      · rfl

theorem leads_of_runs (h : machine.Runs (fun tr s a => Succeeds tr s a ∧ Considerate tr s a) tr s) :
    Inv tr s ∧ Leads tr s := by
  induction h with
  | init => exact ⟨Inv.of_runs .init, nofun⟩
  | step _ hok hs ih => exact ⟨ih.1.step hok.1 hs, (leads_step_iff ih.1 ih.2 hok.1 hs).2 hok.2⟩

/-- In every run in which an owner is destroyed only when it is the most recently created one for its name, or
that one has been destroyed, the most recently created owners can be attached to while they are alive; the
first step that does otherwise takes this away. -/
theorem live_owner_attachable
    (h : machine.Runs (fun tr s a => Succeeds tr s a ∧ Considerate tr s a) tr s) :
    Attachable tr s ∧ ∀ a s' o, Succeeds tr s a → machine.step s a = some (s', o) →
      (Attachable (tr ++ o) s' ↔ Considerate tr s a) := by
  obtain ⟨hinv, hl⟩ := leads_of_runs h
  refine ⟨(attachable_iff hinv).2 hl, fun a s' o hok hs => ?_⟩
  rw [attachable_iff (hinv.step hok hs)]
  exact leads_step_iff hinv hl hok hs

def lidarShm : Name := [0x2f, 0x6c, 0x69, 0x64, 0x61, 0x72]

/-- A second producer takes the name over while the first is alive. -/
def takeover : State × List Event :=
  (machine.exec machine.init
    [.construct 0 lidarShm true .all, .construct 1 lidarShm true .all]).getD (machine.init, [])

theorem takeover_runs :
    machine.Runs (fun tr s a => Succeeds tr s a ∧ Considerate tr s a) takeover.2 takeover.1 := by
  have h₁ : machine.Runs (fun tr s a => Succeeds tr s a ∧ Considerate tr s a) [] machine.init := .init
  have h₂ := h₁.step (a := Act.construct 0 lidarShm true .all) ⟨rfl, trivial⟩ rfl
  exact h₂.step (a := Act.construct 1 lidarShm true .all) ⟨rfl, trivial⟩ rfl

/-- A name that `c_str()` does not tell apart from `/lidar`. -/
def lidarShmNul : Name := lidarShm ++ [0, 0x61]

/-- The second producer goes first, then the one it had taken the name from, and a third one takes it. -/
theorem live_owner_attachable_restart : ∃ (tr : List Event) (s : State) (ring : Ring), s.rings 2 = some ring ∧
    .destroyed 1 ∈ tr ∧ .destroyed 0 ∈ tr ∧ (shmExists s.os 7 lidarShm).1 = true ∧
      ∃ ring' os', openShm s.os 7 lidarShm false .all = (.ok ring', os') ∧ ring'.ctrl = ring.ctrl := by
  let acts : List Act := [.construct 0 lidarShm true .all, .construct 1 lidarShmNul true .all, .destroy 1,
    .destroy 0, .construct 2 lidarShm true .all]
  have hrun : machine.Runs (fun tr s a => Succeeds tr s a ∧ Considerate tr s a) (machine.after acts).2
      (machine.after acts).1 := Machine.Runs.of_after (by decide +kernel) (by decide +kernel)
  obtain ⟨ring, hr, hpid⟩ :=
    (live_owner_attachable hrun).1 lidarShm 2 (by decide +kernel) (by decide +kernel)
  exact ⟨(machine.after acts).2, (machine.after acts).1, ring, hr, by decide +kernel, by decide +kernel, hpid 7⟩

/-- When the first producer is destroyed then, the name is gone although the second is alive. -/
theorem replaced_owner_unlinks : ¬ ∀ tr s, machine.Runs Succeeds tr s → Attachable tr s := by
  intro h
  have hrun := (takeover_runs.mono (fun _ _ _ _ _ hok _ => hok.1)).step (a := Act.destroy 0) trivial rfl
  obtain ⟨ring, -, hpid⟩ := h _ _ hrun lidarShm 1 (by decide) (by decide)
  exact absurd (hpid 0).1 (by decide)

end Lwipc.ShmSegment
