import Lwipc.Lib.Runs
import Lwipc.Lib.CString
import Mathlib.Data.Set.Card
import Mathlib.Data.Fintype.EquivFin

/-!
# The channel registry

A table of 64 entries in shared memory. The operations are those of objects that have mapped the
segment, each taken as one step; the clock and the process id are arguments. A name is stored and
compared up to its first 63 bytes, so these are what identifies a channel.
-/

namespace Lwipc.ChannelRegistry

open CString

def kMaxChannels : Nat := 64

structure ChannelEntry where
  /-- the array `name` -/
  name : List Byte
  size : name.length = 64
  msgType : BitVec 16
  sensorId : BitVec 16
  producerPid : BitVec 32
  createdNs : BitVec 64
  heartbeatNs : BitVec 64
  deriving DecidableEq

namespace ChannelEntry

/-- `ChannelEntry{}`, and an entry of a zero-filled table. -/
def default : ChannelEntry := ⟨List.replicate 64 0, rfl, 0, 0, 0, 0, 0⟩

def active (e : ChannelEntry) : Bool := e.name.headD 0 ≠ 0

/-- The test by which all operations look for a channel. -/
def named (e : ChannelEntry) (channelName : List Byte) : Bool :=
  e.active && strncmp e.name channelName 63 == 0

def beat (e : ChannelEntry) (now : BitVec 64) : ChannelEntry := { e with heartbeatNs := now }

/-- What `register_channel` makes of a free entry. -/
def fill (e : ChannelEntry) (channelName : List Byte) (msgType sensorId : BitVec 16)
    (pid : BitVec 32) (now : BitVec 64) : ChannelEntry where
  name := (strncpy e.name channelName 63).set 63 0
  size := by rw [List.length_set, length_strncpy (by rw [e.size]; decide), e.size]
  msgType := msgType
  sensorId := sensorId
  producerPid := pid
  createdNs := now
  heartbeatNs := now

end ChannelEntry

abbrev Table := Fin kMaxChannels → ChannelEntry

namespace Table

/-- The first entry with a property. -/
def find (t : Table) (p : ChannelEntry → Bool) : Option (Fin kMaxChannels) :=
  (List.finRange kMaxChannels).find? fun i => p (t i)

def registerChannel (t : Table) (channelName : List Byte) (msgType sensorId : BitVec 16)
    (pid : BitVec 32) (now : BitVec 64) : Table × Bool :=
  match t.find (·.named channelName) with
  | some i => (Function.update t i ((t i).beat now), true)
  | none =>
    match t.find (!·.active) with
    | some i => (Function.update t i ((t i).fill channelName msgType sensorId pid now), true)
    | none => (t, false)

def unregisterChannel (t : Table) (channelName : List Byte) : Table :=
  match t.find (·.named channelName) with
  | some i => Function.update t i .default
  | none => t

def touch (t : Table) (channelName : List Byte) (now : BitVec 64) : Table :=
  match t.find (·.named channelName) with
  | some i => Function.update t i ((t i).beat now)
  | none => t

def list (t : Table) : List ChannelEntry := (List.ofFn t).filter (·.active)

/-- The overload of `list` with a type. -/
def listOf (t : Table) (type : BitVec 16) : List ChannelEntry := t.list.filter (·.msgType = type)

def contains (t : Table) (channelName : List Byte) : Bool := (t.find (·.named channelName)).isSome

end Table

inductive Act
  | register (name : List Byte) (msgType sensorId : BitVec 16) (pid : BitVec 32) (now : BitVec 64)
  | unregister (name : List Byte)
  | touch (name : List Byte) (now : BitVec 64)

inductive Event
  | register (name : List Byte) (msgType sensorId : BitVec 16) (ok : Bool)
  | unregister (name : List Byte)

def step (t : Table) : Act → Option (Table × List Event)
  | .register name msgType sensorId pid now =>
    let (t', ok) := t.registerChannel name msgType sensorId pid now
    some (t', [.register name msgType sensorId ok])
  | .unregister name => some (t.unregisterChannel name, [.unregister name])
  | .touch name now => some (t.touch name now, [])

def machine : Machine Table Act Event := ⟨fun _ => .default, step⟩

/-- A name without the terminator in it. -/
def Proper (name : List Byte) : Prop := name ≠ [] ∧ 0 ∉ name

instance (name : List Byte) : Decidable (Proper name) := inferInstanceAs (Decidable (_ ∧ _))

/-- The operations are called with proper names. -/
def ProperNames (_ : List Event) (_ : Table) : Act → Prop
  | .register name _ _ _ _ | .unregister name | .touch name _ => Proper name

/-- What identifies a channel. -/
def key (name : List Byte) : List Byte := name.take 63

/-! ### What the registry is for -/

structure ChannelInfo where
  msgType : BitVec 16
  sensorId : BitVec 16
  producerPid : BitVec 32
  createdNs : BitVec 64
  heartbeatNs : BitVec 64
  deriving DecidableEq

/-- The registry as its users see it: a partial map from keys. -/
abbrev Directory := List Byte → Option ChannelInfo

/-- The number of channels. -/
noncomputable def Directory.size (d : Directory) : Nat := {k | d k ≠ none}.ncard

def Directory.beat (d : Directory) (k : List Byte) (now : BitVec 64) : Directory :=
  Function.update d k ((d k).map fun x => { x with heartbeatNs := now })

/-- A registration: present channels get a heartbeat, others are entered while there is room. -/
noncomputable def Directory.register (d : Directory) (k : List Byte) (x : ChannelInfo) :
    Directory × Bool :=
  if d k ≠ none then (d.beat k x.heartbeatNs, true)
  else if d.size < kMaxChannels then (Function.update d k (some x), true)
  else (d, false)

def ChannelEntry.key (e : ChannelEntry) : List Byte := cstr e.name

def ChannelEntry.info (e : ChannelEntry) : ChannelInfo :=
  ⟨e.msgType, e.sensorId, e.producerPid, e.createdNs, e.heartbeatNs⟩

def Table.directory (t : Table) : Directory := fun k =>
  (t.find fun e => e.active && e.key = k).map fun i => (t i).info

/-- The type and the sensor with which the history has entered a channel that is still there. -/
def Event.apply (k : List Byte) (x : Option (BitVec 16 × BitVec 16)) : Event → Option (BitVec 16 × BitVec 16)
  | .register name msgType sensorId ok =>
    if ChannelRegistry.key name = k ∧ ok = true ∧ x = none then some (msgType, sensorId) else x
  | .unregister name => if ChannelRegistry.key name = k then none else x

def inserted (tr : List Event) (k : List Byte) : Option (BitVec 16 × BitVec 16) :=
  tr.foldl (Event.apply k) none

/-! ### Tables -/

/-- Stored names are terminated, and no channel is there twice. -/
structure WF (t : Table) : Prop where
  terminated : ∀ i, (t i).name[63]? = some 0
  unique : ∀ i j, (t i).active = true → (t j).active = true → (t i).key = (t j).key → i = j

variable {t : Table} {i : Fin kMaxChannels} {p : ChannelEntry → Bool} {e : ChannelEntry}
  {name k : List Byte} {msgType sensorId : BitVec 16} {pid : BitVec 32} {now : BitVec 64}

theorem find_some (h : t.find p = some i) : p (t i) = true :=
  List.find?_some (p := fun i => p (t i)) h

theorem find_none (h : t.find p = none) (i : Fin kMaxChannels) : p (t i) = false := by
  simpa using List.find?_eq_none.1 h i (List.mem_finRange i)

theorem find_ne_none (h : p (t i) = true) : ∃ j, t.find p = some j := by
  refine Option.ne_none_iff_exists'.1 fun hn => ?_
  rw [find_none hn i] at h
  cases h

theorem length_key_le (h : e.name[63]? = some 0) : e.key.length ≤ 63 := length_cstr_le h

theorem named_iff (h : e.name[63]? = some 0) (hn : Proper name) :
    e.named name = true ↔ e.active = true ∧ e.key = key name := by
  unfold ChannelEntry.named
  rw [Bool.and_eq_true, beq_iff_eq, strncmp_eq_zero_iff, cstr_eq_self hn.2]
  have hself : (cstr e.name).take 63 = e.key := List.take_of_length_le (length_key_le h)
  rw [hself]
  rfl

theorem key_fill (hn : Proper name) : (e.fill name msgType sensorId pid now).key = key name :=
  cstr_set_strncpy (by rw [e.size]; decide) hn.2

theorem terminated_fill : (e.fill name msgType sensorId pid now).name[63]? = some 0 := by
  have hlen : 63 < (strncpy e.name name 63).length := by
    rw [length_strncpy (by rw [e.size]; decide), e.size]
    decide
  exact List.getElem?_set_self hlen

theorem active_iff_key_ne_nil : e.active = true ↔ e.key ≠ [] := by
  unfold ChannelEntry.active ChannelEntry.key
  rw [decide_eq_true_iff, ← headD_cstr]
  cases hk : cstr e.name with
  | nil => simp
  | cons x l =>
    have hx : x ≠ 0 := by
      rintro rfl
      cases hn : e.name with
      | nil => rw [hn] at hk; cases hk
      | cons y m =>
        rw [hn, cstr_cons] at hk
        split at hk
        · cases hk
        · rename_i hy
          exact hy (List.cons.inj hk).1
    simpa using hx

theorem active_fill (hn : Proper name) : (e.fill name msgType sensorId pid now).active = true := by
  rw [active_iff_key_ne_nil, key_fill hn]
  unfold key
  rw [Ne, List.take_eq_nil_iff]
  exact fun h => h.elim (by decide) hn.1

@[simp] theorem active_default : ChannelEntry.default.active = false := by decide

/-! ### The directory of a table -/

theorem directory_eq_some_iff (h : WF t) {x : ChannelInfo} : t.directory k = some x ↔
    ∃ i, (t i).active = true ∧ (t i).key = k ∧ (t i).info = x := by
  unfold Table.directory
  rw [Option.map_eq_some_iff]
  constructor
  · rintro ⟨i, hi, hx⟩
    have hp := find_some hi
    simp only [Bool.and_eq_true, decide_eq_true_eq] at hp
    exact ⟨i, hp.1, hp.2, hx⟩
  · rintro ⟨i, ha, hk, hx⟩
    obtain ⟨j, hj⟩ := find_ne_none (t := t) (p := fun e => e.active && e.key = k) (i := i) (by simp [ha, hk])
    have hp := find_some hj
    simp only [Bool.and_eq_true, decide_eq_true_eq] at hp
    obtain rfl := h.unique i j ha hp.1 (hk.trans hp.2.symm)
    exact ⟨i, hj, hx⟩

theorem directory_ne_none_iff (h : WF t) : t.directory k ≠ none ↔
    ∃ i, (t i).active = true ∧ (t i).key = k := by
  rw [Option.ne_none_iff_exists']
  constructor
  · rintro ⟨x, hx⟩
    obtain ⟨i, ha, hk, -⟩ := (directory_eq_some_iff h).1 hx
    exact ⟨i, ha, hk⟩
  · rintro ⟨i, ha, hk⟩
    exact ⟨_, (directory_eq_some_iff h).2 ⟨i, ha, hk, rfl⟩⟩

theorem directory_ext {d : Directory} (h : WF t)
    (hd : ∀ k x, d k = some x ↔ ∃ i, (t i).active = true ∧ (t i).key = k ∧ (t i).info = x) :
    t.directory = d := by
  funext k
  refine Option.ext fun x => ?_
  rw [directory_eq_some_iff h, hd]

theorem find_named (h : WF t) (hn : Proper name) :
    (∃ i, t.find (·.named name) = some i ∧ (t i).active = true ∧ (t i).key = key name) ∨
      t.find (·.named name) = none ∧ t.directory (key name) = none := by
  cases hf : t.find (·.named name) with
  | some i =>
    exact .inl ⟨i, rfl, (named_iff (h.terminated i) hn).1 (find_some hf)⟩
  | none =>
    refine .inr ⟨rfl, ?_⟩
    by_contra hne
    obtain ⟨i, hi⟩ := (directory_ne_none_iff h).1 hne
    have hf' := find_none hf i
    rw [(named_iff (h.terminated i) hn).2 hi] at hf'
    cases hf'

theorem size_lt_iff (h : WF t) : t.directory.size < kMaxChannels ↔ ∃ i, (t i).active = false := by
  have himage : {k | t.directory k ≠ none} = (fun i => (t i).key) '' {i | (t i).active = true} := by
    ext k
    rw [Set.mem_ofPred_eq, directory_ne_none_iff h]
    exact Iff.rfl
  have hinj : Set.InjOn (fun i => (t i).key) {i | (t i).active = true} :=
    fun i hi j hj hij => h.unique i j hi hj hij
  unfold Directory.size
  rw [himage, hinj.ncard_image]
  have hall : (Set.univ : Set (Fin kMaxChannels)).ncard = kMaxChannels := by
    rw [Set.ncard_univ, Nat.card_eq_fintype_card, Fintype.card_fin]
  constructor
  · intro hlt
    by_contra hno
    have huniv : {i | (t i).active = true} = Set.univ :=
      Set.eq_univ_of_forall fun i => by simpa using fun hf => hno ⟨i, hf⟩
    rw [huniv, hall] at hlt
    exact Nat.lt_irrefl _ hlt
  · rintro ⟨i, hi⟩
    refine lt_of_lt_of_eq (Set.ncard_lt_ncard (Set.ssubset_univ_iff.2 fun huniv => ?_)
      (Set.toFinite _)) hall
    have htrue : i ∈ {i | (t i).active = true} := huniv.symm ▸ Set.mem_univ i
    exact absurd (hi.symm.trans htrue) (by decide)

/-! ### The operations -/

/-- A new entry with the key of the old one, or with one that no other entry has. -/
theorem WF.update (h : WF t) (hterm : e.name[63]? = some 0)
    (hkey : e.active = true → ∀ j, j ≠ i → (t j).active = true → (t j).key ≠ e.key) :
    WF (Function.update t i e) := by
  have hself : Function.update t i e i = e := Function.update_self _ _ _
  have hother : ∀ j, j ≠ i → Function.update t i e j = t j := fun j hj => Function.update_of_ne hj _ _
  refine ⟨fun j => ?_, fun j j' ha ha' heq => ?_⟩
  · by_cases hj : j = i
    · rw [hj, hself]; exact hterm
    · rw [hother j hj]; exact h.terminated j
  · by_cases hj : j = i <;> by_cases hj' : j' = i
    · rw [hj, hj']
    · subst hj
      rw [hself] at ha heq
      rw [hother j' hj'] at ha' heq
      exact absurd heq.symm (hkey ha j' hj' ha')
    · subst hj'
      rw [hself] at ha' heq
      rw [hother j hj] at ha heq
      exact absurd heq (hkey ha' j hj ha)
    · rw [hother j hj] at ha heq
      rw [hother j' hj'] at ha' heq
      exact h.unique j j' ha ha' heq

/-- The directory after an entry was replaced by one that is inactive or has the key `k`, the old one
having been inactive or of this key too. -/
theorem directory_update (h : WF t) (h' : WF (Function.update t i e))
    (hold : (t i).active = true → (t i).key = k) (hfree : (t i).active = false → t.directory k = none)
    (hnew : e.active = true → e.key = k) :
    Table.directory (Function.update t i e) =
      Function.update t.directory k (if e.active then some e.info else none) := by
  have hself : Function.update t i e i = e := Function.update_self _ _ _
  have hother : ∀ j, j ≠ i → Function.update t i e j = t j := fun j hj => Function.update_of_ne hj _ _
  -- no other entry has this key
  have halone : ∀ j, j ≠ i → (t j).active = true → (t j).key ≠ k := by
    intro j hj ha hk
    cases hact : (t i).active with
    | true => exact hj (h.unique j i ha hact (hk.trans (hold hact).symm))
    | false => exact (directory_ne_none_iff h).2 ⟨j, ha, hk⟩ (hfree hact)
  refine directory_ext h' fun k' x => ?_
  by_cases hk : k' = k
  · subst hk
    rw [Function.update_self]
    constructor
    · intro hx
      split at hx
      · rename_i ha
        exact ⟨i, by rw [hself]; exact ⟨ha, hnew ha, Option.some.inj hx⟩⟩
      · cases hx
    · rintro ⟨j, ha, hkey, hx⟩
      by_cases hj : j = i
      · subst hj
        rw [hself] at ha hx
        rw [if_pos ha, hx]
      · rw [hother j hj] at ha hkey
        exact absurd hkey (halone j hj ha)
  · rw [Function.update_of_ne hk, directory_eq_some_iff h]
    constructor
    · rintro ⟨j, ha, hkey, hx⟩
      have hj : j ≠ i := by
        rintro rfl
        exact hk (hkey.symm.trans (hold ha))
      exact ⟨j, by rw [hother j hj]; exact ⟨ha, hkey, hx⟩⟩
    · rintro ⟨j, ha, hkey, hx⟩
      have hj : j ≠ i := by
        rintro rfl
        rw [hself] at ha hkey
        exact hk (hkey.symm.trans (hnew ha))
      rw [hother j hj] at ha hkey hx
      exact ⟨j, ha, hkey, hx⟩

theorem registerChannel_cases (h : WF t) (hn : Proper name) :
    (∃ i, (t i).active = true ∧ (t i).key = key name ∧
      t.registerChannel name msgType sensorId pid now =
        (Function.update t i ((t i).beat now), true)) ∨
    (t.directory (key name) = none ∧ ∃ i, (t i).active = false ∧
      t.registerChannel name msgType sensorId pid now =
        (Function.update t i ((t i).fill name msgType sensorId pid now), true)) ∨
    (t.directory (key name) = none ∧ (∀ i, (t i).active = true) ∧
      t.registerChannel name msgType sensorId pid now = (t, false)) := by
  unfold Table.registerChannel
  rcases find_named h hn with ⟨i, hi, ha, hk⟩ | ⟨hf, hd⟩
  · exact .inl ⟨i, ha, hk, by rw [hi]⟩
  · rw [hf]
    cases hfree : t.find (!·.active) with
    | some i =>
      have hinact : (t i).active = false := by simpa using find_some hfree
      exact .inr (.inl ⟨hd, i, hinact, rfl⟩)
    | none =>
      exact .inr (.inr ⟨hd, fun i => by simpa using find_none hfree i, rfl⟩)

theorem touch_cases (h : WF t) (hn : Proper name) (now : BitVec 64) :
    (∃ i, (t i).active = true ∧ (t i).key = key name ∧
      t.touch name now = Function.update t i ((t i).beat now)) ∨
    (t.directory (key name) = none ∧ t.touch name now = t) := by
  unfold Table.touch
  rcases find_named h hn with ⟨i, hi, ha, hk⟩ | ⟨hf, hd⟩
  · exact .inl ⟨i, ha, hk, by rw [hi]⟩
  · exact .inr ⟨hd, by rw [hf]⟩

theorem unregisterChannel_cases (h : WF t) (hn : Proper name) :
    (∃ i, (t i).active = true ∧ (t i).key = key name ∧
      t.unregisterChannel name = Function.update t i .default) ∨
    (t.directory (key name) = none ∧ t.unregisterChannel name = t) := by
  unfold Table.unregisterChannel
  rcases find_named h hn with ⟨i, hi, ha, hk⟩ | ⟨hf, hd⟩
  · exact .inl ⟨i, ha, hk, by rw [hi]⟩
  · exact .inr ⟨hd, by rw [hf]⟩

theorem WF.beat (h : WF t) (ha : (t i).active = true) :
    WF (Function.update t i ((t i).beat now)) :=
  h.update (h.terminated i) fun _ j hj ha' heq => hj (h.unique j i ha' ha heq)

theorem directory_beat (h : WF t) (ha : (t i).active = true) (hk : (t i).key = k) :
    Table.directory (Function.update t i ((t i).beat now)) = t.directory.beat k now := by
  have hsome : t.directory k = some (t i).info := (directory_eq_some_iff h).2 ⟨i, ha, hk, rfl⟩
  have ha' : ((t i).beat now).active = true := ha
  have hwf : WF (Function.update t i ((t i).beat now)) := h.beat ha
  rw [directory_update (k := k) h hwf (fun _ => hk) (fun hf => by rw [ha] at hf; cases hf)
    (fun _ => hk), if_pos ha']
  unfold Directory.beat
  rw [hsome]
  rfl

theorem WF.fill (h : WF t) (hn : Proper name) (hd : t.directory (key name) = none) :
    WF (Function.update t i ((t i).fill name msgType sensorId pid now)) := by
  refine h.update terminated_fill fun _ j _ ha heq => ?_
  rw [key_fill hn] at heq
  exact (directory_ne_none_iff h).2 ⟨j, ha, heq⟩ hd

theorem directory_fill (h : WF t) (hn : Proper name) (hd : t.directory (key name) = none)
    (hi : (t i).active = false) :
    Table.directory (Function.update t i ((t i).fill name msgType sensorId pid now)) =
      Function.update t.directory (key name) (some ⟨msgType, sensorId, pid, now, now⟩) := by
  rw [directory_update h (h.fill hn hd) (fun ha => by rw [hi] at ha; cases ha) (fun _ => hd)
    (fun _ => key_fill hn), if_pos (active_fill hn)]
  rfl

theorem WF.clear (h : WF t) : WF (Function.update t i .default) :=
  h.update rfl fun ha => by rw [active_default] at ha; cases ha

theorem directory_clear (h : WF t) (ha : (t i).active = true) (hk : (t i).key = k) :
    Table.directory (Function.update t i .default) = Function.update t.directory k none := by
  rw [directory_update (k := k) h h.clear (fun _ => hk) (fun hf => by rw [ha] at hf; cases hf)
    (fun hf => by rw [active_default] at hf; cases hf), active_default]
  rfl

theorem WF.init : WF machine.init := by
  refine ⟨fun i => rfl, fun i j ha => ?_⟩
  rw [show (machine.init i).active = false from active_default] at ha
  cases ha

theorem WF.registerChannel (h : WF t) (hn : Proper name) :
    WF (t.registerChannel name msgType sensorId pid now).1 := by
  rcases registerChannel_cases h hn with ⟨i, ha, -, he⟩ | ⟨hd, i, -, he⟩ | ⟨-, -, he⟩ <;> rw [he]
  · exact h.beat ha
  · exact h.fill hn hd
  · exact h

theorem WF.touch (h : WF t) (hn : Proper name) : WF (t.touch name now) := by
  rcases touch_cases h hn now with ⟨i, ha, -, he⟩ | ⟨-, he⟩ <;> rw [he]
  · exact h.beat ha
  · exact h

theorem WF.unregisterChannel (h : WF t) (hn : Proper name) : WF (t.unregisterChannel name) := by
  rcases unregisterChannel_cases h hn with ⟨i, -, -, he⟩ | ⟨-, he⟩ <;> rw [he]
  · exact h.clear
  · exact h

theorem directory_registerChannel (h : WF t) (hn : Proper name) :
    Prod.map Table.directory id (t.registerChannel name msgType sensorId pid now) =
      t.directory.register (key name) ⟨msgType, sensorId, pid, now, now⟩ := by
  unfold Directory.register
  rcases registerChannel_cases h hn with ⟨i, ha, hk, he⟩ | ⟨hd, i, hi, he⟩ | ⟨hd, hfull, he⟩ <;> rw [he]
  · have hne : t.directory (key name) ≠ none := (directory_ne_none_iff h).2 ⟨i, ha, hk⟩
    rw [if_pos hne, Prod.map_apply, directory_beat h ha hk]
    rfl
  · rw [if_neg (by simp [hd]), if_pos ((size_lt_iff h).2 ⟨i, hi⟩), Prod.map_apply,
      directory_fill h hn hd hi]
    rfl
  · have hsize : ¬ t.directory.size < kMaxChannels := by
      rw [size_lt_iff h]
      rintro ⟨i, hi⟩
      exact absurd (hi.symm.trans (hfull i)) (by decide)
    rw [if_neg (by simp [hd]), if_neg hsize]
    rfl

theorem directory_touch (h : WF t) (hn : Proper name) :
    (t.touch name now).directory = t.directory.beat (key name) now := by
  rcases touch_cases h hn now with ⟨i, ha, hk, he⟩ | ⟨hd, he⟩ <;> rw [he]
  · exact directory_beat h ha hk
  · unfold Directory.beat
    rw [hd, Option.map_none, ← hd, Function.update_eq_self]

theorem directory_unregisterChannel (h : WF t) (hn : Proper name) :
    (t.unregisterChannel name).directory = Function.update t.directory (key name) none := by
  rcases unregisterChannel_cases h hn with ⟨i, ha, hk, he⟩ | ⟨hd, he⟩ <;> rw [he]
  · exact directory_clear h ha hk
  · rw [← hd, Function.update_eq_self]

theorem contains_iff (h : WF t) (hn : Proper name) :
    t.contains name = true ↔ t.directory (key name) ≠ none := by
  unfold Table.contains
  rcases find_named h hn with ⟨i, hi, ha, hk⟩ | ⟨hf, hd⟩
  · rw [hi]
    exact iff_of_true rfl ((directory_ne_none_iff h).2 ⟨i, ha, hk⟩)
  · rw [hf, hd]
    exact iff_of_false (by decide) (by simp)

/-! ### Runs -/

/-- A table with the history that led to it. -/
structure Inv (tr : List Event) (t : Table) : Prop where
  wf : WF t
  inserted : ∀ k, (t.directory k).map (fun x => (x.msgType, x.sensorId)) = inserted tr k

variable {tr : List Event}

theorem inserted_snoc (ev : Event) : inserted (tr ++ [ev]) k = ev.apply k (inserted tr k) := by
  unfold inserted
  rw [List.foldl_append]
  rfl

theorem map_beat (d : Directory) (k k' : List Byte) (now : BitVec 64) :
    (d.beat k now k').map (fun x => (x.msgType, x.sensorId)) =
      (d k').map fun x => (x.msgType, x.sensorId) := by
  unfold Directory.beat
  by_cases hk : k' = k
  · subst hk
    rw [Function.update_self, Option.map_map]
    rfl
  · rw [Function.update_of_ne hk]

theorem Inv.init : Inv [] machine.init := by
  refine ⟨WF.init, fun k => ?_⟩
  have hnone : machine.init.directory k = none := by
    by_contra hne
    obtain ⟨i, ha, -⟩ := (directory_ne_none_iff WF.init).1 hne
    rw [show (machine.init i).active = false from active_default] at ha
    cases ha
  rw [hnone]
  rfl

theorem Inv.register (h : Inv tr t) (hn : Proper name) :
    Inv (tr ++ [.register name msgType sensorId (t.registerChannel name msgType sensorId pid now).2])
      (t.registerChannel name msgType sensorId pid now).1 := by
  refine ⟨h.wf.registerChannel hn, fun k => ?_⟩
  rw [inserted_snoc, ← h.inserted k, Event.apply]
  rcases registerChannel_cases h.wf hn with ⟨i, ha, hk, he⟩ | ⟨hd, i, hi, he⟩ | ⟨hd, -, he⟩ <;> rw [he]
  · rw [directory_beat h.wf ha hk, map_beat, if_neg]
    rintro ⟨rfl, -, hnone⟩
    exact (directory_ne_none_iff h.wf).2 ⟨i, ha, hk⟩ (Option.map_eq_none_iff.1 hnone)
  · rw [directory_fill h.wf hn hd hi]
    by_cases hk : key name = k
    · subst hk
      rw [Function.update_self, if_pos ⟨rfl, rfl, by rw [hd]; rfl⟩]
      rfl
    · rw [Function.update_of_ne (Ne.symm hk), if_neg fun hc => hk hc.1]
  · rw [if_neg fun hc => Bool.false_ne_true hc.2.1]

theorem Inv.unregister (h : Inv tr t) (hn : Proper name) :
    Inv (tr ++ [.unregister name]) (t.unregisterChannel name) := by
  refine ⟨h.wf.unregisterChannel hn, fun k => ?_⟩
  rw [inserted_snoc, ← h.inserted k, directory_unregisterChannel h.wf hn, Event.apply]
  by_cases hk : key name = k
  · subst hk
    rw [Function.update_self, if_pos rfl]
    rfl
  · rw [Function.update_of_ne (Ne.symm hk), if_neg hk]

theorem Inv.touch (h : Inv tr t) (hn : Proper name) : Inv (tr ++ []) (t.touch name now) := by
  refine ⟨h.wf.touch hn, fun k => ?_⟩
  rw [List.append_nil, ← h.inserted k, directory_touch h.wf hn, map_beat]

theorem Inv.of_runs (h : machine.Runs ProperNames tr t) : Inv tr t := by
  refine h.invariant (I := Inv) Inv.init fun tr t a t' o ih hok hs => ?_
  cases a with
  | register name msgType sensorId pid now =>
    obtain ⟨rfl, rfl⟩ := Prod.mk.inj (Option.some.inj hs)
    exact ih.register hok
  | unregister name =>
    obtain ⟨rfl, rfl⟩ := Prod.mk.inj (Option.some.inj hs)
    exact ih.unregister hok
  | touch name now =>
    obtain ⟨rfl, rfl⟩ := Prod.mk.inj (Option.some.inj hs)
    exact ih.touch hok

/-! ### The map -/

/-- A registration of a name in `t`. -/
structure Registers (t : Table) (name : List Byte) (msgType sensorId : BitVec 16) (pid : BitVec 32)
    (now : BitVec 64) (t' : Table) (ok : Bool) : Prop where
  ok_iff : ok = true ↔ t.directory (key name) ≠ none ∨ t.directory.size < kMaxChannels
  present : t.directory (key name) ≠ none →
    ∃ i, (t i).active = true ∧ (t i).key = key name ∧ t' = Function.update t i ((t i).beat now)
  absent : t.directory (key name) = none → ok = true →
    ∃ i e, (t i).active = false ∧ e.active = true ∧ e.key = key name ∧
      e.info = ⟨msgType, sensorId, pid, now, now⟩ ∧ t' = Function.update t i e
  full : ok = false → t' = t
  directory : (t'.directory, ok) = t.directory.register (key name) ⟨msgType, sensorId, pid, now, now⟩

/-- A call of `touch`. -/
structure Touches (t : Table) (name : List Byte) (now : BitVec 64) (t' : Table) : Prop where
  present : t.directory (key name) ≠ none →
    ∃ i, (t i).active = true ∧ (t i).key = key name ∧ t' = Function.update t i ((t i).beat now)
  absent : t.directory (key name) = none → t' = t
  directory : t'.directory = t.directory.beat (key name) now

/-- A removal. -/
structure Unregisters (t : Table) (name : List Byte) (t' : Table) : Prop where
  present : t.directory (key name) ≠ none →
    ∃ i, (t i).active = true ∧ (t i).key = key name ∧ t' = Function.update t i .default
  absent : t.directory (key name) = none → t' = t
  directory : t'.directory = Function.update t.directory (key name) none

/-- What the two `list`s return, of a table with the history `tr`. -/
structure Lists (tr : List Event) (t : Table) : Prop where
  nodup : (t.list.map ChannelEntry.key).Nodup
  mem_iff : ∀ k x, (∃ e ∈ t.list, e.key = k ∧ e.info = x) ↔ t.directory k = some x
  inserted : ∀ e ∈ t.list, inserted tr e.key = some (e.msgType, e.sensorId)
  sublist : ∀ type, (t.listOf type).Sublist t.list
  mem_listOf : ∀ type e, e ∈ t.listOf type ↔ e ∈ t.list ∧ e.msgType = type

theorem registers (h : WF t) (hn : Proper name) :
    Registers t name msgType sensorId pid now (t.registerChannel name msgType sensorId pid now).1
      (t.registerChannel name msgType sensorId pid now).2 := by
  have hdir := @directory_registerChannel t name msgType sensorId pid now h hn
  rcases registerChannel_cases h hn with ⟨i, ha, hk, he⟩ | ⟨hd, i, hi, he⟩ | ⟨hd, hfull, he⟩ <;>
    rw [he] at hdir ⊢
  · have hne : t.directory (key name) ≠ none := (directory_ne_none_iff h).2 ⟨i, ha, hk⟩
    exact ⟨iff_of_true rfl (.inl hne), fun _ => ⟨i, ha, hk, rfl⟩, fun hd => absurd hd hne, nofun, hdir⟩
  · exact ⟨iff_of_true rfl (.inr ((size_lt_iff h).2 ⟨i, hi⟩)), fun hne => absurd hd hne,
      fun _ _ => ⟨i, _, hi, active_fill hn, key_fill hn, rfl, rfl⟩, nofun, hdir⟩
  · refine ⟨iff_of_false Bool.false_ne_true ?_, fun hne => absurd hd hne, nofun, fun _ => rfl, hdir⟩
    rintro (hne | hlt)
    · exact hne hd
    · obtain ⟨i, hi⟩ := (size_lt_iff h).1 hlt
      exact absurd (hi.symm.trans (hfull i)) (by decide)

/-- An operation that acts on the entry with the key, or does nothing: which of the two the directory
decides. -/
theorem present_or_absent {Q : Fin kMaxChannels → Prop} {R : Prop} (h : WF t)
    (hc : (∃ i, (t i).active = true ∧ (t i).key = k ∧ Q i) ∨ t.directory k = none ∧ R) :
    (t.directory k ≠ none → ∃ i, (t i).active = true ∧ (t i).key = k ∧ Q i) ∧
      (t.directory k = none → R) := by
  rcases hc with ⟨i, ha, hk, hq⟩ | ⟨hd, hr⟩
  · have hne : t.directory k ≠ none := (directory_ne_none_iff h).2 ⟨i, ha, hk⟩
    exact ⟨fun _ => ⟨i, ha, hk, hq⟩, fun hd => absurd hd hne⟩
  · exact ⟨fun hne => absurd hd hne, fun _ => hr⟩

theorem touches (h : WF t) (hn : Proper name) : Touches t name now (t.touch name now) := by
  obtain ⟨hpresent, habsent⟩ := present_or_absent h (touch_cases h hn now)
  exact ⟨hpresent, habsent, directory_touch h hn⟩

theorem unregisters (h : WF t) (hn : Proper name) : Unregisters t name (t.unregisterChannel name) := by
  obtain ⟨hpresent, habsent⟩ := present_or_absent h (unregisterChannel_cases h hn)
  exact ⟨hpresent, habsent, directory_unregisterChannel h hn⟩

theorem mem_list : e ∈ t.list ↔ ∃ i, t i = e ∧ (t i).active = true := by
  unfold Table.list
  rw [List.mem_filter, List.mem_ofFn']
  constructor
  · rintro ⟨⟨i, rfl⟩, ha⟩
    exact ⟨i, rfl, ha⟩
  · rintro ⟨i, rfl, ha⟩
    exact ⟨⟨i, rfl⟩, ha⟩

theorem nodup_list (h : WF t) : (t.list.map ChannelEntry.key).Nodup := by
  unfold Table.list
  rw [List.ofFn_eq_map, List.filter_map, List.map_map]
  refine List.Nodup.map_on ?_ ((List.nodup_finRange _).filter _)
  intro i hi j hj hij
  exact h.unique i j (List.mem_filter.1 hi).2 (List.mem_filter.1 hj).2 hij

theorem lists (h : Inv tr t) : Lists tr t := by
  have hmem : ∀ k x, (∃ e ∈ t.list, e.key = k ∧ e.info = x) ↔ t.directory k = some x := by
    intro k x
    rw [directory_eq_some_iff h.wf]
    constructor
    · rintro ⟨e, he, hk, hx⟩
      obtain ⟨i, rfl, ha⟩ := mem_list.1 he
      exact ⟨i, ha, hk, hx⟩
    · rintro ⟨i, ha, hk, hx⟩
      exact ⟨t i, mem_list.2 ⟨i, rfl, ha⟩, hk, hx⟩
  refine ⟨nodup_list h.wf, hmem, fun e he => ?_, fun type => List.filter_sublist, fun type e => ?_⟩
  · rw [← h.inserted, (hmem e.key e.info).1 ⟨e, he, rfl, rfl⟩]
    rfl
  · unfold Table.listOf
    rw [List.mem_filter, decide_eq_true_iff]

/-- The table is a map with 64 places, keyed by the first 63 bytes of the names. -/
theorem registry_is_map (h : machine.Runs ProperNames tr t) :
    WF t ∧
    (∀ name msgType sensorId pid now, Proper name →
      Registers t name msgType sensorId pid now (t.registerChannel name msgType sensorId pid now).1
        (t.registerChannel name msgType sensorId pid now).2) ∧
    (∀ name now, Proper name → Touches t name now (t.touch name now)) ∧
    (∀ name, Proper name → Unregisters t name (t.unregisterChannel name)) ∧
    (∀ name, Proper name → (t.contains name = true ↔ t.directory (key name) ≠ none)) ∧
    Lists tr t := by
  have hinv := Inv.of_runs h
  exact ⟨hinv.wf, fun _ _ _ _ _ hn => registers hinv.wf hn, fun _ _ hn => touches hinv.wf hn,
    fun _ hn => unregisters hinv.wf hn, fun _ hn => contains_iff hinv.wf hn, lists hinv⟩

def lidar : List Byte := [0x2f, 0x6c, 0x69, 0x64, 0x61, 0x72]

def imu : List Byte := [0x2f, 0x69, 0x6d, 0x75]

def cam : List Byte := [0x2f, 0x63, 0x61, 0x6d]

instance (tr : List Event) (t : Table) : DecidablePred (ProperNames tr t)
  | .register name _ _ _ _ | .unregister name | .touch name _ => inferInstanceAs (Decidable (Proper name))

/-- `/lidar` is removed again, `/cam` takes its place, and `/imu` is registered a second time. -/
theorem registry_is_map_reuse : ∃ (tr : List Event) (t : Table), machine.Runs ProperNames tr t ∧
    t.list.map (fun e => (e.key, e.msgType, e.createdNs, e.heartbeatNs)) = [(cam, 4, 7, 7), (imu, 3, 6, 8)] ∧
    WF t ∧ Lists tr t ∧ Unregisters t imu (t.unregisterChannel imu) ∧
    (t.contains lidar = true ↔ t.directory (key lidar) ≠ none) ∧
    Registers t lidar 2 1 7 9 (t.registerChannel lidar 2 1 7 9).1 (t.registerChannel lidar 2 1 7 9).2 := by
  let acts : List Act := [.register lidar 2 1 7 5, .register imu 3 1 7 6, .unregister lidar,
    .register cam 4 1 7 7, .register imu 5 2 8 8]
  have hexec : ((machine.restrict fun t a => decide (ProperNames [] t a)).exec machine.init acts).map
      (fun r => r.1.list.map (fun e => (e.key, e.msgType, e.createdNs, e.heartbeatNs))) =
        some [(cam, 4, 7, 7), (imu, 3, 6, 8)] := by decide +kernel
  obtain ⟨tr, t, hr, hlist⟩ := Machine.Runs.exists_of_restrict ProperNames
    (fun _ _ _ h => of_decide_eq_true h) hexec
  obtain ⟨hwf, hregister, -, hunregister, hcontains, hlists⟩ := registry_is_map hr
  exact ⟨tr, t, hr, hlist, hwf, hlists, hunregister imu (by decide), hcontains lidar (by decide),
    hregister lidar 2 1 7 9 (by decide)⟩

/-- The table in which only `/lidar` is registered. -/
def oneChannel : Table := (machine.init.registerChannel lidar 2 1 7 5).1

theorem oneChannel_runs : machine.Runs ProperNames [.register lidar 2 1 true] oneChannel :=
  Machine.Runs.step (a := Act.register lidar 2 1 7 5) .init (by decide : Proper lidar) rfl

/-! ### Independence of channels -/

/-- The history has a registration of `b`, or of a name taken for it, that was not removed since. -/
def Registered (same : List Byte → List Byte → Prop) (tr : List Event) (b : List Byte) : Prop :=
  ∃ tr₁ tr₂ name msgType sensorId, tr = tr₁ ++ .register name msgType sensorId true :: tr₂ ∧
    same name b ∧ ∀ name', .unregister name' ∈ tr₂ → ¬ same name' b

/-- The entries listed under the name of `b`. -/
def Table.entries (t : Table) (b : List Byte) : List ChannelEntry := t.list.filter (·.key = key b)

/-- What can be seen of `b` is the same in both tables. -/
def SameFor (b : List Byte) (t t' : Table) : Prop :=
  t'.contains b = t.contains b ∧ t'.entries b = t.entries b

/-- Operations on `a` do not affect `b`. -/
structure Independent (same : List Byte → List Byte → Prop) (tr : List Event) (t : Table)
    (a b : List Byte) : Prop where
  register : ∀ msgType sensorId pid now, SameFor b t (t.registerChannel a msgType sensorId pid now).1
  unregister : SameFor b t (t.unregisterChannel a)
  touch : ∀ now, SameFor b t (t.touch a now)
  contains : ∀ msgType sensorId pid now,
    (t.registerChannel a msgType sensorId pid now).1.contains b = true → Registered same tr b

variable {a b : List Byte}

theorem registered_of_inserted (h : inserted tr (key b) ≠ none) :
    Registered (fun x y => key x = key y) tr b := by
  induction tr using List.reverseRecOn with
  | nil => exact absurd rfl h
  | append_singleton tr ev ih =>
    rw [inserted_snoc] at h
    cases ev with
    | register name msgType sensorId ok =>
      rw [Event.apply] at h
      split at h
      · rename_i hc
        obtain ⟨hk, rfl, -⟩ := hc
        exact ⟨tr, [], name, msgType, sensorId, rfl, hk, by simp⟩
      · obtain ⟨tr₁, tr₂, name', msgType', sensorId', rfl, hk, hun⟩ := ih h
        refine ⟨tr₁, tr₂ ++ [.register name msgType sensorId ok], name', msgType', sensorId',
          by simp, hk, fun n hn => hun n ?_⟩
        simpa using hn
    | unregister name =>
      rw [Event.apply] at h
      split at h
      · exact absurd rfl h
      · rename_i hne
        obtain ⟨tr₁, tr₂, name', msgType', sensorId', rfl, hk, hun⟩ := ih h
        refine ⟨tr₁, tr₂ ++ [.unregister name], name', msgType', sensorId', by simp, hk, fun n hn => ?_⟩
        rcases List.mem_append.1 hn with hn | hn
        · exact hun n hn
        · obtain rfl : n = name := by simpa using hn
          exact hne

/-- An entry that is not one of `b` was replaced by another that is not. -/
theorem entries_update (hold : (t i).active = true → (t i).key ≠ key b)
    (hnew : e.active = true → e.key ≠ key b) : Table.entries (Function.update t i e) b = t.entries b := by
  unfold Table.entries Table.list
  rw [List.ofFn_eq_map, List.ofFn_eq_map, List.filter_filter, List.filter_filter]
  generalize List.finRange kMaxChannels = l
  induction l with
  | nil => rfl
  | cons j l ih =>
    rw [List.map_cons, List.map_cons]
    by_cases hj : j = i
    · subst hj
      rw [Function.update_self]
      rw [List.filter_cons_of_neg (by simpa using fun hk => mt hnew (not_not.2 hk)), ih,
        List.filter_cons_of_neg (by simpa using fun hk => mt hold (not_not.2 hk))]
    · rw [Function.update_of_ne hj, List.filter_cons, List.filter_cons, ih]

theorem SameFor.of_directory {t' : Table} (h : WF t) (h' : WF t') (hb : Proper b)
    (hd : t'.directory (key b) = t.directory (key b)) (he : t'.entries b = t.entries b) :
    SameFor b t t' := by
  refine ⟨?_, he⟩
  rw [Bool.eq_iff_iff, contains_iff h' hb, contains_iff h hb, hd]

theorem sameFor_registerChannel (h : WF t) (ha : Proper a) (hb : Proper b) (hab : key a ≠ key b) :
    SameFor b t (t.registerChannel a msgType sensorId pid now).1 := by
  have h' := @WF.registerChannel t a msgType sensorId pid now h ha
  rcases registerChannel_cases h ha with ⟨i, hact, hk, he⟩ | ⟨hd, i, hi, he⟩ | ⟨-, -, he⟩ <;>
    rw [he] at h' ⊢
  · refine SameFor.of_directory h h' hb ?_ (entries_update (fun _ => hk ▸ hab) fun _ => hk ▸ hab)
    rw [directory_beat h hact hk, Directory.beat, Function.update_of_ne hab.symm]
  · refine SameFor.of_directory h h' hb ?_ (entries_update (fun hact => ?_) fun _ => key_fill ha ▸ hab)
    · rw [directory_fill h ha hd hi, Function.update_of_ne hab.symm]
    · rw [hi] at hact
      cases hact
  · exact ⟨rfl, rfl⟩

theorem sameFor_touch (h : WF t) (ha : Proper a) (hb : Proper b) (hab : key a ≠ key b) :
    SameFor b t (t.touch a now) := by
  have h' := @WF.touch t a now h ha
  rcases touch_cases h ha now with ⟨i, hact, hk, he⟩ | ⟨-, he⟩ <;> rw [he] at h' ⊢
  · refine SameFor.of_directory h h' hb ?_ (entries_update (fun _ => hk ▸ hab) fun _ => hk ▸ hab)
    rw [directory_beat h hact hk, Directory.beat, Function.update_of_ne hab.symm]
  · exact ⟨rfl, rfl⟩

theorem sameFor_unregisterChannel (h : WF t) (ha : Proper a) (hb : Proper b) (hab : key a ≠ key b) :
    SameFor b t (t.unregisterChannel a) := by
  have h' := h.unregisterChannel ha
  rcases unregisterChannel_cases h ha with ⟨i, hact, hk, he⟩ | ⟨-, he⟩ <;> rw [he] at h' ⊢
  · refine SameFor.of_directory h h' hb ?_ (entries_update (fun _ => hk ▸ hab) fun hf => ?_)
    · rw [directory_clear h hact hk, Function.update_of_ne hab.symm]
    · rw [active_default] at hf
      cases hf
  · exact ⟨rfl, rfl⟩

/-- Channels that differ in the first 63 bytes of their names do not affect each other. -/
theorem independent_of_key_ne (h : machine.Runs ProperNames tr t) (ha : Proper a) (hb : Proper b)
    (hab : key a ≠ key b) : Independent (fun x y => key x = key y) tr t a b := by
  have hinv := Inv.of_runs h
  refine ⟨fun _ _ _ _ => sameFor_registerChannel hinv.wf ha hb hab,
    sameFor_unregisterChannel hinv.wf ha hb hab, fun _ => sameFor_touch hinv.wf ha hb hab, ?_⟩
  intro msgType sensorId pid now hc
  rw [(sameFor_registerChannel hinv.wf ha hb hab).1, contains_iff hinv.wf hb] at hc
  refine registered_of_inserted fun hnone => hc ?_
  rw [← hinv.inserted] at hnone
  exact Option.map_eq_none_iff.1 hnone

theorem independent_lidar_imu :
    Independent (fun x y => key x = key y) [.register lidar 2 1 true] oneChannel imu lidar :=
  independent_of_key_ne oneChannel_runs (by decide) (by decide) (by decide)

/-- Two names that differ in their last byte only, the 64th. -/
def longName (last : Byte) : List Byte := List.replicate 63 0x61 ++ [last]

/-- Registering one of two such names registers the other. -/
theorem long_names_not_independent :
    ¬ ∀ tr t a b, machine.Runs ProperNames tr t → Proper a → Proper b → a ≠ b →
      Independent Eq tr t a b := by
  intro h
  have hi := h [] machine.init (longName 0x61) (longName 0x62) .init (by decide) (by decide) (by decide)
  have hc := (hi.register 2 1 7 5).1
  revert hc
  decide +kernel

/-! ### Discovery -/

/-- The free function `discover`: the names in the entries of a type. -/
def Table.discover (t : Table) (type : BitVec 16) : List (List Byte) :=
  (t.listOf type).map fun e => cstr e.name

/-- Of a name only the string before its first terminator counts. -/
theorem named_cstr : e.named (cstr name) = e.named name := by
  unfold ChannelEntry.named
  congr 1
  rw [Bool.eq_iff_iff, beq_iff_eq, beq_iff_eq, strncmp_eq_zero_iff, strncmp_eq_zero_iff, cstr_cstr]

theorem fill_cstr : e.fill (cstr name) msgType sensorId pid now = e.fill name msgType sensorId pid now := by
  simp [ChannelEntry.fill, strncpy]

/-- The empty name is that of no entry. -/
theorem named_nil : e.named [] = false := by
  unfold ChannelEntry.named
  rw [Bool.eq_false_iff, Ne, Bool.and_eq_true, beq_iff_eq, strncmp_eq_zero_iff, active_iff_key_ne_nil]
  rintro ⟨hne, htake⟩
  rw [cstr_nil, List.take_nil, List.take_eq_nil_iff] at htake
  exact htake.elim (by decide) hne

theorem find_nil : t.find (·.named []) = none := by
  simp [Table.find, named_nil]

/-- Registering the empty name leaves an entry inactive. -/
theorem WF.registerChannel_nil (h : WF t) : WF (t.registerChannel [] msgType sensorId pid now).1 := by
  unfold Table.registerChannel
  rw [find_nil]
  cases t.find (!·.active) with
  | none => exact h
  | some i =>
    refine h.update terminated_fill fun ha => ?_
    rw [active_iff_key_ne_nil] at ha
    exact absurd (cstr_set_strncpy (by rw [(t i).size]; decide) (by simp)) ha

theorem proper_or_nil (name : List Byte) : Proper (cstr name) ∨ cstr name = [] := by
  by_cases hnil : cstr name = []
  · exact .inr hnil
  · exact .inl ⟨hnil, zero_notMem_cstr name⟩

/-- Whatever names the operations were called with. -/
theorem WF.of_runs (h : machine.Runs Machine.free tr t) : WF t := by
  refine h.invariant (I := fun _ t => WF t) WF.init fun tr t a t' o ih _ hs => ?_
  cases a with
  | register name msgType sensorId pid now =>
    obtain ⟨rfl, -⟩ := Prod.mk.inj (Option.some.inj hs)
    have hname : t.registerChannel (cstr name) msgType sensorId pid now =
        t.registerChannel name msgType sensorId pid now := by
      unfold Table.registerChannel
      simp only [named_cstr, fill_cstr]
    show WF (t.registerChannel name msgType sensorId pid now).1
    rw [← hname]
    rcases proper_or_nil name with hn | hnil
    · exact ih.registerChannel hn
    · rw [hnil]
      exact ih.registerChannel_nil
  | unregister name =>
    obtain ⟨rfl, -⟩ := Prod.mk.inj (Option.some.inj hs)
    have hname : t.unregisterChannel (cstr name) = t.unregisterChannel name := by
      unfold Table.unregisterChannel
      simp only [named_cstr]
    rw [← hname]
    rcases proper_or_nil name with hn | hnil
    · exact ih.unregisterChannel hn
    · rw [hnil, Table.unregisterChannel, find_nil]
      exact ih
  | touch name now =>
    obtain ⟨rfl, -⟩ := Prod.mk.inj (Option.some.inj hs)
    have hname : t.touch (cstr name) now = t.touch name now := by
      unfold Table.touch
      simp only [named_cstr]
    rw [← hname]
    rcases proper_or_nil name with hn | hnil
    · exact ih.touch hn
    · rw [hnil, Table.touch, find_nil]
      exact ih

theorem filter_key_of_mem {l : List ChannelEntry} (hl : (l.map ChannelEntry.key).Nodup) (he : e ∈ l) :
    l.filter (·.key = e.key) = [e] := by
  induction l with
  | nil => cases he
  | cons x l ih =>
    rw [List.map_cons, List.nodup_cons] at hl
    rcases List.mem_cons.1 he with rfl | he
    · have hrest : l.filter (·.key = e.key) = [] := by
        rw [List.filter_eq_nil_iff]
        intro y hy hk
        exact hl.1 (List.mem_map.2 ⟨y, hy, of_decide_eq_true hk⟩)
      rw [List.filter_cons_of_pos (by simp), hrest]
    · have hne : x.key ≠ e.key := fun hk => hl.1 (hk ▸ List.mem_map_of_mem he)
      rw [List.filter_cons_of_neg (by simpa using hne), ih hl.2 he]

/-- The entry of a name, as the two `list`s and `discover` show it. -/
theorem listed_of_directory (h : WF t) {x : ChannelInfo} (hx : t.directory k = some x) :
    ∃ e, e.info = x ∧ t.list.filter (·.key = k) = [e] ∧
      ∀ type, (t.listOf type).filter (·.key = k) = (if e.msgType = type then [e] else []) ∧
        (k ∈ t.discover type ↔ e.msgType = type) := by
  obtain ⟨i, ha, rfl, hinfo⟩ := (directory_eq_some_iff h).1 hx
  have hlist := filter_key_of_mem (nodup_list h) (mem_list.2 ⟨i, rfl, ha⟩)
  refine ⟨t i, hinfo, hlist, fun type => ?_⟩
  have hof : (t.listOf type).filter (·.key = (t i).key) = if (t i).msgType = type then [t i] else [] := by
    unfold Table.listOf
    rw [List.filter_comm, hlist]
    by_cases htype : (t i).msgType = type <;> simp [htype]
  refine ⟨hof, ?_⟩
  have hmem : (t i).key ∈ t.discover type ↔ ∃ e, e ∈ (t.listOf type).filter (·.key = (t i).key) := by
    unfold Table.discover
    rw [List.mem_map]
    exact exists_congr fun e => by rw [List.mem_filter, decide_eq_true_iff]; rfl
  rw [hmem, hof]
  by_cases htype : (t i).msgType = type <;> simp [htype]

/-- After a successful registration of a name of at most 63 bytes exactly one entry has it. A new entry
has the type and the sensor of the call; one that was there keeps its own, and gets a heartbeat. The
lists of the entry's type show it, and no other list. -/
theorem registered_is_listed (h : machine.Runs Machine.free tr t) (hn : Proper name)
    (hlen : name.length ≤ 63) (hok : (t.registerChannel name msgType sensorId pid now).2 = true) :
    ∃ e, (t.registerChannel name msgType sensorId pid now).1.list.filter (·.key = name) = [e] ∧
      (t.directory name = none → e.msgType = msgType ∧ e.sensorId = sensorId) ∧
      (∀ x, t.directory name = some x → e.info = { x with heartbeatNs := now }) ∧
      ∀ type, ((t.registerChannel name msgType sensorId pid now).1.listOf type).filter (·.key = name) =
          (if e.msgType = type then [e] else []) ∧
        (name ∈ (t.registerChannel name msgType sensorId pid now).1.discover type ↔ e.msgType = type) := by
  have hwf := WF.of_runs h
  have hkey : key name = name := List.take_of_length_le hlen
  have hwf' : WF (t.registerChannel name msgType sensorId pid now).1 := hwf.registerChannel hn
  rcases registerChannel_cases hwf hn with ⟨i, ha, hk, he⟩ | ⟨hd, i, hi, he⟩ | ⟨-, -, he⟩ <;>
    rw [he] at hok hwf' ⊢
  · have hx : t.directory name = some (t i).info :=
      (directory_eq_some_iff hwf).2 ⟨i, ha, hk.trans hkey, rfl⟩
    have hx' : Table.directory (Function.update t i ((t i).beat now)) name =
        some { (t i).info with heartbeatNs := now } := by
      rw [directory_beat hwf ha (hk.trans hkey), Directory.beat, Function.update_self, hx]
      rfl
    obtain ⟨e, hinfo, hlist, hof⟩ := listed_of_directory hwf' hx'
    refine ⟨e, hlist, fun hnone => ?_, fun x hsome => ?_, hof⟩
    · rw [hx] at hnone
      cases hnone
    · rw [hx] at hsome
      cases hsome
      exact hinfo
  · rw [hkey] at hd
    have hx' : Table.directory (Function.update t i ((t i).fill name msgType sensorId pid now)) name =
        some ⟨msgType, sensorId, pid, now, now⟩ := by
      rw [directory_fill hwf hn (hkey.symm ▸ hd) hi, hkey, Function.update_self]
    obtain ⟨e, hinfo, hlist, hof⟩ := listed_of_directory hwf' hx'
    refine ⟨e, hlist, fun _ => ?_, fun x hsome => ?_, hof⟩
    · exact ⟨congrArg ChannelInfo.msgType hinfo, congrArg ChannelInfo.sensorId hinfo⟩
    · rw [hd] at hsome
      cases hsome
  · cases hok

/-- `/lidar` is registered anew, as of another type, and keeps the type that it had. -/
theorem registered_is_listed_again :
    ∃ e, (oneChannel.registerChannel lidar 1 3 8 6).1.list.filter (·.key = lidar) = [e] ∧
      lidar ∈ (oneChannel.registerChannel lidar 1 3 8 6).1.discover e.msgType := by
  have hrun : machine.Runs Machine.free [.register lidar 2 1 true] oneChannel :=
    oneChannel_runs.mono fun _ _ _ _ _ _ _ => trivial
  have hok : (oneChannel.registerChannel lidar 1 3 8 6).2 = true := by decide +kernel
  obtain ⟨e, hlist, -, -, hof⟩ := registered_is_listed hrun (by decide) (by decide) hok
  exact ⟨e, hlist, (hof e.msgType).2.2 rfl⟩

/-- The registration of a present channel as of another type succeeds, and the type does not list it. -/
theorem other_type_not_listed :
    machine.Runs Machine.free [.register lidar 2 1 true] oneChannel ∧
      (oneChannel.registerChannel lidar 1 3 8 6).2 = true ∧
      ((oneChannel.registerChannel lidar 1 3 8 6).1.listOf 1).filter (·.key = lidar) = [] ∧
      lidar ∉ (oneChannel.registerChannel lidar 1 3 8 6).1.discover 1 := by
  refine ⟨oneChannel_runs.mono fun _ _ _ _ _ _ _ => trivial, ?_⟩
  decide +kernel

end Lwipc.ChannelRegistry
