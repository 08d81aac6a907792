import Lwipc.RegistryLock
import Lwipc.Lib.Linearizable

/-!
# The registry is atomic behind its lock

`register_channel` and `unregister_channel` are linearizable to the operations of `Table`, whatever
`touch`, `contains` and `list` do meanwhile without the lock. The table that the lock protects is that of the
segment less the heartbeats, which `touch` writes at any time, and with the old entry where a thread is in the
middle of storing a new one. A call takes effect with the last store of its entry, or when it knows that there
is nothing to store; both are before it gives the lock back.
-/

namespace Lwipc.RegistryLock

open CString ChannelRegistry

variable {τ : Type}

/-- The table without its heartbeats. -/
def still (t : Table) : Table := fun i => (t i).beat 0

/-- The operations under the lock; the clock is read somewhere inside. -/
def registry : Object Table Op Res where
  init := fun _ => .default
  Outcome v op r T :=
    match op, r with
    | .register name msgType sensorId pid, .registered ok =>
      ∃ now T', v.now.registerChannel name msgType sensorId pid now = (T', ok) ∧ T = still T'
    | .unregister name, .unit => T = v.now.unregisterChannel name
    | _, _ => False

/-- The calls and returns of `register_channel` and `unregister_channel`. -/
def history (s : State τ) (a : Act τ) (_ : State τ) : List (Hist τ Op Res) :=
  match a with
  | .call t op => if op.locks then [.call t op] else []
  | .run t _ =>
    match s.pc t with
    | .done op r => if op.locks then [.ret t r] else []
    | _ => []
  | .list _ | .cell _ _ | .spurious _ => []

/-! ### Entries -/

section
variable {e src e' : ChannelEntry} {c c' : Cell} {name : List Byte} {k : Nat}

/-- Two entries have the same in a cell; heartbeats do not count. -/
def Agree (e e' : ChannelEntry) : Cell → Prop
  | .name k => e.name.getD k 0 = e'.name.getD k 0
  | .msgType => e.msgType = e'.msgType
  | .sensorId => e.sensorId = e'.sensorId
  | .producerPid => e.producerPid = e'.producerPid
  | .createdNs => e.createdNs = e'.createdNs
  | .heartbeatNs => True

theorem mem_cells (c : Cell) : c ∈ cells := by
  cases c <;> simp [cells]

theorem agree_setCell : Agree (setCell e src c) src c := by
  cases c with
  | name k => simp [Agree, setCell, e.size]
  | msgType | sensorId | producerPid | createdNs => rfl
  | heartbeatNs => trivial

theorem agree_setCell_of_ne (hne : c' ≠ c) (h : Agree e e' c') : Agree (setCell e src c) e' c' := by
  cases c' with
  | name k' =>
    cases c with
    | name k =>
      have hk : (k : Nat) ≠ k' := fun heq => hne (congrArg Cell.name (Fin.ext heq.symm))
      simp only [Agree, setCell, List.getD_eq_getElem?_getD, List.getElem?_set_ne hk]
      exact h
    | msgType | sensorId | producerPid | createdNs | heartbeatNs => exact h
  | msgType | sensorId | producerPid | createdNs | heartbeatNs => cases c <;> first | exact h | exact absurd rfl hne

theorem agree_of_beat (heq : e.beat 0 = e'.beat 0) : Agree e e' c := by
  obtain ⟨n, hn, m, i, p, cr, hb⟩ := e
  obtain ⟨n', hn', m', i', p', cr', hb'⟩ := e'
  simp only [ChannelEntry.beat, ChannelEntry.mk.injEq] at heq
  obtain ⟨rfl, rfl, rfl, rfl, rfl, -⟩ := heq
  cases c <;> first | rfl | trivial

theorem Agree.trans {e₁ : ChannelEntry} (h₁ : Agree e₁ e c) (h : Agree e e' c) : Agree e₁ e' c := by
  cases c with
  | heartbeatNs => trivial
  | name | msgType | sensorId | producerPid | createdNs => exact Eq.trans h₁ h

theorem beat_eq_of_agree (h : ∀ c, Agree e e' c) : e.beat 0 = e'.beat 0 := by
  have hname : e.name = e'.name := by
    refine List.ext_getElem (e.size.trans e'.size.symm) fun k h₁ h₂ => ?_
    have hk := h (.name ⟨k, e.size ▸ h₁⟩)
    simpa [Agree, List.getElem?_eq_getElem h₁, List.getElem?_eq_getElem h₂] using hk
  obtain ⟨n, hn, m, i, p, cr, hb⟩ := e
  obtain ⟨n', hn', m', i', p', cr', hb'⟩ := e'
  obtain rfl : n = n' := hname
  obtain rfl : m = m' := h .msgType
  obtain rfl : i = i' := h .sensorId
  obtain rfl : p = p' := h .producerPid
  obtain rfl : cr = cr' := h .createdNs
  rfl

/-- `strncmp` has come to byte `k`, all before it being equal. -/
def Matches (e : ChannelEntry) (name : List Byte) (k : Nat) : Prop :=
  ∀ j, j < k → e.name.getD j 0 = name.getD j 0 ∧ e.name.getD j 0 ≠ 0

theorem strncmp_of_matches (h : Matches e name k) (hk : k < 63) :
    strncmp e.name name 63 = 0 ↔ e.name.getD k 0 = name.getD k 0 ∧
      (e.name.getD k 0 = 0 ∨ strncmp (e.name.drop (k + 1)) (name.drop (k + 1)) (63 - (k + 1)) = 0) := by
  have hhead (l : List Byte) : (l.drop k).headD 0 = l.getD k 0 := by
    rw [List.headD_eq_head?_getD, List.head?_drop, List.getD_eq_getElem?_getD]
  obtain ⟨m, hm⟩ : ∃ m, 63 - k = m + 1 := ⟨62 - k, by omega⟩
  rw [strncmp_drop (Nat.le_of_lt hk) h, hm, strncmp, hhead, hhead, List.tail_drop, List.tail_drop,
    show 63 - (k + 1) = m by omega]
  by_cases heq : e.name.getD k 0 = name.getD k 0
  · rw [if_neg (not_not.2 heq)]
    split
    · rename_i h0
      exact iff_of_true rfl ⟨heq, .inl h0⟩
    · rename_i h0
      exact ⟨fun h => ⟨heq, .inr h⟩, fun h => h.2.resolve_left h0⟩
  · rw [if_pos heq]
    have hdiff : ((e.name.getD k 0).toNat : Int) - (name.getD k 0).toNat ≠ 0 := fun h0 =>
      heq (BitVec.eq_of_toNat_eq (by omega))
    exact iff_of_false hdiff fun h => heq h.1

theorem named_of_compare (ha : e.active = true) (h : Matches e name k) (hk : k < 63)
    (heq : e.name.getD k 0 = name.getD k 0) (hend : e.name.getD k 0 = 0 ∨ k + 1 = 63) :
    e.named name = true := by
  have hcmp : strncmp e.name name 63 = 0 := by
    refine (strncmp_of_matches h hk).2 ⟨heq, hend.imp_right fun hlast => ?_⟩
    rw [hlast]
    rfl
  simp [ChannelEntry.named, ha, hcmp]

theorem not_named_of_compare (h : Matches e name k) (hk : k < 63)
    (hne : e.name.getD k 0 ≠ name.getD k 0) : e.named name = false := by
  have hcmp : strncmp e.name name 63 ≠ 0 := fun h0 => hne ((strncmp_of_matches h hk).1 h0).1
  simp [ChannelEntry.named, hcmp]

end

/-- A heartbeat leaves the rest of the table as it was. -/
theorem still_beat (t : Table) (i : Fin kMaxChannels) (now : BitVec 64) (j : Fin kMaxChannels) :
    still (Function.update t i ((t i).beat now)) j = still t j := by
  unfold still
  by_cases hj : j = i
  · subst hj
    rw [Function.update_self]
    rfl
  · rw [Function.update_of_ne hj]

/-! ### Loops over the table -/

section
variable {t : Table} {p : ChannelEntry → Bool} {i j : Fin kMaxChannels}

theorem find_eq_some (h : p (t i) = true) (hlt : ∀ j, j < i → p (t j) = false) : t.find p = some i := by
  obtain ⟨j, hj⟩ := find_ne_none h
  rw [hj]
  obtain ⟨k, hk, hget, hbefore⟩ := List.find?_eq_some_iff_getElem.1 hj |>.2
  rcases lt_trichotomy i j with hij | rfl | hij
  · rw [List.getElem_finRange] at hget
    have hi := hbefore i (by rw [← hget] at hij; exact hij)
    simp [h] at hi
  · rfl
  · have hp := find_some hj
    rw [hlt j hij] at hp
    cases hp

theorem find_eq_none (h : ∀ i, p (t i) = false) : t.find p = none :=
  List.find?_eq_none.2 fun i _ => by simp [h i]

theorem next_some (h : next i = some j) (k : Fin kMaxChannels) : k < j ↔ k ≤ i := by
  unfold next at h
  split at h <;> cases h
  rw [Fin.lt_def, Fin.le_def]
  exact Nat.lt_succ_iff

theorem next_none (h : next i = none) (k : Fin kMaxChannels) : k ≤ i := by
  unfold next at h
  split at h
  · cases h
  · rw [Fin.le_def]
    have := k.isLt
    omega

theorem not_lt_first (k : Fin kMaxChannels) : ¬ k < first := Nat.not_lt_zero _

end

/-! ### The simulation -/

/-- The thread is between the guard's exchange and the store of its destructor. -/
def Pc.holds : Pc → Bool
  | .active op _ | .compare op _ _ | .beat op _ => op.locks
  | .free .. | .write .. | .unlock .. => true
  | _ => false

/-- The thread is storing a new entry `i`. -/
def Pc.Writes (i : Fin kMaxChannels) : Pc → Prop
  | .write _ j _ _ => j = i
  | _ => False

/-- An operation under the lock that has not taken effect. -/
def Pending (op : Op) (st : Status Op Res) : Prop :=
  if op.locks then ∃ q, st = .pending op q else st = .idle

/-- How far the registry has got with the call of a thread. -/
def StatusOk : Pc → Status Op Res → Prop
  | .active op _, st | .compare op _ _, st | .beat op _, st => Pending op st
  | .lock op, st | .write op _ _ _, st => op.locks = true ∧ Pending op st
  | .free name msgType sensorId pid _, st => Pending (.register name msgType sensorId pid) st
  | .unlock op r, st => op.locks = true ∧ st = .done op r
  | .done op r, st => st = if op.locks then .done op r else .idle
  | .idle, st | .listing _ _, st | .copy _ _ _ _, st | .listed _, st => st = .idle

/-- The entry `src` is what `op` puts in the place of entry `i` of `T`. -/
def Replaces (T : Table) (i : Fin kMaxChannels) (src : ChannelEntry) : Op → Prop
  | .register name msgType sensorId pid =>
    T.find (·.named name) = none ∧ T.find (!·.active) = some i ∧
      ∃ now, src.beat 0 = ((T i).fill name msgType sensorId pid now).beat 0
  | .unregister name => T.find (·.named name) = some i ∧ src = .default
  | _ => False

/-- What the holder of the lock knows about the table `T` that it protects. -/
def Knows (T : Table) (s : State τ) : Pc → Prop
  | .active op i => ∀ j, j < i → (T j).named op.name = false
  | .compare op i k =>
    (∀ j, j < i → (T j).named op.name = false) ∧ (T i).active = true ∧ k < 63 ∧ Matches (T i) op.name k
  | .free name _ _ _ i => T.find (·.named name) = none ∧ ∀ j, j < i → (T j).active = true
  | .write op i src todo => Replaces T i src op ∧ ∀ c, c ∉ todo → Agree (s.table i) src c
  | .beat op i => T.find (·.named op.name) = some i ∧ ∀ name, op ≠ .unregister name
  | _ => True

/-- The segment `s` stands for the registry `x`. -/
structure Sim (s : State τ) (x : Object.State τ Table Op Res) : Prop where
  status : ∀ t, StatusOk (s.pc t) (x.status t)
  locked : ∀ t, (s.pc t).holds = true → s.lock = 1
  alone : ∀ t t', (s.pc t).holds = true → (s.pc t').holds = true → t = t'
  table : ∀ i, (∀ t, ¬ (s.pc t).Writes i) → x.now i = (s.table i).beat 0
  still : still x.now = x.now
  knows : ∀ t, (s.pc t).holds = true → Knows x.now s (s.pc t)

variable {s s' : State τ} {x : Object.State τ Table Op Res} {t : τ} {pc : Pc} {st : Status Op Res} {op : Op}
  {i : Fin kMaxChannels} {T : Table}

theorem holds_of_writes (h : pc.Writes i) : pc.holds = true := by
  cases pc with
  | write => rfl
  | _ => exact h.elim

/-- While a thread that is not storing holds the lock, the table is that of the segment. -/
theorem Sim.now_eq (h : Sim s x) (hh : (s.pc t).holds = true) (hw : ∀ i, ¬ (s.pc t).Writes i)
    (i : Fin kMaxChannels) : x.now i = (s.table i).beat 0 := by
  refine h.table i fun t' ht' => ?_
  obtain rfl := h.alone t t' hh (holds_of_writes ht')
  exact hw i ht'

theorem StatusOk.after {same : Prop} (h : StatusOk pc st) : StatusOk pc (st.after same) := by
  have hp {op : Op} (hp : Pending op st) : Pending op (st.after same) := by
    unfold Pending at hp ⊢
    split
    · rw [if_pos ‹_›] at hp
      obtain ⟨q, rfl⟩ := hp
      exact ⟨_, rfl⟩
    · rw [if_neg ‹_›] at hp
      subst hp
      rfl
  cases pc with
  | active | compare | beat | free => exact hp h
  | lock | write => exact ⟨h.1, hp h.2⟩
  | unlock =>
    obtain ⟨hl, rfl⟩ := h
    exact ⟨hl, rfl⟩
  | done op r =>
    subst h
    by_cases hl : op.locks = true <;> simp [StatusOk, hl, Status.after]
  | idle | listing | copy | listed =>
    subst h
    rfl

theorem Knows.congr (h : Knows T s pc) (htable : ∀ i, (s'.table i).beat 0 = (s.table i).beat 0) :
    Knows T s' pc := by
  cases pc with
  | write op i src todo => exact ⟨h.1, fun c hc => (agree_of_beat (htable i)).trans (h.2 c hc)⟩
  | _ => exact h

variable [DecidableEq τ]

/-- A step of `t` that leaves the table as it is, but for heartbeats. -/
theorem Sim.move (h : Sim s x) (hlock : s'.lock = s.lock)
    (htable : ∀ i, (s'.table i).beat 0 = (s.table i).beat 0) (hpc : s'.pc = Function.update s.pc t pc)
    (hst : StatusOk pc st) (hholds : pc.holds = true → (s.pc t).holds = true)
    (hwrites : ∀ i, ¬ (s.pc t).Writes i) (hk : pc.holds = true → Knows x.now s' pc) :
    Sim s' (x.set t st) := by
  have hold {t' : τ} (ht' : (s'.pc t').holds = true) : (s.pc t').holds = true := by
    rw [hpc] at ht'
    by_cases htt : t' = t
    · subst htt
      rw [Function.update_self] at ht'
      exact hholds ht'
    · rwa [Function.update_of_ne htt] at ht'
  refine ⟨fun t' => ?_, fun t' ht' => ?_, fun t₁ t₂ h₁ h₂ => h.alone t₁ t₂ (hold h₁) (hold h₂), fun i hi => ?_,
    h.still, fun t' ht' => ?_⟩
  · rw [hpc]
    by_cases htt : t' = t
    · subst htt
      rw [Function.update_self, Object.State.set_status_self]
      exact hst
    · rw [Function.update_of_ne htt, Object.State.set_status_of_ne x st htt]
      exact h.status t'
  · rw [hlock]
    exact h.locked t' (hold ht')
  · rw [Object.State.set_now, htable]
    refine h.table i fun t' ht' => ?_
    by_cases htt : t' = t
    · subst htt
      exact hwrites i ht'
    · refine hi t' ?_
      rwa [hpc, Function.update_of_ne htt]
  · rw [Object.State.set_now]
    have hh := hold ht'
    by_cases htt : t' = t
    · subst htt
      rw [hpc, Function.update_self] at ht' ⊢
      exact hk ht'
    · rw [hpc, Function.update_of_ne htt]
      exact (h.knows t' hh).congr htable

/-- The registry does nothing. -/
theorem Sim.silent (h : Sim s x) (hlock : s'.lock = s.lock)
    (htable : ∀ i, (s'.table i).beat 0 = (s.table i).beat 0) (hpc : s'.pc = Function.update s.pc t pc)
    (hst : StatusOk pc (x.status t)) (hholds : pc.holds = true → (s.pc t).holds = true)
    (hwrites : ∀ i, ¬ (s.pc t).Writes i) (hk : pc.holds = true → Knows x.now s' pc) : Sim s' x := by
  rw [← Object.State.set_of_status (c := x) (i := t) rfl]
  exact h.move hlock htable hpc hst hholds hwrites hk

omit [DecidableEq τ] in
theorem Sim.others (h : Sim s x) (hh : (s.pc t).holds = true) (t' : τ) (ht' : t' ≠ t) :
    (s.pc t').holds = false :=
  Bool.eq_false_iff.2 fun hh' => ht' (h.alone t' t hh' hh)

/-- A step of `t` while no other thread holds the lock: the table is all its own. -/
theorem Sim.of_mine {x' : Object.State τ Table Op Res} (hothers : ∀ t', t' ≠ t → (s.pc t').holds = false)
    (hpc : s'.pc = Function.update s.pc t pc) (hlock : pc.holds = true → s'.lock = 1) (hst : StatusOk pc (x'.status t))
    (hrest : ∀ t', t' ≠ t → StatusOk (s.pc t') (x'.status t'))
    (htable : ∀ i, ¬ pc.Writes i → x'.now i = (s'.table i).beat 0)
    (hstill : RegistryLock.still x'.now = x'.now) (hk : pc.holds = true → Knows x'.now s' pc) : Sim s' x' := by
  have hself : s'.pc t = pc := by rw [hpc, Function.update_self]
  have hholder {t' : τ} (ht' : (s'.pc t').holds = true) : t' = t := by
    by_contra hne
    rw [hpc, Function.update_of_ne hne, hothers t' hne] at ht'
    cases ht'
  refine ⟨fun t' => ?_, fun t' ht' => ?_, fun t₁ t₂ h₁ h₂ => (hholder h₁).trans (hholder h₂).symm, fun i hi => ?_,
    hstill, fun t' ht' => ?_⟩
  · by_cases hne : t' = t
    · subst hne
      rw [hself]
      exact hst
    · rw [hpc, Function.update_of_ne hne]
      exact hrest t' hne
  · obtain rfl := hholder ht'
    rw [hself] at ht'
    exact hlock ht'
  · refine htable i fun hw => hi t ?_
    rwa [hself]
  · obtain rfl := hholder ht'
    rw [hself] at ht' ⊢
    exact hk ht'

/-- The guard's exchange. -/
theorem Sim.lock (h : Sim s x) (h0 : s.lock = 0) (hp : s.pc t = .lock op) :
    Sim (State.setPc { s with lock := 1 } t (.active op first)) x := by
  have hnone (t' : τ) : (s.pc t').holds = false := by
    refine Bool.eq_false_iff.2 fun hh => ?_
    have := h.locked t' hh
    omega
  have hst := h.status t
  rw [hp] at hst
  refine Sim.of_mine (fun t' _ => hnone t') rfl (fun _ => rfl) hst.2 (fun t' _ => h.status t') (fun i _ => ?_) h.still
    fun _ j hj => absurd hj (not_lt_first j)
  refine h.table i fun t' hw => ?_
  have hh := holds_of_writes hw
  rw [hnone t'] at hh
  cases hh

/-- The store of the guard's destructor. -/
theorem Sim.unlock {r : Res} (h : Sim s x) (hp : s.pc t = .unlock op r) :
    Sim (State.setPc { s with lock := 0 } t (.done op r)) x := by
  have hh : (s.pc t).holds = true := by rw [hp]; rfl
  obtain ⟨hl, hst⟩ : StatusOk (.unlock op r) (x.status t) := hp ▸ h.status t
  refine Sim.of_mine (h.others hh) rfl (fun hd => by cases hd) ?_ (fun t' _ => h.status t') (fun i _ => ?_) h.still
    (fun hd => by cases hd)
  · show x.status t = _
    rw [if_pos hl]
    exact hst
  · exact h.now_eq hh (fun i hw => by rw [hp] at hw; exact hw) i

omit [DecidableEq τ] in
/-- What the table becomes when an operation has stored its entry. -/
theorem Replaces.outcome {src : ChannelEntry} {q : Prop} (h : Replaces x.now i src op)
    (hstill : still x.now = x.now) :
    registry.Outcome (x.scene t q) op op.stored (Function.update x.now i (src.beat 0)) := by
  cases op with
  | register name msgType sensorId pid =>
    obtain ⟨hnone, hfree, now, hsrc⟩ := h
    refine ⟨now, Function.update x.now i ((x.now i).fill name msgType sensorId pid now), ?_, ?_⟩
    · show x.now.registerChannel name msgType sensorId pid now = _
      unfold Table.registerChannel
      rw [hnone, hfree]
    · funext j
      by_cases hj : j = i
      · subst hj
        rw [still, Function.update_self, Function.update_self, hsrc]
      · rw [still, Function.update_of_ne hj, Function.update_of_ne hj]
        exact (congrFun hstill j).symm
  | unregister name =>
    obtain ⟨hsome, rfl⟩ := h
    show _ = x.now.unregisterChannel name
    unfold Table.unregisterChannel
    rw [hsome]
    rfl
  | touch | contains => exact h.elim

omit [DecidableEq τ] in
/-- The entries that the storing thread does not touch. -/
theorem Sim.now_eq_of_ne {src : ChannelEntry} {todo : List Cell} {j : Fin kMaxChannels} (h : Sim s x)
    (hp : s.pc t = .write op i src todo) (hj : j ≠ i) : x.now j = (s.table j).beat 0 := by
  refine h.table j fun t' hw => ?_
  obtain rfl := h.alone t' t (holds_of_writes hw) (by rw [hp]; rfl)
  rw [hp] at hw
  exact hj hw.symm

/-- A store of one cell of the new entry. -/
theorem Sim.store {src : ChannelEntry} {todo : List Cell} {c : Cell} (h : Sim s x)
    (hp : s.pc t = .write op i src todo) :
    Sim ((s.setEntry i (setCell (s.table i) src c)).setPc t (.write op i src (todo.filter (· ≠ c)))) x := by
  have hh : (s.pc t).holds = true := by rw [hp]; rfl
  obtain ⟨hrep, hagree⟩ : Knows x.now s (.write op i src todo) := hp ▸ h.knows t hh
  have hst : StatusOk (.write op i src todo) (x.status t) := hp ▸ h.status t
  refine Sim.of_mine (h.others hh) rfl (fun _ => h.locked t hh) hst (fun t' _ => h.status t') (fun j hj => ?_) h.still
    fun _ => ⟨hrep, fun c' hc' => ?_⟩
  · have hji : j ≠ i := fun heq => hj heq.symm
    show x.now j = (Function.update s.table i _ j).beat 0
    rw [Function.update_of_ne hji]
    exact h.now_eq_of_ne hp hji
  · show Agree (Function.update s.table i _ i) src c'
    rw [Function.update_self]
    by_cases hcc : c' = c
    · subst hcc
      exact agree_setCell
    · refine agree_setCell_of_ne hcc (hagree c' fun hmem => hc' ?_)
      simpa [hcc] using hmem

variable {H : List (Hist τ Op Res)}

/-- The last store of the new entry. -/
theorem Sim.storeLast {src : ChannelEntry} {todo : List Cell} {c : Cell} (h : Sim s x) (hx : registry.Runs H x)
    (hp : s.pc t = .write op i src todo) (hrest : todo.filter (· ≠ c) = []) :
    ∃ x', registry.Runs H x' ∧
      Sim ((s.setEntry i (setCell (s.table i) src c)).setPc t (.unlock op op.stored)) x' := by
  have hh : (s.pc t).holds = true := by rw [hp]; rfl
  obtain ⟨hrep, hagree⟩ : Knows x.now s (.write op i src todo) := hp ▸ h.knows t hh
  obtain ⟨hl, hpend⟩ : StatusOk (.write op i src todo) (x.status t) := hp ▸ h.status t
  obtain ⟨q, hq⟩ : ∃ q, x.status t = .pending op q := by
    rwa [Pending, if_pos hl] at hpend
  refine ⟨_, hx.effect op.stored _ hq (hrep.outcome h.still), ?_⟩
  -- every cell has been stored by now
  have hnew : (setCell (s.table i) src c).beat 0 = src.beat 0 := by
    refine beat_eq_of_agree fun c' => ?_
    by_cases hcc : c' = c
    · subst hcc
      exact agree_setCell
    · refine agree_setCell_of_ne hcc (hagree c' fun hmem => ?_)
      have hin : c' ∈ todo.filter (· ≠ c) := by simpa [hcc] using hmem
      rw [hrest] at hin
      cases hin
  refine Sim.of_mine (h.others hh) rfl (fun _ => h.locked t hh) ⟨hl, x.effect_status_self t _ _ _⟩ ?_ ?_ ?_
    fun _ => trivial
  · intro t' ht'
    rw [Object.State.effect_status_of_ne _ _ _ _ ht']
    exact (h.status t').after
  · intro j _
    show Function.update x.now i (src.beat 0) j = (Function.update s.table i _ j).beat 0
    by_cases hj : j = i
    · subst hj
      rw [Function.update_self, Function.update_self, hnew]
    · rw [Function.update_of_ne hj, Function.update_of_ne hj]
      exact h.now_eq_of_ne hp hj
  · funext j
    show (Function.update x.now i (src.beat 0) j).beat 0 = Function.update x.now i (src.beat 0) j
    by_cases hj : j = i
    · subst hj
      rw [Function.update_self]
      rfl
    · rw [Function.update_of_ne hj]
      exact congrFun h.still j

/-- An operation under the lock that finds nothing to store takes effect at its last look at the table. -/
theorem Sim.settle {r : Res} (h : Sim s x) (hx : registry.Runs H x) (hh : (s.pc t).holds = true)
    (hw : ∀ i, ¬ (s.pc t).Writes i) (hl : op.locks = true) (hpend : Pending op (x.status t))
    (ho : ∀ q, registry.Outcome (x.scene t q) op r x.now) (hlock : s'.lock = s.lock)
    (htable : ∀ i, (s'.table i).beat 0 = (s.table i).beat 0)
    (hpc : s'.pc = Function.update s.pc t (.unlock op r)) : ∃ x', registry.Runs H x' ∧ Sim s' x' := by
  obtain ⟨q, hq⟩ : ∃ q, x.status t = .pending op q := by
    rwa [Pending, if_pos hl] at hpend
  have hset := Object.State.set_of_status hq
  have ho' := ho q
  rw [← hset] at hx ho'
  exact ⟨_, hx.observe ho', h.move hlock htable hpc ⟨hl, rfl⟩ (fun _ => hh) hw fun _ => trivial⟩

/-! ### Steps -/

section
variable (h : Sim s x) (hh : (s.pc t).holds = op.locks) (hw : ∀ i, ¬ (s.pc t).Writes i)
  (hpend : Pending op (x.status t))
include h hh hw hpend

/-- The first loop passes entry `i`. -/
theorem Sim.scan (hx : registry.Runs H x)
    (hk : op.locks = true → ∀ j, j ≤ i → (x.now j).named op.name = false) :
    ∃ x', registry.Runs H x' ∧ Sim (s.setPc t (scan op i)) x' := by
  unfold RegistryLock.scan
  split
  · rename_i j hj
    refine ⟨x, hx, h.silent rfl (fun _ => rfl) rfl hpend (fun hl => hh.trans hl) hw fun hl k hk' => ?_⟩
    exact hk hl k ((next_some hj k).1 hk')
  · rename_i hlast
    have hnone (hl : op.locks = true) : x.now.find (·.named op.name) = none :=
      find_eq_none fun j => hk hl j (next_none hlast j)
    cases op with
    | register name msgType sensorId pid =>
      refine ⟨x, hx, h.silent rfl (fun _ => rfl) rfl hpend (fun _ => hh) hw fun _ => ⟨hnone rfl, ?_⟩⟩
      exact fun j hj => absurd hj (not_lt_first j)
    | unregister name =>
      refine h.settle hx hh hw rfl hpend (fun q => ?_) rfl (fun _ => rfl) rfl
      show _ = x.now.unregisterChannel name
      unfold Table.unregisterChannel
      rw [show x.now.find (·.named name) = none from hnone rfl]
    | touch name | contains name =>
      exact ⟨x, hx, h.silent rfl (fun _ => rfl) rfl hpend (fun hd => by cases hd) hw fun hd => by cases hd⟩

/-- The first loop finds the name in entry `i`. -/
theorem Sim.hit (hk : op.locks = true → x.now.find (·.named op.name) = some i) :
    Sim (s.setPc t (hit op i)) x := by
  cases op with
  | register name msgType sensorId pid =>
    exact h.silent rfl (fun _ => rfl) rfl hpend (fun _ => hh) hw fun _ => ⟨hk rfl, fun _ heq => by cases heq⟩
  | unregister name =>
    refine h.silent rfl (fun _ => rfl) rfl ⟨rfl, hpend⟩ (fun _ => hh) hw fun _ => ⟨⟨hk rfl, rfl⟩, ?_⟩
    exact fun c hc => absurd (mem_cells c) hc
  | touch name | contains name =>
    exact h.silent rfl (fun _ => rfl) rfl hpend (fun hd => by cases hd) hw fun hd => by cases hd

end

theorem Sim.active (h : Sim s x) (hx : registry.Runs H x) (hp : s.pc t = .active op i) :
    ∃ x', registry.Runs H x' ∧
      Sim (s.setPc t (if (s.table i).active then .compare op i 0 else RegistryLock.scan op i)) x' := by
  have hh : (s.pc t).holds = op.locks := by rw [hp]; rfl
  have hw (j : Fin kMaxChannels) : ¬ (s.pc t).Writes j := by rw [hp]; exact id
  have hpend : Pending op (x.status t) := by have := h.status t; rw [hp] at this; exact this
  have hk (hl : op.locks = true) : Knows x.now s (.active op i) := hp ▸ h.knows t (hh.trans hl)
  have hnow (hl : op.locks = true) : x.now i = (s.table i).beat 0 := h.now_eq (hh.trans hl) hw i
  split
  · rename_i ha
    refine ⟨x, hx, h.silent rfl (fun _ => rfl) rfl hpend (fun hl => hh.trans hl) hw fun hl => ⟨hk hl, ?_, by decide, ?_⟩⟩
    · rw [hnow hl]
      exact ha
    · exact fun j hj => absurd hj (Nat.not_lt_zero j)
  · rename_i ha
    refine h.scan hh hw hpend hx fun hl j hj => ?_
    rcases lt_or_eq_of_le hj with hlt | rfl
    · exact hk hl j hlt
    · have hidle : (x.now j).active = false := by
        rw [hnow hl]
        exact Bool.eq_false_iff.2 ha
      simp [ChannelEntry.named, hidle]

theorem Sim.compare {k : Nat} (h : Sim s x) (hx : registry.Runs H x) (hp : s.pc t = .compare op i k)
    {now : BitVec 64} (hs : runStep s t now (.compare op i k) = some s') :
    ∃ x', registry.Runs H x' ∧ Sim s' x' := by
  have hh : (s.pc t).holds = op.locks := by rw [hp]; rfl
  have hw (j : Fin kMaxChannels) : ¬ (s.pc t).Writes j := by rw [hp]; exact id
  have hpend : Pending op (x.status t) := by have := h.status t; rw [hp] at this; exact this
  have hk (hl : op.locks = true) : Knows x.now s (.compare op i k) := hp ▸ h.knows t (hh.trans hl)
  have hname (hl : op.locks = true) : (x.now i).name = (s.table i).name := by
    rw [h.now_eq (hh.trans hl) hw i]
    rfl
  simp only [runStep] at hs
  split_ifs at hs with hne hend <;> cases hs
  · refine h.scan hh hw hpend hx fun hl j hj => ?_
    obtain ⟨hbefore, -, hlt, hmatch⟩ := hk hl
    rcases lt_or_eq_of_le hj with hj | rfl
    · exact hbefore j hj
    · exact not_named_of_compare hmatch hlt (by rw [hname hl]; exact hne)
  · refine ⟨x, hx, h.hit hh hw hpend fun hl => ?_⟩
    obtain ⟨hbefore, ha, hlt, hmatch⟩ := hk hl
    refine find_eq_some (named_of_compare ha hmatch hlt ?_ ?_) hbefore
    · rw [hname hl]
      exact not_not.1 hne
    · rw [hname hl]
      exact hend
  · refine ⟨x, hx, h.silent rfl (fun _ => rfl) rfl hpend (fun hl => hh.trans hl) hw fun hl => ?_⟩
    obtain ⟨hbefore, ha, hlt, hmatch⟩ := hk hl
    rw [not_or] at hend
    refine ⟨hbefore, ha, by omega, fun j hj => ?_⟩
    rcases Nat.lt_or_eq_of_le (Nat.le_of_lt_succ hj) with hj | rfl
    · exact hmatch j hj
    · rw [hname hl]
      exact ⟨not_not.1 hne, hend.1⟩

theorem Sim.free {name : List Byte} {msgType sensorId : BitVec 16} {pid : BitVec 32} {now : BitVec 64}
    (h : Sim s x) (hx : registry.Runs H x) (hp : s.pc t = .free name msgType sensorId pid i)
    (hs : runStep s t now (.free name msgType sensorId pid i) = some s') :
    ∃ x', registry.Runs H x' ∧ Sim s' x' := by
  have hh : (s.pc t).holds = true := by rw [hp]; rfl
  have hw (j : Fin kMaxChannels) : ¬ (s.pc t).Writes j := by rw [hp]; exact id
  have hpend : Pending (.register name msgType sensorId pid) (x.status t) := by
    have := h.status t; rw [hp] at this; exact this
  obtain ⟨hnone, hbusy⟩ : Knows x.now s (.free name msgType sensorId pid i) := hp ▸ h.knows t hh
  have hnow := h.now_eq hh hw i
  simp only [runStep] at hs
  split_ifs at hs with ha
  · have hle (k : Fin kMaxChannels) (hk : k ≤ i) : (x.now k).active = true := by
      rcases lt_or_eq_of_le hk with hk | rfl
      · exact hbusy k hk
      · rw [hnow]
        exact ha
    split at hs <;> cases hs
    · rename_i j hj
      refine ⟨x, hx, h.silent rfl (fun _ => rfl) rfl hpend (fun _ => hh) hw fun _ => ⟨hnone, fun k hk => ?_⟩⟩
      exact hle k ((next_some hj k).1 hk)
    · rename_i hlast
      refine h.settle (r := .registered false) hx hh hw rfl hpend (fun q => ⟨now, x.now, ?_, h.still.symm⟩) rfl
        (fun _ => rfl) rfl
      show x.now.registerChannel name msgType sensorId pid now = _
      have hfull : x.now.find (!·.active) = none :=
        find_eq_none fun k => by rw [hle k (next_none hlast k)]; rfl
      unfold Table.registerChannel
      rw [hnone, hfull]
  · cases hs
    refine ⟨x, hx, h.silent rfl (fun _ => rfl) rfl ⟨rfl, hpend⟩ (fun _ => hh) hw fun _ => ⟨⟨hnone, ?_, now, ?_⟩, ?_⟩⟩
    · refine find_eq_some ?_ fun j hj => by rw [hbusy j hj]; rfl
      rw [hnow, Bool.eq_false_iff.2 (show ¬ ((s.table i).beat 0).active = true from ha)]
      rfl
    · rw [hnow]
      rfl
    · exact fun c hc => absurd (mem_cells c) hc

theorem Sim.beat (h : Sim s x) (hx : registry.Runs H x) (hp : s.pc t = .beat op i) (now : BitVec 64) :
    ∃ x', registry.Runs H x' ∧ Sim ((s.setEntry i ((s.table i).beat now)).setPc t
      (if op.locks then .unlock op (.registered true) else .done op .unit)) x' := by
  have hh : (s.pc t).holds = op.locks := by rw [hp]; rfl
  have hw (j : Fin kMaxChannels) : ¬ (s.pc t).Writes j := by rw [hp]; exact id
  have hpend : Pending op (x.status t) := by have := h.status t; rw [hp] at this; exact this
  split
  · rename_i hl
    obtain ⟨hfind, hop⟩ : Knows x.now s (.beat op i) := hp ▸ h.knows t (hh.trans hl)
    refine h.settle hx (hh.trans hl) hw hl hpend (fun q => ?_) rfl (still_beat s.table i now) rfl
    cases op with
    | register name msgType sensorId pid =>
      refine ⟨now, Function.update x.now i ((x.now i).beat now), ?_, ?_⟩
      · show x.now.registerChannel name msgType sensorId pid now = _
        unfold Table.registerChannel
        rw [show x.now.find (·.named name) = some i from hfind]
      · funext j
        rw [← congrFun h.still j]
        exact (still_beat x.now i now j).symm
    | unregister name => exact absurd rfl (hop name)
    | touch | contains => cases hl
  · rename_i hl
    refine ⟨x, hx, h.silent rfl (still_beat s.table i now) rfl ?_ (fun hd => by cases hd) hw fun hd => by cases hd⟩
    rw [Pending, if_neg hl] at hpend
    show x.status t = _
    rw [if_neg hl]
    exact hpend

theorem Sim.run {now : BitVec 64} (h : Sim s x) (hx : registry.Runs H x)
    (hs : runStep s t now (s.pc t) = some s') :
    ∃ x', registry.Runs (H ++ history s (.run t now) s') x' ∧ Sim s' x' := by
  have hst := h.status t
  -- the threads without the lock
  have hfree {pc : Pc} (hp : ∀ i, ¬ (s.pc t).Writes i) (hh : pc.holds = false) (hok : StatusOk pc (x.status t)) :
      Sim (s.setPc t pc) x :=
    h.silent rfl (fun _ => rfl) rfl hok (fun hd => by rw [hh] at hd; cases hd) hp
      fun hd => by rw [hh] at hd; cases hd
  rcases hp : s.pc t with _ | op | ⟨op, i⟩ | ⟨op, i, k⟩ | ⟨name, msgType, sensorId, pid, i⟩ | ⟨op, i, src, todo⟩ |
    ⟨op, i⟩ | ⟨op, r⟩ | ⟨i, acc⟩ | ⟨i, e, todo, acc⟩ | ⟨op, r⟩ | l <;>
    rw [hp] at hs hst <;> simp only [history, hp, List.append_nil]
  case idle | write | copy => cases hs
  case lock =>
    simp only [runStep] at hs
    split at hs <;> cases hs
    · exact ⟨x, hx, h.lock ‹_› hp⟩
    · exact ⟨x, hx, h⟩
  case active =>
    obtain ⟨x', hx', hsim⟩ := h.active hx hp
    simp only [runStep] at hs
    split at hs <;> cases hs
    · rw [if_pos ‹_›] at hsim
      exact ⟨x', hx', hsim⟩
    · rw [if_neg ‹_›] at hsim
      exact ⟨x', hx', hsim⟩
  case compare => exact h.compare hx hp hs
  case free => exact h.free hx hp hs
  case beat =>
    cases hs
    exact h.beat hx hp now
  case unlock =>
    cases hs
    exact ⟨x, hx, h.unlock hp⟩
  case listing =>
    simp only [runStep] at hs
    split at hs <;> cases hs
    · exact ⟨x, hx, hfree (by rw [hp]; exact fun _ => id) rfl hst⟩
    · refine ⟨x, hx, ?_⟩
      unfold listNext
      split <;> exact hfree (by rw [hp]; exact fun _ => id) rfl hst
  case listed =>
    cases hs
    exact ⟨x, hx, hfree (by rw [hp]; exact fun _ => id) rfl hst⟩
  case done =>
    cases hs
    have hret : x.status t = if op.locks then .done op r else .idle := hst
    split
    · rw [if_pos ‹_›] at hret
      refine ⟨_, hx.ret hret, h.move rfl (fun _ => rfl) rfl rfl (fun hd => by cases hd) ?_ fun hd => by cases hd⟩
      rw [hp]
      exact fun _ => id
    · rw [if_neg ‹_›] at hret
      rw [List.append_nil]
      exact ⟨x, hx, hfree (by rw [hp]; exact fun _ => id) rfl hret⟩

theorem Sim.step {a : Act τ} {o : List Empty} (h : Sim s x) (hx : registry.Runs H x)
    (hs : step s a = some (s', o)) : ∃ x', registry.Runs (H ++ history s a s') x' ∧ Sim s' x' := by
  cases a with
  | call t op =>
    have hst := h.status t
    simp only [RegistryLock.step] at hs
    split at hs <;> cases hs
    rename_i hp
    rw [hp] at hst
    have hw (i : Fin kMaxChannels) : ¬ (s.pc t).Writes i := by rw [hp]; exact id
    simp only [history]
    split
    · rename_i hl
      refine ⟨_, hx.call t op hst, h.move rfl (fun _ => rfl) rfl ⟨hl, ?_⟩ (fun hd => by cases hd) hw
        fun hd => by cases hd⟩
      rw [Pending, if_pos hl]
      exact ⟨_, rfl⟩
    · rename_i hl
      rw [List.append_nil]
      refine ⟨x, hx, h.silent rfl (fun _ => rfl) rfl ?_ (fun hd => absurd hd hl) hw fun hd => absurd hd hl⟩
      show Pending op _
      rw [Pending, if_neg hl]
      exact hst
  | list t =>
    have hst := h.status t
    simp only [RegistryLock.step] at hs
    split at hs <;> cases hs
    rename_i hp
    rw [hp] at hst
    simp only [history, List.append_nil]
    exact ⟨x, hx, h.silent rfl (fun _ => rfl) rfl hst (fun hd => by cases hd) (by rw [hp]; exact fun _ => id)
      fun hd => by cases hd⟩
  | run t now =>
    simp only [RegistryLock.step, Option.map_eq_some_iff, Prod.mk.injEq] at hs
    obtain ⟨s₁, hs, rfl, -⟩ := hs
    exact h.run hx hs
  | cell t c =>
    simp only [RegistryLock.step, Option.map_eq_some_iff, Prod.mk.injEq] at hs
    obtain ⟨s₁, hs, rfl, -⟩ := hs
    have hst := h.status t
    simp only [history, List.append_nil]
    rcases hp : s.pc t with _ | op | ⟨op, i⟩ | ⟨op, i, k⟩ | ⟨name, msgType, sensorId, pid, i⟩ | ⟨op, i, src, todo⟩ |
      ⟨op, i⟩ | ⟨op, r⟩ | ⟨i, acc⟩ | ⟨i, e, todo, acc⟩ | ⟨op, r⟩ | l <;> rw [hp] at hs hst <;>
      simp only [cellStep, reduceCtorEq] at hs
    case write =>
      split_ifs at hs with hc hrest <;> cases hs
      · exact h.storeLast hx hp hrest
      · exact ⟨x, hx, h.store hp⟩
    case copy =>
      have hw (i : Fin kMaxChannels) : ¬ (s.pc t).Writes i := by rw [hp]; exact id
      split_ifs at hs with hc hrest <;> cases hs
      · refine ⟨x, hx, ?_⟩
        unfold listNext
        split <;> exact h.silent rfl (fun _ => rfl) rfl hst (fun hd => by cases hd) hw fun hd => by cases hd
      · exact ⟨x, hx, h.silent rfl (fun _ => rfl) rfl hst (fun hd => by cases hd) hw fun hd => by cases hd⟩
  | spurious t =>
    simp only [RegistryLock.step] at hs
    split at hs <;> cases hs
    simp only [history, List.append_nil]
    exact ⟨x, hx, h⟩

omit [DecidableEq τ] in
theorem Sim.init : Sim (⟨0, fun _ => .default, fun _ => .idle⟩ : State τ) ⟨registry.init, fun _ => .idle⟩ where
  status _ := rfl
  locked _ h := by cases h
  alone _ _ h := by cases h
  table _ _ := rfl
  still := rfl
  knows _ h := by cases h

/-- In every run of any number of threads and processes, one access at a time, stores torn and in any order: at
most one thread is inside a guard; and the calls and returns of `register_channel` and `unregister_channel` are
those of a table, heartbeats apart, on which each takes effect at one instant between its call and its return,
whatever `touch`, `contains` and `list` do meanwhile. -/
theorem linearizable_registry (tr : List Empty) (H : List (Hist τ Op Res)) (s : State τ)
    (h : machine.Observed Machine.free history tr H s) :
    (∀ t t', (s.pc t).holds = true → (s.pc t').holds = true → t = t') ∧ registry.Linearizable H := by
  have hsim : ∃ x, registry.Runs H x ∧ Sim s x := by
    refine h.simulation (R := fun _ => Sim) (B := fun _ => True) (fun _ _ _ => trivial) Sim.init ?_ trivial
    intro tr H s a s' o x _ _ _ hs hx hsim
    exact hsim.step hx hs
  obtain ⟨x, hx, hsim⟩ := hsim
  exact ⟨hsim.alone, x, hx⟩

/-- Two threads register one channel: the second spins until the first is done, and finds the entry. -/
theorem linearizable_registry_contended :
    ∃ H : List (Hist Nat Op Res), registry.Linearizable H ∧
      H = [.call 0 (.register lidar 2 1 7), .call 1 (.register lidar 3 2 8), .ret 0 (.registered true),
        .ret 1 (.registered true)] := by
  let M : Machine (State Nat) (Act Nat) Empty := machine
  let acts : List (Act Nat) :=
    [.call 0 (.register lidar 2 1 7), .run 0 0, .call 1 (.register lidar 3 2 8), .run 1 0] ++
      List.replicate 64 (.run 0 0) ++ [.run 0 5] ++ cells.map (.cell 0) ++ [.run 0 0, .run 0 0] ++
      List.replicate 12 (.run 1 9)
  have hexec : (M.watch history M.init acts).map (fun r => r.2.1) =
      some [.call 0 (.register lidar 2 1 7), .call 1 (.register lidar 3 2 8), .ret 0 (.registered true),
        .ret 1 (.registered true)] := by
    decide +kernel
  obtain ⟨tr, H, s, hrun, hend⟩ := Machine.exists_of_watch hexec
  exact ⟨H, (linearizable_registry tr H s hrun).2, hend⟩

end Lwipc.RegistryLock
