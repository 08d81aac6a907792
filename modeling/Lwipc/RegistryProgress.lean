import Lwipc.RegistryLookup

/-!
# Who waits for whom at the registry's lock

A thread spins at the guard's exchange and nowhere else. The loops of an operation go over the table once or
twice, so what it does besides spinning is bounded (`registry_progress`), whatever the others do to the table
meanwhile; and somebody holds the lock whenever it is taken. A lookup never waits. What the lock cannot do is
survive its holder: a thread that stops between the exchange and the store of the destructor, or a process
that dies there, leaves every later `register_channel` and `unregister_channel` spinning and the table as it
is (`holder_stops`).
-/

namespace Lwipc.RegistryLock

open CString ChannelRegistry

variable {τ : Type} [DecidableEq τ] {s s' : State τ} {a : Act τ} {t : τ} {o tr : List Empty} {l l' : Nat}
  {pc pc' : Pc}

/-- What a thread does: it begins a call, it goes on with it, or its exchange fails. -/
inductive Access
  | call (op : Op)
  | list
  | run
  | wait
  deriving DecidableEq

/-- The exchange of the guard finds the lock taken. -/
def Pc.spins (l : Nat) : Pc → Bool
  | .lock _ => l ≠ 0
  | _ => false

def Act.access (s : State τ) : Act τ → Access
  | .call _ op => .call op
  | .list _ => .list
  | .run t _ => if (s.pc t).spins s.lock then .wait else .run
  | .cell _ _ => .run
  | .spurious _ => .wait

/-- What thread `t` does. -/
def accesses (t : τ) (s : State τ) (a : Act τ) (_ : State τ) : List Access :=
  if a.thread = t then [a.access s] else []

/-- The steps that a call may take besides spinning. In the first loop an entry costs a load by `active()` and
63 by `strncmp`; the second one is 64 loads, and an entry has 69 cells. -/
def Access.allowance : Access → Nat
  | .call (.register ..) => 1 + 64 * (1 + 63) + 64 + 69 + 2
  | .call (.unregister _) => 1 + 64 * (1 + 63) + 69 + 2
  | .call (.touch _) => 64 * (1 + 63) + 2
  | .call (.contains _) => 64 * (1 + 63) + 1
  | .list => 64 * (1 + 69) + 1
  | .run | .wait => 0

def allowance (H : List Access) : Nat := (H.map Access.allowance).sum

/-! ### What a step does to its thread and to the lock -/

/-- The steps of one thread, whatever it finds in the table: from where it stands and the value of the lock
to where it stands then and the new value. -/
inductive Goes (l : Nat) : Pc → Access → Nat → Pc → Prop
  | call (op : Op) : Goes l .idle (.call op) l (if op.locks then .lock op else .active op first)
  | list : Goes l .idle .list l (.listing first [])
  | wait (op : Op) : Goes l (.lock op) .wait l (.lock op)
  | lock (op : Op) (h0 : l = 0) : Goes l (.lock op) .run 1 (.active op first)
  | active (op : Op) (i : Fin kMaxChannels) : Goes l (.active op i) .run l (.compare op i 0)
  | passed (op : Op) (i : Fin kMaxChannels) : Goes l (.active op i) .run l (scan op i)
  | differ (op : Op) (i : Fin kMaxChannels) (k : Nat) : Goes l (.compare op i k) .run l (scan op i)
  | hit (op : Op) (i : Fin kMaxChannels) (k : Nat) : Goes l (.compare op i k) .run l (hit op i)
  | compare (op : Op) (i : Fin kMaxChannels) (k : Nat) (hk : k + 1 ≠ 63) :
      Goes l (.compare op i k) .run l (.compare op i (k + 1))
  | taken (name : List Byte) (msgType sensorId : BitVec 16) (pid : BitVec 32) (i j : Fin kMaxChannels)
      (hj : next i = some j) :
      Goes l (.free name msgType sensorId pid i) .run l (.free name msgType sensorId pid j)
  | full (name : List Byte) (msgType sensorId : BitVec 16) (pid : BitVec 32) (i : Fin kMaxChannels) :
      Goes l (.free name msgType sensorId pid i) .run l
        (.unlock (.register name msgType sensorId pid) (.registered false))
  | fill (name : List Byte) (msgType sensorId : BitVec 16) (pid : BitVec 32) (i : Fin kMaxChannels)
      (src : ChannelEntry) :
      Goes l (.free name msgType sensorId pid i) .run l (.write (.register name msgType sensorId pid) i src cells)
  | beat (op : Op) (i : Fin kMaxChannels) :
      Goes l (.beat op i) .run l (if op.locks then .unlock op (.registered true) else .done op .unit)
  | unlock (op : Op) (r : Res) : Goes l (.unlock op r) .run 0 (.done op r)
  | store (op : Op) (i : Fin kMaxChannels) (src : ChannelEntry) (todo rest : List Cell)
      (hlt : rest.length < todo.length) (hne : rest ≠ []) :
      Goes l (.write op i src todo) .run l (.write op i src rest)
  | stored (op : Op) (i : Fin kMaxChannels) (src : ChannelEntry) (todo : List Cell) (hne : todo ≠ []) :
      Goes l (.write op i src todo) .run l (.unlock op op.stored)
  | listing (i : Fin kMaxChannels) (acc : List ChannelEntry) :
      Goes l (.listing i acc) .run l (.copy i .default cells acc)
  | listNext (i : Fin kMaxChannels) (acc : List ChannelEntry) : Goes l (.listing i acc) .run l (listNext i acc)
  | load (i : Fin kMaxChannels) (e e' : ChannelEntry) (todo rest : List Cell) (acc : List ChannelEntry)
      (hlt : rest.length < todo.length) (hne : rest ≠ []) :
      Goes l (.copy i e todo acc) .run l (.copy i e' rest acc)
  | loaded (i : Fin kMaxChannels) (e : ChannelEntry) (todo : List Cell) (acc acc' : List ChannelEntry)
      (hne : todo ≠ []) : Goes l (.copy i e todo acc) .run l (RegistryLock.listNext i acc')
  | ret (op : Op) (r : Res) : Goes l (.done op r) .run l .idle
  | listed (found : List ChannelEntry) : Goes l (.listed found) .run l .idle

omit [DecidableEq τ] in
theorem length_filter_ne_lt {c : Cell} {todo : List Cell} (h : c ∈ todo) :
    (todo.filter (· ≠ c)).length < todo.length := by
  refine List.length_filter_lt_length_iff_exists.2 ⟨c, h, ?_⟩
  simp

theorem goes_of_run {now : BitVec 64} (hp : s.pc t = pc) (hs : runStep s t now pc = some s') :
    Goes s.lock pc (if pc.spins s.lock then .wait else .run) s'.lock (s'.pc t) := by
  cases pc with
  | idle | write | copy =>
    cases hs
  | lock op =>
    simp only [runStep] at hs
    split at hs <;> cases hs
    · rename_i h0
      rw [State.setPc_pc_self, show (Pc.lock op).spins s.lock = false by simp [Pc.spins, h0]]
      exact .lock op h0
    · rename_i h0
      rw [hp, show (Pc.lock op).spins s.lock = true by simp [Pc.spins, h0]]
      exact .wait op
  | active op i =>
    simp only [runStep] at hs
    split at hs <;> cases hs <;> rw [State.setPc_pc_self]
    · exact .active op i
    · exact .passed op i
  | compare op i k =>
    simp only [runStep] at hs
    split at hs
    · cases hs
      rw [State.setPc_pc_self]
      exact .differ op i k
    · split at hs <;> cases hs <;> rw [State.setPc_pc_self]
      · exact .hit op i k
      · rename_i hend
        exact .compare op i k fun hk => hend (.inr hk)
  | free name msgType sensorId pid i =>
    simp only [runStep] at hs
    split at hs
    · split at hs <;> cases hs <;> rw [State.setPc_pc_self]
      · rename_i j hj
        exact .taken name msgType sensorId pid i j hj
      · exact .full name msgType sensorId pid i
    · cases hs
      rw [State.setPc_pc_self]
      exact .fill name msgType sensorId pid i _
  | beat op i =>
    cases hs
    rw [State.setPc_pc_self]
    exact .beat op i
  | unlock op r =>
    cases hs
    rw [State.setPc_pc_self]
    exact .unlock op r
  | listing i acc =>
    simp only [runStep] at hs
    split at hs <;> cases hs <;> rw [State.setPc_pc_self]
    · exact .listing i acc
    · exact .listNext i acc
  | done op r =>
    cases hs
    rw [State.setPc_pc_self]
    exact .ret op r
  | listed found =>
    cases hs
    rw [State.setPc_pc_self]
    exact .listed found

theorem goes_of_cell {c : Cell} (hs : cellStep s t c (s.pc t) = some s') :
    Goes s.lock (s.pc t) .run s'.lock (s'.pc t) := by
  cases hp : s.pc t <;> rw [hp] at hs <;> simp only [cellStep, reduceCtorEq] at hs
  case write op i src todo =>
    split at hs <;> cases hs
    rename_i hc
    rw [State.setPc_pc_self]
    split
    · exact .stored op i src todo (List.ne_nil_of_mem hc)
    · exact .store op i src todo _ (length_filter_ne_lt hc) ‹_›
  case copy i e todo acc =>
    split at hs <;> cases hs
    rename_i hc
    rw [State.setPc_pc_self]
    split
    · exact .loaded i e todo acc _ (List.ne_nil_of_mem hc)
    · exact .load i e _ todo _ acc (length_filter_ne_lt hc) ‹_›

theorem goes_of_step (hs : step s a = some (s', o)) :
    Goes s.lock (s.pc a.thread) (a.access s) s'.lock (s'.pc a.thread) := by
  cases a with
  | call t op =>
    simp only [step] at hs
    split at hs <;> cases hs
    rename_i hp
    rw [Act.thread, State.setPc_pc_self, hp]
    exact .call op
  | list t =>
    simp only [step] at hs
    split at hs <;> cases hs
    rename_i hp
    rw [Act.thread, State.setPc_pc_self, hp]
    exact .list
  | run t now =>
    simp only [step, Option.map_eq_some_iff, Prod.mk.injEq] at hs
    obtain ⟨s₁, hs, rfl, -⟩ := hs
    exact goes_of_run rfl hs
  | cell t c =>
    simp only [step, Option.map_eq_some_iff, Prod.mk.injEq] at hs
    obtain ⟨s₁, hs, rfl, -⟩ := hs
    exact goes_of_cell hs
  | spurious t =>
    simp only [step] at hs
    split at hs <;> cases hs
    rename_i op hp
    rw [Act.thread, hp]
    exact .wait op

/-! ### What is left of a call -/

/-- What is left when the first loop is over or has found the name. -/
def Op.rest : Op → Nat
  | .register .. => 64 + 69 + 2
  | .unregister _ => 69 + 2
  | .touch _ => 2
  | .contains _ => 1

/-- The steps that are left in a call besides spinning. -/
def rank : Pc → Nat
  | .idle => 0
  | .lock op => 1 + 64 * (1 + 63) + op.rest
  | .active op i => (64 - i) * (1 + 63) + op.rest
  | .compare op i k => 63 - k + (63 - i) * (1 + 63) + op.rest
  | .free _ _ _ _ i => 64 - i + 69 + 2
  | .write _ _ _ todo => todo.length + 2
  | .beat op _ => if op.locks then 3 else 2
  | .unlock _ _ => 2
  | .listing i _ => (64 - i) * (1 + 69) + 1
  | .copy i _ todo _ => todo.length + (63 - i) * (1 + 69) + 1
  | .done _ _ | .listed _ => 1

/-- A guard is one of `register_channel` or `unregister_channel`, `strncmp` stops in front of byte 63, and who
stores or loads cells has some left. -/
def Pc.Within : Pc → Prop
  | .lock op => op.locks = true
  | .compare _ _ k => k < 63
  | .write _ _ _ todo | .copy _ _ todo _ => todo ≠ []
  | _ => True

omit [DecidableEq τ] in
theorem length_cells : cells.length = 69 := by
  rw [cells, List.length_append, List.length_map, List.length_finRange]
  rfl

omit [DecidableEq τ] in
theorem next_val {i j : Fin kMaxChannels} (h : next i = some j) : j.val = i.val + 1 := by
  unfold next at h
  split at h <;> cases h
  rfl

omit [DecidableEq τ] in
theorem rank_scan (op : Op) (i : Fin kMaxChannels) : rank (scan op i) ≤ (63 - i) * (1 + 63) + op.rest := by
  unfold scan
  split
  · rename_i j hj
    have hval := next_val hj
    simp only [rank]
    omega
  · refine Nat.le_trans ?_ (Nat.le_add_left _ _)
    cases op <;> simp [rank, first, Op.rest]

omit [DecidableEq τ] in
theorem rank_hit (op : Op) (i : Fin kMaxChannels) : rank (hit op i) ≤ op.rest := by
  cases op with
  | register | touch | contains => simp [hit, rank, Op.locks, Op.rest]
  | unregister name => simp [hit, rank, Op.rest, length_cells]

omit [DecidableEq τ] in
theorem rank_listNext (i : Fin kMaxChannels) (acc : List ChannelEntry) :
    rank (listNext i acc) ≤ (63 - i) * (1 + 69) + 1 := by
  unfold listNext
  split
  · rename_i j hj
    have hval := next_val hj
    simp only [rank]
    omega
  · exact Nat.le_add_left _ _

omit [DecidableEq τ] in
/-- Every step but a failed exchange brings the call closer to its end. -/
theorem Goes.rank_lt (h : Goes l pc .run l' pc') (hw : pc.Within) : rank pc' < rank pc := by
  have hlt (i : Fin kMaxChannels) : i.val < 64 := i.isLt
  cases h with
  | lock op =>
    simp only [rank, first]
    omega
  | active op i =>
    have hi := hlt i
    simp only [rank]
    omega
  | passed op i =>
    have hi := hlt i
    refine Nat.lt_of_le_of_lt (rank_scan op i) ?_
    simp only [rank]
    omega
  | differ op i k =>
    have hk : k < 63 := hw
    refine Nat.lt_of_le_of_lt (rank_scan op i) ?_
    simp only [rank]
    omega
  | hit op i k =>
    have hk : k < 63 := hw
    refine Nat.lt_of_le_of_lt (rank_hit op i) ?_
    simp only [rank]
    omega
  | compare op i k hend =>
    have hk : k < 63 := hw
    simp only [rank]
    omega
  | taken name msgType sensorId pid i j hj =>
    have hval := next_val hj
    have hi := hlt j
    simp only [rank]
    omega
  | full name msgType sensorId pid i =>
    simp only [rank]
    omega
  | fill name msgType sensorId pid i src =>
    have hi := hlt i
    simp only [rank, length_cells]
    omega
  | beat op i => cases hl : op.locks <;> simp [rank, hl]
  | unlock op r => exact Nat.lt_succ_self 1
  | store op i src todo rest hless => exact Nat.add_lt_add_right hless 2
  | stored op i src todo hne =>
    have hpos := List.length_pos_of_ne_nil hne
    simp only [rank]
    omega
  | listing i acc =>
    have hi := hlt i
    simp only [rank, length_cells]
    omega
  | listNext i acc =>
    have hi := hlt i
    refine Nat.lt_of_le_of_lt (rank_listNext i acc) ?_
    simp only [rank]
    omega
  | load i e e' todo rest acc hless =>
    simp only [rank]
    omega
  | loaded i e todo acc acc' hne =>
    have hpos := List.length_pos_of_ne_nil hne
    refine Nat.lt_of_le_of_lt (rank_listNext i acc') ?_
    simp only [rank]
    omega
  | ret | listed => exact Nat.zero_lt_one

omit [DecidableEq τ] in
/-- A call is allowed what it may take. -/
theorem Goes.cost {b : Access} (h : Goes l pc b l' pc') (hw : pc.Within) :
    [b].count .run + rank pc' ≤ rank pc + allowance [b] := by
  cases b with
  | run =>
    have hlt := h.rank_lt hw
    simp only [List.count_singleton_self, allowance, List.map_singleton, List.sum_singleton, Access.allowance]
    omega
  | wait =>
    cases h
    simp [allowance, Access.allowance]
  | list =>
    cases h
    simp [allowance, Access.allowance, rank, first]
  | call op =>
    cases h
    cases op <;> simp [allowance, Access.allowance, rank, first, Op.locks, Op.rest]

omit [DecidableEq τ] in
theorem Goes.within {b : Access} (h : Goes l pc b l' pc') (hw : pc.Within) : pc'.Within := by
  have hcells : cells ≠ [] := List.ne_nil_of_length_pos (length_cells ▸ by decide)
  cases h with
  | call op => cases op <;> trivial
  | wait op => exact hw
  | active op i => exact Nat.zero_lt_succ _
  | passed op i | differ op i k =>
    unfold scan
    split
    · trivial
    · cases op <;> trivial
  | hit op i k =>
    cases op with
    | unregister name => exact hcells
    | register | touch | contains => trivial
  | compare op i k hend =>
    have hk : k < 63 := hw
    show k + 1 < 63
    omega
  | fill | listing => exact hcells
  | store op i src todo rest hlt hne => exact hne
  | load i e e' todo rest acc hlt hne => exact hne
  | beat op i => cases hl : op.locks <;> simp [Pc.Within]
  | listNext i acc | loaded i e todo acc acc' =>
    unfold RegistryLock.listNext
    split <;> trivial
  | list | lock | taken | full | unlock | stored | ret | listed => trivial

/-! ### The lock has an owner -/

omit [DecidableEq τ] in
theorem holds_scan {op : Op} (hl : op.locks = true) (i : Fin kMaxChannels) : (scan op i).holds = true := by
  unfold scan
  split
  · exact hl
  · cases op with
    | register | unregister => rfl
    | touch | contains => cases hl

omit [DecidableEq τ] in
theorem holds_hit {op : Op} (hl : op.locks = true) (i : Fin kMaxChannels) : (hit op i).holds = true := by
  cases op with
  | register | unregister => rfl
  | touch | contains => cases hl

omit [DecidableEq τ] in
/-- The owner keeps the lock until it stores 0. -/
theorem Goes.holds {b : Access} (h : Goes l pc b l' pc') (hh : pc.holds = true) :
    pc'.holds = true ∧ l' = l ∨ l' = 0 := by
  cases h with
  | unlock => exact .inr rfl
  | passed op i | differ op i k => exact .inl ⟨holds_scan hh i, rfl⟩
  | hit op i k => exact .inl ⟨holds_hit hh i, rfl⟩
  | active op i | compare op i k => exact .inl ⟨hh, rfl⟩
  | beat op i =>
    have hl : op.locks = true := hh
    rw [hl]
    exact .inl ⟨rfl, rfl⟩
  | taken | full | fill | store | stored => exact .inl ⟨rfl, rfl⟩
  | call | list | wait | lock | listing | listNext | load | loaded | ret | listed => cases hh

omit [DecidableEq τ] in
/-- Who changes the lock gives it back or takes it. -/
theorem Goes.lock_eq {b : Access} (h : Goes l pc b l' pc') (hw : pc.Within) :
    l' = l ∨ l' = 0 ∨ l' = 1 ∧ pc'.holds = true := by
  cases h with
  | lock op => exact .inr (.inr ⟨rfl, hw⟩)
  | unlock => exact .inr (.inl rfl)
  | _ => exact .inl rfl

def Owned (s : State τ) : Prop := s.lock = 0 ∨ s.lock = 1 ∧ ∃ t, (s.pc t).holds = true

theorem Owned.step (h : Owned s) (hw : ∀ t, (s.pc t).Within) (hs : step s a = some (s', o)) : Owned s' := by
  have hgoes := goes_of_step hs
  rcases hgoes.lock_eq (hw _) with heq | h0 | ⟨h1, hh⟩
  · rcases h with h0 | ⟨h1, t, hh⟩
    · exact .inl (heq.trans h0)
    · by_cases ht : t = a.thread
      · subst ht
        rcases hgoes.holds hh with ⟨hh', -⟩ | h0
        · exact .inr ⟨heq.trans h1, _, hh'⟩
        · exact .inl h0
      · refine .inr ⟨heq.trans h1, t, ?_⟩
        rwa [step_pc_of_ne hs ht]
  · exact .inl h0
  · exact .inr ⟨h1, _, hh⟩

theorem within_step (h : ∀ t, (s.pc t).Within) (hs : step s a = some (s', o)) (t : τ) : (s'.pc t).Within := by
  by_cases ht : t = a.thread
  · subst ht
    exact (goes_of_step hs).within (h _)
  · rw [step_pc_of_ne hs ht]
    exact h t

theorem within_of_runs (h : machine.Runs Machine.free tr s) : ∀ t, (s.pc t).Within :=
  h.invariant (I := fun _ s => ∀ t, (s.pc t).Within) (fun _ => trivial)
    fun _ _ _ _ _ hi _ hs => within_step hi hs

theorem owned_of_runs (h : machine.Runs Machine.free tr s) : Owned s := by
  have hboth := h.invariant (I := fun _ s => (∀ t, (s.pc t).Within) ∧ Owned s) ⟨fun _ => trivial, .inl rfl⟩
    fun _ _ _ _ _ hi _ hs => ⟨within_step hi.1 hs, hi.2.step hi.1 hs⟩
  exact hboth.2

/-- The lock is free, or it has one owner. -/
theorem lock_owner (h : machine.Runs Machine.free tr s) :
    s.lock = 0 ∧ (∀ t, (s.pc t).holds = false) ∨ s.lock = 1 ∧ ∃! t, (s.pc t).holds = true := by
  obtain ⟨H, x, -, hsim⟩ := stands_of_runs h
  rcases owned_of_runs h with h0 | ⟨h1, t, hh⟩
  · refine .inl ⟨h0, fun t => Bool.eq_false_iff.2 fun hh => ?_⟩
    have h1 := hsim.locked t hh
    omega
  · exact .inr ⟨h1, t, hh, fun t' hh' => hsim.alone t' t hh' hh⟩

/-! ### Going on -/

/-- The thread can go on with its call. -/
def CanRun (s : State τ) (t : τ) : Prop :=
  ∃ a s' o, Act.thread a = t ∧ a.access s = .run ∧ machine.step s a = some (s', o)

/-- A thread in a call can go on unless it is at the guard and the lock is taken. -/
theorem canRun_of_within (hw : (s.pc t).Within) (hne : s.pc t ≠ .idle) (hspin : (s.pc t).spins s.lock = false) :
    CanRun s t := by
  have hrun (hs : (runStep s t 0 (s.pc t)).isSome = true) : CanRun s t := by
    obtain ⟨s', hs⟩ := Option.isSome_iff_exists.1 hs
    refine ⟨.run t 0, s', [], rfl, ?_, ?_⟩
    · rw [Act.access, hspin]
      rfl
    · show (runStep s t 0 (s.pc t)).map _ = _
      rw [hs]
      rfl
  have hcell {c : Cell} (hs : (cellStep s t c (s.pc t)).isSome = true) : CanRun s t := by
    obtain ⟨s', hs⟩ := Option.isSome_iff_exists.1 hs
    refine ⟨.cell t c, s', [], rfl, rfl, ?_⟩
    show (cellStep s t c (s.pc t)).map _ = _
    rw [hs]
    rfl
  cases hp : s.pc t with
  | idle => exact absurd hp hne
  | write op i src todo =>
    rw [hp] at hw
    obtain ⟨c, hc⟩ := List.exists_mem_of_ne_nil todo hw
    refine hcell (c := c) ?_
    rw [hp, cellStep, if_pos hc]
    rfl
  | copy i e todo acc =>
    rw [hp] at hw
    obtain ⟨c, hc⟩ := List.exists_mem_of_ne_nil todo hw
    refine hcell (c := c) ?_
    rw [hp, cellStep, if_pos hc]
    rfl
  | lock op =>
    rw [hp] at hspin
    have h0 : s.lock = 0 := by simpa [Pc.spins] using hspin
    refine hrun ?_
    rw [hp, runStep, if_pos h0]
    rfl
  | active op i | listing i acc =>
    refine hrun ?_
    rw [hp, runStep]
    split <;> rfl
  | compare op i k =>
    refine hrun ?_
    rw [hp, runStep]
    split
    · rfl
    · split <;> rfl
  | free name msgType sensorId pid i =>
    refine hrun ?_
    rw [hp, runStep]
    split
    · split <;> rfl
    · rfl
  | beat | unlock | done | listed =>
    refine hrun ?_
    rw [hp]
    rfl

omit [DecidableEq τ] in
theorem not_spins_of_holds (h : pc.holds = true) : pc.spins l = false := by
  cases pc with
  | lock => cases h
  | _ => rfl

omit [DecidableEq τ] in
theorem exists_lock_of_spins (h : pc.spins l = true) : ∃ op, pc = .lock op := by
  cases pc with
  | lock op => exact ⟨op, rfl⟩
  | _ => cases h

omit [DecidableEq τ] in
theorem ne_idle_of_holds (h : pc.holds = true) : pc ≠ .idle := by
  rintro rfl
  cases h

theorem canRun_or_owner (h : machine.Runs Machine.free tr s) (hne : s.pc t ≠ .idle) :
    CanRun s t ∨ (∃ op, op.locks = true ∧ s.pc t = .lock op) ∧ ∃ t', (s.pc t').holds = true ∧ CanRun s t' := by
  have hw := within_of_runs h
  cases hspin : (s.pc t).spins s.lock with
  | false => exact .inl (canRun_of_within (hw t) hne hspin)
  | true =>
    obtain ⟨op, hp⟩ := exists_lock_of_spins hspin
    have hl : (Pc.lock op).Within := hp ▸ hw t
    rw [hp] at hspin
    have hlock : s.lock ≠ 0 := by simpa [Pc.spins] using hspin
    obtain ⟨-, t', hh⟩ := (owned_of_runs h).resolve_left hlock
    exact .inr ⟨⟨op, hl, hp⟩, t', hh, canRun_of_within (hw t') (ne_idle_of_holds hh) (not_spins_of_holds hh)⟩

omit [DecidableEq τ] in
/-- A thread gets to the guard by its call. -/
theorem Goes.to_lock {b : Access} {op : Op} (h : Goes l pc b l' pc') (hp : pc' = .lock op) :
    b = .call op ∨ pc = .lock op := by
  cases h with
  | call op' =>
    split at hp
    · exact .inl (congrArg Access.call (Pc.lock.inj hp))
    · cases hp
  | wait op' => exact .inr hp
  | passed op' i | differ op' i k =>
    unfold scan at hp
    split at hp
    · cases hp
    · cases op' <;> cases hp
  | hit op' i k => cases op' <;> cases hp
  | beat op' i => split at hp <;> cases hp
  | listNext i acc | loaded i e todo acc acc' =>
    unfold RegistryLock.listNext at hp
    split at hp <;> cases hp
  | _ => cases hp

omit [DecidableEq τ] in
theorem Goes.of_wait (h : Goes l pc .wait l' pc') : ∃ op, pc = .lock op := by
  cases h with
  | wait op => exact ⟨op, rfl⟩

/-- Who spins has called `register_channel` or `unregister_channel`. -/
theorem call_of_wait {H : List Access} (h : machine.Observed Machine.free (accesses t) tr H s) :
    (∀ op, s.pc t = .lock op → .call op ∈ H) ∧ (.wait ∈ H → ∃ op, op.locks = true ∧ .call op ∈ H) := by
  induction h with
  | init =>
    refine ⟨fun op hp => ?_, fun hmem => absurd hmem List.not_mem_nil⟩
    cases hp
  | @step tr H s s' a o h _ hs ih =>
    obtain ⟨hlock, hwait⟩ := ih
    by_cases ht : t = a.thread
    · subst ht
      rw [accesses, if_pos rfl]
      have hgoes := goes_of_step hs
      have hw := within_of_runs h.runs a.thread
      refine ⟨fun op hp => ?_, fun hmem => ?_⟩
      · rcases hgoes.to_lock hp with heq | hp
        · rw [heq]
          exact List.mem_append_right H (List.mem_singleton_self _)
        · exact List.mem_append_left _ (hlock op hp)
      · rcases List.mem_append.1 hmem with hmem | hmem
        · obtain ⟨op, hl, hcall⟩ := hwait hmem
          exact ⟨op, hl, List.mem_append_left _ hcall⟩
        · rw [← List.mem_singleton.1 hmem] at hgoes ⊢
          obtain ⟨op, hp⟩ := hgoes.of_wait
          rw [hp] at hw
          exact ⟨op, hw, List.mem_append_left _ (hlock op hp)⟩
    · rw [accesses, if_neg (Ne.symm ht), List.append_nil, step_pc_of_ne hs ht]
      exact ⟨hlock, hwait⟩

/-- In every run and for every thread: its steps besides failed exchanges on the lock are at most those that
its calls are allowed. The lock is free or has exactly one owner. A thread in a call can go on with it, unless
it spins in `register_channel` or `unregister_channel`; then the owner of the lock can go on. A thread that has
called neither of the two has never spun. -/
theorem registry_progress (tr : List Empty) (H : List Access) (s : State τ) (t : τ)
    (h : machine.Observed Machine.free (accesses t) tr H s) :
    H.count .run ≤ allowance H ∧
    (s.lock = 0 ∧ (∀ t', (s.pc t').holds = false) ∨ s.lock = 1 ∧ ∃! t', (s.pc t').holds = true) ∧
    (s.pc t ≠ .idle → CanRun s t ∨
      (∃ op, op.locks = true ∧ s.pc t = .lock op) ∧ ∃ t', (s.pc t').holds = true ∧ CanRun s t') ∧
    ((∀ op, .call op ∈ H → op.locks = false) → .wait ∉ H) := by
  have hcost := h.amortized (fun s => rank (s.pc t)) (fun _ H => H.count .run) (fun _ => allowance) rfl
    (fun _ _ _ _ => List.count_append) (fun _ H _ H' => by simp [allowance]) fun tr s a s' o hr _ hs => by
      by_cases ht : a.thread = t
      · subst ht
        rw [accesses, if_pos rfl]
        exact (goes_of_step hs).cost (within_of_runs hr _)
      · rw [accesses, if_neg ht, step_pc_of_ne hs (Ne.symm ht), List.count_nil, Nat.zero_add]
        exact Nat.le_add_right _ _
  have hinit : rank ((machine : Machine (State τ) _ _).init.pc t) = 0 := rfl
  rw [hinit, Nat.zero_add] at hcost
  refine ⟨(Nat.le_add_right _ _).trans hcost, lock_owner h.runs, canRun_or_owner h.runs, fun hno hmem => ?_⟩
  obtain ⟨op, hl, hcall⟩ := (call_of_wait h).2 hmem
  rw [hno op hcall] at hl
  cases hl

/-- Thread 1 finds the lock taken twice and has it then. -/
theorem registry_progress_contended : ∃ (H : List Access) (s : State Nat),
    H = [.call (.unregister lidar), .wait, .wait, .run, .run] ∧ H.count .run ≤ allowance H ∧
      ∃! t, (s.pc t).holds = true := by
  let M : Machine (State Nat) (Act Nat) Empty := machine
  let acts : List (Act Nat) :=
    [.call 0 (.unregister lidar), .run 0 0, .call 1 (.unregister lidar), .run 1 0] ++
      List.replicate 65 (.run 0 0) ++ [.spurious 1, .run 1 0, .run 1 0]
  have hexec : (M.watch (accesses 1) M.init acts).map (fun r => (r.2.1, r.2.2.lock)) =
      some ([.call (.unregister lidar), .wait, .wait, .run, .run], 1) := by
    decide +kernel
  obtain ⟨tr, H, s, hrun, hend⟩ := Machine.exists_of_watch hexec
  obtain ⟨hH, hlock⟩ := Prod.mk.inj hend
  obtain ⟨hle, howner, -, -⟩ := registry_progress tr H s 1 hrun
  refine ⟨H, s, hH, hle, (howner.resolve_left fun h0 => ?_).2⟩
  rw [h0.1] at hlock
  cases hlock

/-! ### The owner stops -/

/-- Only the owner of the lock changes more than heartbeats. -/
theorem still_step (hs : step s a = some (s', o)) (hh : (s.pc a.thread).holds = false) :
    still s'.table = still s.table := by
  cases a with
  | call t op | list t | spurious t =>
    simp only [step] at hs
    split at hs <;> cases hs
    rfl
  | run t now =>
    simp only [step, Option.map_eq_some_iff, Prod.mk.injEq] at hs
    obtain ⟨s₁, hs, rfl, -⟩ := hs
    cases hp : s.pc t with
    | beat op i =>
      rw [hp] at hs
      cases hs
      exact funext (still_beat s.table i now)
    | idle | write | copy =>
      rw [hp] at hs
      cases hs
    | lock op | active op i | listing i acc =>
      rw [hp, runStep] at hs
      split at hs <;> cases hs <;> rfl
    | compare op i k =>
      rw [hp, runStep] at hs
      split_ifs at hs <;> cases hs <;> rfl
    | free name msgType sensorId pid i =>
      rw [hp, runStep] at hs
      split at hs
      · split at hs <;> cases hs <;> rfl
      · cases hs
        rfl
    | unlock | done | listed =>
      rw [hp] at hs
      cases hs
      rfl
  | cell t c =>
    simp only [step, Option.map_eq_some_iff, Prod.mk.injEq] at hs
    obtain ⟨s₁, hs, rfl, -⟩ := hs
    cases hp : s.pc t with
    | write =>
      rw [Act.thread, hp] at hh
      cases hh
    | copy i e todo acc =>
      rw [hp, cellStep] at hs
      split at hs <;> cases hs
      rfl
    | _ =>
      rw [hp] at hs
      cases hs

omit [DecidableEq τ] in
theorem Goes.of_lock {b : Access} {op : Op} (h : Goes l (.lock op) b l' pc') (hl : l ≠ 0) : pc' = .lock op := by
  cases h with
  | wait => rfl
  | lock _ h0 => exact absurd h0 hl

omit [DecidableEq τ] in
/-- Who returns is at its return. -/
theorem done_of_ret {u : τ} {r : Res} (h : .ret u r ∈ history s a s') : ∃ op, s.pc u = .done op r := by
  cases a with
  | run t now =>
    simp only [history] at h
    split at h
    · rename_i op r' hp
      split at h
      · cases List.mem_singleton.1 h
        exact ⟨op, hp⟩
      · cases h
    · cases h
  | call t op =>
    simp only [history] at h
    split at h
    · cases List.mem_singleton.1 h
    · cases h
  | list | cell | spurious => cases h

omit [DecidableEq τ] in
theorem history_eq (s : State τ) (a : Act τ) (s' : State τ) :
    history s a s' = [] ∨ ∃ e, history s a s' = [e] := by
  cases a with
  | run t now =>
    simp only [history]
    split
    · split
      · exact .inr ⟨_, rfl⟩
      · exact .inl rfl
    · exact .inl rfl
  | call t op =>
    simp only [history]
    split
    · exact .inr ⟨_, rfl⟩
    · exact .inl rfl
  | list | cell | spurious => exact .inl rfl

/-- Who is at the guard while the lock is taken stays there. -/
theorem stuck_step {u : τ} {op : Op} (hs : step s a = some (s', o)) (hlock : s.lock = 1) (hp : s.pc u = .lock op) :
    s'.pc u = .lock op ∧ ∀ r, .ret u r ∉ history s a s' := by
  refine ⟨?_, fun r hmem => ?_⟩
  · by_cases hu : u = a.thread
    · subst hu
      have hgoes := goes_of_step hs
      rw [hp] at hgoes
      exact hgoes.of_lock (by rw [hlock]; exact Nat.one_ne_zero)
    · rw [step_pc_of_ne hs hu, hp]
  · obtain ⟨op', hp'⟩ := done_of_ret hmem
    rw [hp] at hp'
    cases hp'

/-- A call of `register_channel` or `unregister_channel` gets as far as the guard. -/
theorem lock_of_call {u : τ} {op : Op} (hs : step s a = some (s', o)) (hmem : .call u op ∈ history s a s') :
    s'.pc u = .lock op := by
  cases a with
  | call t op' =>
    simp only [history] at hmem
    split at hmem
    · rename_i hl
      cases List.mem_singleton.1 hmem
      simp only [step] at hs
      split at hs <;> cases hs
      rw [State.setPc_pc_self, if_pos hl]
    · cases hmem
  | run t now =>
    simp only [history] at hmem
    split at hmem
    · split at hmem
      · cases List.mem_singleton.1 hmem
      · cases hmem
    · cases hmem
  | list | cell | spurious => cases hmem

/-- What holds after a while in which the owner `t` of the lock has done nothing. -/
structure Stopped (s : State τ) (t : τ) (H : List (Hist τ Op Res)) (s' : State τ) : Prop where
  stands : Stands s'
  owner : s'.pc t = s.pc t
  lock : s'.lock = 1
  table : still s'.table = still s.table
  waiting : ∀ u op, s.pc u = .lock op → s'.pc u = .lock op ∧ ∀ r, .ret u r ∉ H
  called : ∀ H₁ H₂ u op, H = H₁ ++ .call u op :: H₂ → s'.pc u = .lock op ∧ ∀ r, .ret u r ∉ H₂

theorem Stopped.step {s₀ : State τ} {H : List (Hist τ Op Res)} (h : Stopped s₀ t H s)
    (hh : (s₀.pc t).holds = true) (ht : a.thread ≠ t) (hs : step s a = some (s', o)) :
    Stopped s₀ t (H ++ history s a s') s' := by
  have hown : s'.pc t = s₀.pc t := (step_pc_of_ne hs (Ne.symm ht)).trans h.owner
  have hstands := h.stands.step hs
  have hfree : (s.pc a.thread).holds = false := by
    obtain ⟨_, x, -, hsim⟩ := h.stands
    exact hsim.others (h.owner ▸ hh) a.thread ht
  refine ⟨hstands, hown, ?_, (still_step hs hfree).trans h.table, fun u op hp => ?_, fun H₁ H₂ u op heq => ?_⟩
  · obtain ⟨_, x, -, hsim⟩ := hstands
    exact hsim.locked t (hown ▸ hh)
  · obtain ⟨hp', hno⟩ := h.waiting u op hp
    obtain ⟨hp'', hno'⟩ := stuck_step hs h.lock hp'
    refine ⟨hp'', fun r hmem => ?_⟩
    rcases List.mem_append.1 hmem with hmem | hmem
    · exact hno r hmem
    · exact hno' r hmem
  · rcases history_eq s a s' with hnil | ⟨e, he⟩
    · rw [hnil, List.append_nil] at heq
      obtain ⟨hp, hno⟩ := h.called H₁ H₂ u op heq
      exact ⟨(stuck_step hs h.lock hp).1, hno⟩
    · -- the call is this step, or it was made before and waits
      rw [he] at heq
      rcases append_singleton_eq_append_cons heq with ⟨rfl, rfl⟩ | ⟨H₃, rfl⟩
      · obtain rfl : H₂ = [] := by simpa using heq
        exact ⟨lock_of_call hs (he ▸ List.mem_singleton_self _), fun r => List.not_mem_nil⟩
      · obtain rfl : H₂ = H₃ ++ [e] := by simpa using heq.symm
        obtain ⟨hp, hno⟩ := h.called H₁ H₃ u op rfl
        obtain ⟨hp', hno'⟩ := stuck_step hs h.lock hp
        refine ⟨hp', fun r hmem => ?_⟩
        rcases List.mem_append.1 hmem with hmem | hmem
        · exact hno r hmem
        · exact hno' r (he ▸ hmem)

/-- When the owner of the lock takes no further step: the lock is never given back and the table stays as it
is, with an entry half stored if the owner was at that, but for heartbeats. Whoever is at the guard, or calls
`register_channel` or `unregister_channel` from then on, does not return. Every other thread in a call can go
on, so lookups return. -/
theorem holder_stops (tr tr' : List Empty) (H : List (Hist τ Op Res)) (s s' : State τ) (t : τ)
    (h : machine.Runs Machine.free tr s) (hh : (s.pc t).holds = true)
    (h' : (machine.startAt s).Observed (fun _ _ a => a.thread ≠ t) history tr' H s') :
    s'.lock = 1 ∧ s'.pc t = s.pc t ∧ still s'.table = still s.table ∧
    (∀ u op r, s.pc u = .lock op → .ret u r ∉ H) ∧
    (∀ H₁ H₂ u op r, H = H₁ ++ .call u op :: H₂ → .ret u r ∉ H₂) ∧
    ∀ u, s'.pc u ≠ .idle → (∀ op, s'.pc u ≠ .lock op) → CanRun s' u := by
  have hstop : Stopped s t H s' ∧ ∀ u, (s'.pc u).Within := by
    induction h' with
    | init =>
      have hstands := stands_of_runs h
      obtain ⟨_, x, -, hsim⟩ := id hstands
      refine ⟨⟨hstands, rfl, hsim.locked t hh, rfl, fun u op hp => ⟨hp, fun r => List.not_mem_nil⟩, ?_⟩,
        within_of_runs h⟩
      intro H₁ H₂ u op heq
      simp at heq
    | step _ ht hs ih => exact ⟨ih.1.step hh ht hs, within_step ih.2 hs⟩
  obtain ⟨hstop, hw⟩ := hstop
  refine ⟨hstop.lock, hstop.owner, hstop.table, fun u op r hp => (hstop.waiting u op hp).2 r,
    fun H₁ H₂ u op r heq => (hstop.called H₁ H₂ u op heq).2 r, fun u hne hno => ?_⟩
  refine canRun_of_within (hw u) hne (Bool.eq_false_iff.2 fun hspin => ?_)
  obtain ⟨op, hp⟩ := exists_lock_of_spins hspin
  exact hno op hp

/-- A process dies when it has stored two bytes of a name: a removal spins, and a lookup of the name returns
without having found it. -/
theorem holder_stops_storing : ∃ (H : List (Hist Nat Op Res)) (s s' : State Nat),
    (s.table first).name.take 3 = [0x2f, 0x6c, 0] ∧ H = [.call 1 (.unregister lidar)] ∧
      s'.pc 2 = .done (.contains lidar) (.found false) ∧ s'.lock = 1 ∧ still s'.table = still s.table := by
  let M : Machine (State Nat) (Act Nat) Empty := machine
  let acts : List (Act Nat) := .call 0 (.register lidar 2 1 7) :: List.replicate 66 (.run 0 5) ++
    [.cell 0 (.name 0), .cell 0 (.name 1)]
  let acts' : List (Act Nat) := [.call 1 (.unregister lidar), .run 1 0, .call 2 (.contains lidar)] ++
    List.replicate 67 (.run 2 0)
  have hexec : ((M.exec M.init acts).bind fun (s, _) =>
      (((M.startAt s).restrict fun _ a => a.thread ≠ 0).watch history s acts').map fun r =>
        ((((s.pc 0).holds, (s.table first).name.take 3), r.2.1), r.2.2.pc 2)) =
      some (((true, [0x2f, 0x6c, 0]), [.call 1 (.unregister lidar)]), .done (.contains lidar) (.found false)) := by
    decide +kernel
  obtain ⟨⟨s, tr⟩, h, hexec⟩ := Option.bind_eq_some_iff.1 hexec
  obtain ⟨tr', H, s', hrun, hend⟩ := Machine.exists_of_watch_restrict (M := M.startAt s)
    (fun _ _ a => a.thread ≠ 0) (fun _ _ _ ha => by simpa using ha) hexec
  simp only [Prod.mk.injEq] at hend
  obtain ⟨⟨⟨hh, hname⟩, hH⟩, hfound⟩ := hend
  obtain ⟨hlock, -, htable, -⟩ := holder_stops tr tr' H s s' 0 (Machine.Runs.init.exec h) hh hrun
  exact ⟨H, s, s', hname, hH, hfound, hlock, htable⟩

end Lwipc.RegistryLock
