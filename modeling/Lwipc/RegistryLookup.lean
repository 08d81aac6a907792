import Lwipc.RegistryAtomic

/-!
# Looking into the registry without the lock

`contains` and `list` read the table byte by byte while others write it. They may see half of a name; but a
channel that is there when they start and that nobody removes before they return is not missed, because its
entry is not written meanwhile: a registration stores only to entries that are free, a removal only to the
entry of its own channel, and a heartbeat is no part of what is looked at.
-/

namespace Lwipc.RegistryLock

open CString ChannelRegistry

variable {τ : Type}

/-- The operation that the thread is at. -/
def Pc.op : Pc → Option Op
  | .lock op | .active op _ | .compare op _ _ | .write op _ _ _ | .beat op _ | .unlock op _ | .done op _ => some op
  | .free name msgType sensorId pid _ => some (.register name msgType sensorId pid)
  | .idle | .listing _ _ | .copy _ _ _ _ | .listed _ => none

/-- Entry `i` is complete and has the name. -/
def Registered (s : State τ) (i : Fin kMaxChannels) (name : List Byte) : Prop :=
  (s.table i).named name = true ∧ ∀ t, ¬ (s.pc t).Writes i

/-- Nobody is at removing the channel, and the step is not the return of `t`. -/
def Calm (t : τ) (name : List Byte) (_ : List Empty) (s : State τ) (a : Act τ) : Prop :=
  (∀ t' name', (s.pc t').op = some (.unregister name') → strncmp name' name 63 ≠ 0) ∧
    ∀ now, a = .run t now → (∀ op r, s.pc t ≠ .done op r) ∧ ∀ l, s.pc t ≠ .listed l

variable [DecidableEq τ] {s s' s₀ : State τ} {x : Object.State τ Table Op Res} {t : τ} {a : Act τ}
  {o tr : List Empty} {i : Fin kMaxChannels} {name : List Byte} {E : ChannelEntry}

/-- The segment stands for a registry that its history leads to. -/
def Stands (s : State τ) : Prop := ∃ H x, registry.Runs H x ∧ Sim s x

theorem Stands.step (h : Stands s) (hs : step s a = some (s', o)) : Stands s' := by
  obtain ⟨H, x, hx, hsim⟩ := h
  obtain ⟨x', hx', hsim'⟩ := hsim.step hx hs
  exact ⟨_, x', hx', hsim'⟩

theorem stands_of_runs (h : machine.Runs Machine.free tr s) : Stands s :=
  h.invariant (I := fun _ s => Stands s) ⟨[], _, .init, .init⟩ fun _ _ _ _ _ hi _ hs => hi.step hs

/-! ### The entry stays -/

omit [DecidableEq τ] in
/-- A removal that is about to clear entry `i` is one of the channel in it. -/
theorem Sim.clears {name' : List Byte} {k : Nat} (h : Sim s x) (hp : s.pc t = .compare (.unregister name') i k)
    (heq : (s.table i).name.getD k 0 = name'.getD k 0) (hend : (s.table i).name.getD k 0 = 0 ∨ k + 1 = 63) :
    (s.table i).named name' = true := by
  have hh : (s.pc t).holds = true := by rw [hp]; rfl
  obtain ⟨-, ha, hk, hmatch⟩ : Knows x.now s (.compare (.unregister name') i k) := hp ▸ h.knows t hh
  have hnow : x.now i = (s.table i).beat 0 := h.now_eq hh (by rw [hp]; exact fun _ => id) i
  rw [hnow] at ha hmatch
  exact named_of_compare ha hmatch hk heq hend

theorem strncmp_of_named {e : ChannelEntry} {name' : List Byte} (h : e.named name = true)
    (h' : e.named name' = true) : strncmp name' name 63 = 0 := by
  simp only [ChannelEntry.named, Bool.and_eq_true, beq_iff_eq] at h h'
  rw [strncmp_eq_zero_iff] at h h' ⊢
  exact h'.2.symm.trans h.2

/-- A step that neither stores to entry `i` nor begins to. -/
theorem Registered.step (h : Registered s i name) (hst : Stands s)
    (hcalm : ∀ t' name', (s.pc t').op = some (.unregister name') → strncmp name' name 63 ≠ 0)
    (hs : step s a = some (s', o)) :
    (s'.table i).beat 0 = (s.table i).beat 0 ∧ ∀ t, ¬ (s'.pc t).Writes i := by
  obtain ⟨hname, hfree⟩ := h
  obtain ⟨-, x, -, hsim⟩ := hst
  have hact : (s.table i).active = true := by
    simp only [ChannelEntry.named, Bool.and_eq_true] at hname
    exact hname.1
  -- the other threads stand where they stood
  have hpc {t : τ} {pc : Pc} (hpc : ¬ pc.Writes i) (t' : τ) : ¬ (Function.update s.pc t pc t').Writes i := by
    by_cases ht : t' = t
    · subst ht
      rwa [Function.update_self]
    · rw [Function.update_of_ne ht]
      exact hfree t'
  have hscan (op : Op) (j : Fin kMaxChannels) : ¬ (scan op j).Writes i := by
    unfold scan
    split
    · exact id
    · cases op <;> exact id
  have hlist (j : Fin kMaxChannels) (acc : List ChannelEntry) : ¬ (listNext j acc).Writes i := by
    unfold listNext
    split <;> exact id
  cases a with
  | call t op =>
    simp only [RegistryLock.step] at hs
    split at hs <;> cases hs
    refine ⟨rfl, hpc ?_⟩
    split <;> exact id
  | list t =>
    simp only [RegistryLock.step] at hs
    split at hs <;> cases hs
    exact ⟨rfl, hpc id⟩
  | spurious t =>
    simp only [RegistryLock.step] at hs
    split at hs <;> cases hs
    exact ⟨rfl, hfree⟩
  | cell t c =>
    simp only [RegistryLock.step, Option.map_eq_some_iff, Prod.mk.injEq] at hs
    obtain ⟨s₁, hs, rfl, -⟩ := hs
    cases hp : s.pc t <;> rw [hp] at hs <;> simp only [cellStep, reduceCtorEq] at hs
    case write op j src todo =>
      have hj : j ≠ i := by
        have := hfree t
        rw [hp] at this
        exact this
      split at hs <;> cases hs
      refine ⟨?_, hpc ?_⟩
      · show (Function.update s.table j _ i).beat 0 = _
        rw [Function.update_of_ne hj.symm]
      · split
        · exact id
        · exact hj
    case copy j e todo acc =>
      split at hs <;> cases hs
      refine ⟨rfl, hpc ?_⟩
      split
      · exact hlist _ _
      · exact id
  | run t now =>
    simp only [RegistryLock.step, Option.map_eq_some_iff, Prod.mk.injEq] at hs
    obtain ⟨s₁, hs, rfl, -⟩ := hs
    cases hp : s.pc t <;> rw [hp] at hs <;> simp only [runStep, reduceCtorEq] at hs
    case lock op =>
      split at hs <;> cases hs
      · exact ⟨rfl, hpc id⟩
      · exact ⟨rfl, hfree⟩
    case active op j =>
      split at hs <;> cases hs
      · exact ⟨rfl, hpc id⟩
      · exact ⟨rfl, hpc (hscan op j)⟩
    case compare op j k =>
      split_ifs at hs with hne hend <;> cases hs
      · exact ⟨rfl, hpc (hscan op j)⟩
      · refine ⟨rfl, hpc fun hw => ?_⟩
        cases op with
        | unregister name' =>
          obtain rfl : j = i := hw
          have hmine := hsim.clears hp (not_not.1 hne) hend
          exact hcalm t name' (by rw [hp]; rfl) (strncmp_of_named hname hmine)
        | register | touch | contains => exact hw
      · exact ⟨rfl, hpc id⟩
    case free name' msgType sensorId pid j =>
      split_ifs at hs with ha
      · split at hs <;> cases hs <;> exact ⟨rfl, hpc id⟩
      · cases hs
        refine ⟨rfl, hpc fun hw => ?_⟩
        obtain rfl : j = i := hw
        exact ha hact
    case beat op j =>
      cases hs
      refine ⟨still_beat s.table j now i, hpc ?_⟩
      split <;> exact id
    case listing j acc =>
      split at hs <;> cases hs
      · exact ⟨rfl, hpc id⟩
      · exact ⟨rfl, hpc (hlist j acc)⟩
    case unlock | done | listed =>
      cases hs
      exact ⟨rfl, hpc id⟩

/-! ### The readers -/

theorem State.setPc_pc_self (s : State τ) (t : τ) (pc : Pc) : (s.setPc t pc).pc t = pc := by
  simp [State.setPc]

/-- A copy of the entry `E`, but for its heartbeat. -/
def Has (E : ChannelEntry) (l : List ChannelEntry) : Prop := ∃ e ∈ l, e.beat 0 = E.beat 0

/-- Where a reader can be that does not miss entry `i`, which holds `E`. -/
def Finds (E : ChannelEntry) (i : Fin kMaxChannels) (name : List Byte) : Pc → Prop
  | .active op j => op = .contains name ∧ j ≤ i
  | .compare op j k => op = .contains name ∧ (j < i ∨ j = i ∧ k < 63 ∧ Matches E name k)
  | .done op r => op = .contains name ∧ r = .found true
  | .listing j acc => j ≤ i ∨ Has E acc
  | .copy j e todo acc => j < i ∨ (j = i ∧ ∀ c, c ∉ todo → Agree e E c) ∨ Has E acc
  | .listed l => Has E l
  | _ => False

theorem finds_scan {j : Fin kMaxChannels} (h : j < i) : Finds E i name (scan (.contains name) j) := by
  unfold scan
  split
  · rename_i j' hj'
    exact ⟨rfl, not_lt.1 fun hlt => absurd ((next_some hj' i).1 hlt) (not_le.2 h)⟩
  · rename_i hlast
    exact absurd (next_none hlast i) (not_le.2 h)

theorem finds_listNext {j : Fin kMaxChannels} {acc : List ChannelEntry} (h : j < i ∨ Has E acc) :
    Finds E i name (listNext j acc) := by
  unfold listNext
  split
  · rename_i j' hj'
    exact h.imp_left fun hlt => not_lt.1 fun hlt' => absurd ((next_some hj' i).1 hlt') (not_le.2 hlt)
  · rename_i hlast
    exact h.resolve_left fun hlt => absurd (next_none hlast i) (not_le.2 hlt)

/-- The next access of the reader, at entry `i` a load of what `E` has there. -/
theorem Finds.run {now : BitVec 64} (h : Finds E i name (s.pc t)) (hE : (s.table i).beat 0 = E.beat 0)
    (hname : E.named name = true) (hgo : (∀ op r, s.pc t ≠ .done op r) ∧ ∀ l, s.pc t ≠ .listed l)
    (hs : runStep s t now (s.pc t) = some s') : Finds E i name (s'.pc t) := by
  have hset (pc : Pc) (hpc : Finds E i name pc) : Finds E i name ((s.setPc t pc).pc t) := by
    rwa [State.setPc_pc_self]
  have hbytes : (s.table i).name = E.name := by
    show ((s.table i).beat 0).name = (E.beat 0).name
    rw [hE]
  have hact : (s.table i).active = true := by
    rw [ChannelEntry.active, hbytes]
    simp only [ChannelEntry.named, Bool.and_eq_true] at hname
    exact hname.1
  cases hp : s.pc t <;> rw [hp] at hs h <;> simp only [runStep, reduceCtorEq] at hs <;>
    first | exact h.elim | skip
  case active op j =>
    obtain ⟨rfl, hle⟩ := h
    rcases lt_or_eq_of_le hle with hlt | rfl
    · split at hs <;> cases hs
      · exact hset _ ⟨rfl, .inl hlt⟩
      · exact hset _ (finds_scan hlt)
    · rw [if_pos hact] at hs
      cases hs
      exact hset _ ⟨rfl, .inr ⟨rfl, by decide, fun k hk => absurd hk (Nat.not_lt_zero k)⟩⟩
  case compare op j k =>
    obtain ⟨rfl, hlt | ⟨rfl, hk, hmatch⟩⟩ := h
    · split_ifs at hs <;> cases hs
      · exact hset _ (finds_scan hlt)
      · exact hset _ ⟨rfl, rfl⟩
      · exact hset _ ⟨rfl, .inl hlt⟩
    · have hcmp : strncmp E.name name 63 = 0 := by
        simp only [ChannelEntry.named, Bool.and_eq_true, beq_iff_eq] at hname
        exact hname.2
      obtain ⟨heq, -⟩ := (strncmp_of_matches hmatch hk).1 hcmp
      rw [hbytes] at hs
      split_ifs at hs with hne hend
      · exact absurd heq hne
      · cases hs
        exact hset _ ⟨rfl, rfl⟩
      · cases hs
        rw [not_or] at hend
        refine hset _ ⟨rfl, .inr ⟨rfl, by omega, fun m hm => ?_⟩⟩
        rcases Nat.lt_or_eq_of_le (Nat.le_of_lt_succ hm) with hm | rfl
        · exact hmatch m hm
        · exact ⟨heq, hend.1⟩
  case listing j acc =>
    split at hs <;> cases hs
    · refine hset _ ?_
      rcases h with hle | hhas
      · rcases lt_or_eq_of_le hle with hlt | heq
        · exact .inl hlt
        · exact .inr (.inl ⟨heq, fun c hc => absurd (mem_cells c) hc⟩)
      · exact .inr (.inr hhas)
    · rename_i ha
      refine hset _ (finds_listNext (h.imp_left fun hle => lt_of_le_of_ne hle ?_))
      rintro rfl
      exact ha hact
  case done op r => exact absurd hp (hgo.1 op r)
  case listed l => exact absurd hp (hgo.2 l)

theorem Finds.cell {c : Cell} (h : Finds E i name (s.pc t)) (hE : (s.table i).beat 0 = E.beat 0)
    (hs : cellStep s t c (s.pc t) = some s') : Finds E i name (s'.pc t) := by
  have hset (pc : Pc) (hpc : Finds E i name pc) : Finds E i name ((s.setPc t pc).pc t) := by
    rwa [State.setPc_pc_self]
  cases hp : s.pc t <;> rw [hp] at hs h <;> simp only [cellStep, reduceCtorEq] at hs
  case write => exact h.elim
  case copy j e todo acc =>
    have hcell (hj : j = i) (hagree : ∀ c', c' ∉ todo → Agree e E c') (c' : Cell)
        (hc' : c' ∉ todo.filter (· ≠ c)) : Agree (setCell e (s.table j) c) E c' := by
      subst hj
      by_cases hcc : c' = c
      · subst hcc
        exact agree_setCell.trans (agree_of_beat hE)
      · exact agree_setCell_of_ne hcc (hagree c' fun hmem => hc' (by simpa [hcc] using hmem))
    split_ifs at hs with hc hrest <;> cases hs
    · refine hset _ (finds_listNext ?_)
      rcases h with hlt | ⟨hj, hagree⟩ | ⟨e', he', heq⟩
      · exact .inl hlt
      · refine .inr ⟨_, List.mem_append_right acc (List.mem_singleton_self _), beat_eq_of_agree fun c' => ?_⟩
        exact hcell hj hagree c' (by rw [hrest]; exact List.not_mem_nil)
      · exact .inr ⟨e', List.mem_append_left _ he', heq⟩
    · refine hset _ ?_
      rcases h with hlt | ⟨hj, hagree⟩ | hhas
      · exact .inl hlt
      · exact .inr (.inl ⟨hj, hcell hj hagree⟩)
      · exact .inr (.inr hhas)

def Act.thread : Act τ → τ
  | .call t _ | .list t | .run t _ | .cell t _ | .spurious t => t

theorem step_pc_of_ne (hs : step s a = some (s', o)) (ht : t ≠ a.thread) : s'.pc t = s.pc t := by
  have hset (s₁ : State τ) (pc : Pc) (h₁ : s₁.pc = s.pc) : (s₁.setPc a.thread pc).pc t = s.pc t := by
    rw [State.setPc, ← h₁]
    exact Function.update_of_ne ht _ _
  cases a with
  | call t' op | list t' | spurious t' =>
    simp only [step] at hs
    split at hs
    · cases hs
      first | exact hset _ _ rfl | rfl
    · cases hs
  | run t' now =>
    simp only [step, Option.map_eq_some_iff, Prod.mk.injEq] at hs
    obtain ⟨s₁, hs, rfl, -⟩ := hs
    cases hp : s.pc t' <;> rw [hp] at hs <;> simp only [runStep, reduceCtorEq] at hs
    case lock =>
      split at hs <;> cases hs
      · exact hset _ _ rfl
      · rfl
    case active | listing => split at hs <;> cases hs <;> exact hset _ _ rfl
    case compare => split_ifs at hs <;> cases hs <;> exact hset _ _ rfl
    case free =>
      split at hs
      · split at hs <;> cases hs <;> exact hset _ _ rfl
      · cases hs
        exact hset _ _ rfl
    all_goals
      cases hs
      exact hset _ _ rfl
  | cell t' c =>
    simp only [step, Option.map_eq_some_iff, Prod.mk.injEq] at hs
    obtain ⟨s₁, hs, rfl, -⟩ := hs
    cases hp : s.pc t' <;> rw [hp] at hs <;> simp only [cellStep, reduceCtorEq] at hs
    case write | copy =>
      split at hs
      · cases hs
        exact hset _ _ rfl
      · cases hs

theorem Finds.step (h : Finds E i name (s.pc t)) (hE : (s.table i).beat 0 = E.beat 0)
    (hname : E.named name = true) (hcalm : Calm t name tr s a) (hs : step s a = some (s', o)) :
    Finds E i name (s'.pc t) := by
  by_cases ht : t = a.thread
  · subst ht
    cases a with
    | call t' op | list t' | spurious t' =>
      simp only [RegistryLock.step] at hs
      split at hs
      case h_2 => cases hs
      rename_i hp
      rw [show (Act.thread _) = t' from rfl, hp] at h
      exact h.elim
    | run t' now =>
      simp only [RegistryLock.step, Option.map_eq_some_iff, Prod.mk.injEq] at hs
      obtain ⟨s₁, hs, rfl, -⟩ := hs
      exact h.run hE hname (hcalm.2 now rfl) hs
    | cell t' c =>
      simp only [RegistryLock.step, Option.map_eq_some_iff, Prod.mk.injEq] at hs
      obtain ⟨s₁, hs, rfl, -⟩ := hs
      exact h.cell hE hs
  · rw [step_pc_of_ne hs ht]
    exact h

theorem Finds.not_writes {pc : Pc} (h : Finds E i name pc) : ¬ pc.Writes i := by
  cases pc with
  | write => exact h.elim
  | _ => exact id

theorem lookup_starts (i : Fin kMaxChannels) (ha : a = .call t (.contains name) ∨ a = .list t)
    (hs : step s a = some (s', o)) : a.thread = t ∧ s'.table = s.table ∧ Finds E i name (s'.pc t) := by
  have hfirst : first ≤ i := not_lt.1 (not_lt_first i)
  rcases ha with rfl | rfl <;> simp only [RegistryLock.step] at hs <;> split at hs <;> cases hs
  · refine ⟨rfl, rfl, ?_⟩
    rw [State.setPc_pc_self]
    exact ⟨rfl, hfirst⟩
  · refine ⟨rfl, rfl, ?_⟩
    rw [State.setPc_pc_self]
    exact .inl hfirst

/-- Every run, from the start of a `contains` or `list` of thread `t` to before its return, during which nobody is at
removing the channel that entry `i` held at the start: `contains` finds the channel, and `list` has a copy of its
entry, as it was but for the heartbeat. -/
theorem lookups_find_registered (tr tr' : List Empty) (s₀ s₁ s : State τ) (t : τ) (i : Fin kMaxChannels)
    (name : List Byte) (a : Act τ) (h : machine.Runs Machine.free tr s₀) (hreg : Registered s₀ i name)
    (ha : a = .call t (.contains name) ∨ a = .list t) (hs : machine.step s₀ a = some (s₁, []))
    (hrun : (machine.startAt s₁).Runs (Calm t name) tr' s) :
    (∀ op b, s.pc t = .done op (.found b) → b = true) ∧
      ∀ l, s.pc t = .listed l → ∃ e ∈ l, e.beat 0 = (s₀.table i).beat 0 := by
  obtain ⟨hthread, htable, hfinds⟩ := lookup_starts (E := s₀.table i) i ha hs
  have hwrites (t' : τ) : ¬ (s₁.pc t').Writes i := by
    by_cases ht : t' = t
    · subst ht
      exact hfinds.not_writes
    · rw [step_pc_of_ne hs (by rwa [hthread])]
      exact hreg.2 t'
  have hst₁ : Stands s₁ := (stands_of_runs h).step hs
  have hE₁ : (s₁.table i).beat 0 = (s₀.table i).beat 0 := by rw [htable]
  have hend : Stands s ∧ ((s.table i).beat 0 = (s₀.table i).beat 0 ∧ ∀ t, ¬ (s.pc t).Writes i) ∧
      Finds (s₀.table i) i name (s.pc t) := by
    refine hrun.invariant (I := fun _ s => Stands s ∧
      ((s.table i).beat 0 = (s₀.table i).beat 0 ∧ ∀ t, ¬ (s.pc t).Writes i) ∧
        Finds (s₀.table i) i name (s.pc t)) ⟨hst₁, ⟨hE₁, hwrites⟩, hfinds⟩ ?_
    rintro tr s a s' o ⟨hst, ⟨hE, hw⟩, hf⟩ hcalm hs
    have hnamed : (s.table i).named name = true := by
      have hname : ((s.table i).beat 0).named name = true := by
        rw [hE]
        exact hreg.1
      exact hname
    obtain ⟨hE', hw'⟩ := Registered.step ⟨hnamed, hw⟩ hst hcalm.1 hs
    exact ⟨hst.step hs, ⟨hE'.trans hE, hw'⟩, hf.step hE hreg.1 hcalm hs⟩
  obtain ⟨-, -, hf⟩ := hend
  refine ⟨fun op b hp => ?_, fun l hp => ?_⟩
  · rw [hp] at hf
    obtain ⟨-, hr⟩ := hf
    cases hr
    rfl
  · rw [hp] at hf
    exact hf

/-- The thread is at a removal. -/
def Pc.removes (pc : Pc) : Bool :=
  match pc.op with
  | some (.unregister _) => true
  | _ => false

/-- The thread is at a return. -/
def Pc.returns : Pc → Bool
  | .done _ _ | .listed _ => true
  | _ => false

/-- A test for `Calm`, of two threads. -/
def calmTest (s : State Bool) (a : Act Bool) : Bool :=
  !(s.pc false).removes && !(s.pc true).removes && !(a.thread && (s.pc true).returns)

theorem calm_of_test {s : State Bool} {a : Act Bool} {tr : List Empty} (h : calmTest s a = true) :
    Calm true name tr s a := by
  simp only [calmTest, Bool.and_eq_true, Bool.not_eq_true', Bool.and_eq_false_iff] at h
  obtain ⟨⟨h₀, h₁⟩, hret⟩ := h
  refine ⟨fun t' name' hop => ?_, ?_⟩
  · cases t'
    · simp [Pc.removes, hop] at h₀
    · simp [Pc.removes, hop] at h₁
  · rintro now rfl
    have hno : (s.pc true).returns = false := hret.resolve_left fun hd => by cases hd
    refine ⟨fun op r hp => ?_, fun l hp => ?_⟩ <;> rw [hp] at hno <;> cases hno

/-- A channel is registered, and looked for while another one is being registered. -/
theorem lookups_find_registered_lidar : ∃ (s₀ s : State Bool) (i : Fin kMaxChannels), Registered s₀ i lidar ∧
    s.pc true = .done (.contains lidar) (.found true) ∧ s.pc false = .active (.register imu 3 0 0) first := by
  let M : Machine (State Bool) (Act Bool) Empty := machine
  let acts : List (Act Bool) := [.call false (.register lidar 2 1 7)] ++ List.replicate 66 (.run false 5) ++
    cells.map (.cell false) ++ [.run false 0, .run false 0]
  let acts' : List (Act Bool) := [.run true 0, .call false (.register imu 3 0 0), .run false 0] ++
    List.replicate 7 (.run true 0)
  have hexec : ((M.exec M.init acts).bind fun (s₀, _) => (M.step s₀ (.call true (.contains lidar))).bind
      fun (s₁, _) => (((M.startAt s₁).restrict calmTest).exec s₁ acts').map
        fun (s, _) => (((s₀.table first).named lidar, s₀.pc false, s₀.pc true), s.pc true, s.pc false)) =
      some ((true, .idle, .idle), .done (.contains lidar) (.found true), .active (.register imu 3 0 0) first) := by
    decide +kernel
  obtain ⟨⟨s₀, tr⟩, h₀, hexec⟩ := Option.bind_eq_some_iff.1 hexec
  obtain ⟨⟨s₁, o⟩, h₁, hexec⟩ := Option.bind_eq_some_iff.1 hexec
  obtain ⟨tr', s, hrun, hend⟩ := Machine.Runs.exists_of_restrict (M := M.startAt s₁) (Calm true lidar)
    (fun _ _ _ => calm_of_test) hexec
  simp only [Prod.mk.injEq] at hend
  obtain ⟨⟨hname, hf, ht⟩, hs, hs'⟩ := hend
  have hreg : Registered s₀ first lidar := by
    refine ⟨hname, fun t => ?_⟩
    cases t
    · rw [hf]; exact id
    · rw [ht]; exact id
  obtain rfl : o = [] := List.eq_nil_iff_forall_not_mem.2 fun e => e.elim
  have hfinds := (lookups_find_registered tr tr' s₀ s₁ s true first lidar _ (Machine.Runs.init.exec h₀) hreg
    (.inl rfl) h₁ hrun).1
  exact ⟨s₀, s, first, hreg, by rw [hs, hfinds _ _ hs], hs'⟩

end Lwipc.RegistryLock
