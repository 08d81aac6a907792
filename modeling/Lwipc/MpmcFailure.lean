import Lwipc.MpmcLedger

/-!
# When `push` and `pop` give up

A call gives up on the ground of a position that it read a while ago and a sequence that it reads now. A
position that has fallen behind its counter never looks like a full or an empty ring, because the
sequence of its slot is not behind it; so a call that gives up had the counter's own value in its hands,
and the ring was full or empty at that instant.

The signed difference sets the range: a push that sleeps until its slot has been released `2 ^ 63`
positions later takes it for one of a full ring (`stale_push_fails`).
-/

namespace Lwipc.MpmcRingBuffer

variable {ι α : Type} {cap : Capacity} {tr : List (Event ι α)} {s : State ι α} {i : ι}

/-- Position `p` has been published by its push. -/
def Published (tr : List (Event ι α)) (s : State ι α) (p : Nat) : Prop :=
  ∃ i item, Event.pushed i p item ∈ tr ∧ s.calls i = .push item (.done true)

/-- Position `p` has been released by its pop. -/
def Released (tr : List (Event ι α)) (s : State ι α) (p : Nat) : Prop :=
  ∃ i out, Event.popped i p ∈ tr ∧ s.calls i = .pop (.done (some out))

/-- A `push` or `pop` that has started and not returned. -/
def Call.InProgress : Call α → Prop
  | .idle | .push _ (.done _) | .pop (.done _) | .size _ => False
  | _ => True

/-! ### What the sequences say -/

section
variable {pos : Nat}

/-- A push that gives up has the counter's value, unless more positions have been claimed than the
signed difference can tell apart. -/
theorem Shared.eq_of_pushFull (h : Shared cap tr s) (hb : (pushes tr).length + cap.val ≤ 2 ^ 63)
    (hle : pos ≤ s.writePos) (hd : diff (seqAt cap s pos) pos < 0) : s.writePos = pos := by
  rcases Nat.lt_or_eq_of_le hle with hlt | rfl
  · obtain ⟨p, hpos, -, hcur, hseq, hseq'⟩ := h.seq_of_behind hlt
    have hp := hcur.1
    rw [h.write] at hp
    rw [diff, s64_sub_of_lt (by omega) (by omega)] at hd
    omega
  · rfl

theorem Shared.eq_of_popEmpty (h : Shared cap tr s) (hb : (pushes tr).length < 2 ^ 63)
    (hle : pos ≤ s.readPos) (hd : diff (seqAt cap s pos) (u64 (pos + 1)) < 0) : s.readPos = pos := by
  rcases Nat.lt_or_eq_of_le hle with hlt | rfl
  · obtain ⟨p, hpos, hsl, hp, hseq, hseq'⟩ := h.seq_of_popped hlt
    have hread := (h.lt_of_bound hb).2
    rw [h.write] at hp
    have hlap := Capacity.sub_add_le_of_slot_eq hsl hpos (by omega)
    rw [u64_of_lt (by omega), diff, s64_sub_of_lt (by omega) (by omega)] at hd
    omega
  · rfl

end

variable [DecidableEq ι] [Inhabited α]

theorem exists_pushed {p : Nat} (h : (machine cap).Runs Machine.free tr s)
    (hb : (pushes tr).length < 2 ^ 63) (hp : p < s.writePos) : ∃ j x, Event.pushed j p x ∈ tr := by
  rw [(inv_of_runs h hb).write, ← List.mem_range, ← (positions_of_runs h hb).1] at hp
  obtain ⟨e, he, hpos⟩ := List.mem_filterMap.1 hp
  cases e with
  | pushed j q x =>
    cases hpos
    exact ⟨j, x, he⟩
  | popped => cases hpos

theorem exists_popped {p : Nat} (h : (machine cap).Runs Machine.free tr s)
    (hb : (pushes tr).length < 2 ^ 63) (hp : p < s.readPos) : ∃ j, Event.popped j p ∈ tr := by
  rw [(inv_of_runs h hb).read, ← List.mem_range, ← (positions_of_runs h hb).2] at hp
  obtain ⟨e, he, hpos⟩ := List.mem_filterMap.1 hp
  cases e with
  | pushed => cases hpos
  | popped j q =>
    cases hpos
    exact ⟨j, he⟩

/-! ### When nobody else is about -/

/-- No call is between its claim and its final store. -/
def Settled (s : State ι α) : Prop := ∀ j p, ¬ (s.calls j).InFlight p

omit [DecidableEq ι] [Inhabited α] in
theorem settled_of_not_inProgress (h : ∀ j, ¬ (s.calls j).InProgress) : Settled s := by
  intro j p hf
  have hj := h j
  rcases hc : s.calls j with _ | ⟨item, _ | _ | _ | _ | pos | pos | _⟩ |
    ⟨_ | _ | _ | _ | pos | ⟨pos, out⟩ | _⟩ | _ <;> rw [hc] at hf hj
  case push.copy | push.store | pop.copy | pop.store => exact hj trivial
  all_goals exact hf

section
variable (h : (machine cap).Runs Machine.free tr s) (hb : (pushes tr).length < 2 ^ 63) (hset : Settled s)
include h hb hset

/-- In a settled ring every position that is in it has been published, and every other released. -/
theorem seqAt_of_settled {p : Nat} (hcur : cap.Current s.writePos p) :
    seqAt cap s p = if p < s.readPos then p + cap.val else p + 1 := by
  have hcap := cap.pos
  have hinv := inv_of_runs h hb
  have hl := ledger_of_runs h hb
  obtain ⟨j, x, he⟩ := exists_pushed h hb hcur.1
  have hpub : seqAt cap s p ≠ p := by
    rcases (hl.pushed j p x he).2 with hc | hc | ⟨-, hne⟩
    · exact absurd (by rw [hc]; rfl) (hset j p)
    · exact absurd (by rw [hc]; rfl) (hset j p)
    · exact hne hcur
  split
  · rename_i hlt
    obtain ⟨j, he⟩ := exists_popped h hb hlt
    rcases (hl.popped j p he).2 with hc | ⟨out, hc⟩ | ⟨-, heq⟩
    · exact absurd (by rw [hc]; rfl) (hset j p)
    · exact absurd (by rw [hc]; rfl) (hset j p)
    · exact heq hcur
  · rename_i hge
    rcases hinv.slot p hcur with ⟨h1, -⟩ | ⟨h1, -⟩ | ⟨-, h1⟩
    · exact absurd h1 hpub
    · exact h1
    · exact absurd h1 hge

theorem diff_push_of_settled : diff (seqAt cap s s.writePos) s.writePos =
    if s.writePos = s.readPos + cap.val then 1 - (cap.val : Int) else 0 := by
  have hinv := inv_of_runs h hb
  have hcap := cap.ge_two
  have hle := hinv.write_le
  rw [hinv.diff_next hb]
  rcases hinv.seq_of_next with heq | ⟨hge, hlap, -, hlt⟩
  · have := hinv.room heq
    rw [if_neg (by omega)]
    omega
  · have hseq := seqAt_of_settled h hb hset (p := s.writePos - cap.val) ⟨by omega, by omega⟩
    rw [← hlap] at hseq
    split at hseq
    · omega
    · rw [if_pos (by omega)]
      omega

theorem diff_pop_of_settled : diff (seqAt cap s s.readPos) (u64 (s.readPos + 1)) =
    if s.writePos = s.readPos then -1 else 0 := by
  have hinv := inv_of_runs h hb
  have hcap := cap.ge_two
  have hread := hinv.read_le
  have hle := hinv.write_le
  rw [hinv.diff_read hb]
  split
  · rename_i heq
    have hzero := diff_push_of_settled h hb hset
    rw [hinv.diff_next hb, if_neg (by omega), heq] at hzero
    omega
  · have hseq := seqAt_of_settled h hb hset (p := s.readPos) ⟨by omega, hle⟩
    rw [if_neg (by omega)] at hseq
    omega

end

/-- The counters and the slots. -/
def State.shared (s : State ι α) : Nat × Nat × (Nat → Slot α) := (s.writePos, s.readPos, s.slots)

/-- Where a push that runs alone from `s₀` on can stand. -/
def SoloPush (cap : Capacity) (s₀ s : State ι α) : Call α → Prop
  | .push _ .loadPos => s.shared = s₀.shared
  | .push _ (.loadSeq pos) => s.shared = s₀.shared ∧ pos = s₀.writePos
  | .push _ (.cas pos) =>
    s.shared = s₀.shared ∧ pos = s₀.writePos ∧ s₀.writePos ≠ s₀.readPos + cap.val
  | .push _ (.copy _) | .push _ (.store _) | .push _ (.done true) => s₀.writePos ≠ s₀.readPos + cap.val
  | .push _ (.done false) => s₀.writePos = s₀.readPos + cap.val
  | _ => False

/-- Where a pop that runs alone from `s₀` on can stand. -/
def SoloPop (s₀ s : State ι α) : Call α → Prop
  | .pop .loadPos => s.shared = s₀.shared
  | .pop (.loadSeq pos) => s.shared = s₀.shared ∧ pos = s₀.readPos
  | .pop (.cas pos) => s.shared = s₀.shared ∧ pos = s₀.readPos ∧ s₀.writePos ≠ s₀.readPos
  | .pop (.copy _) | .pop (.store ..) | .pop (.done (some _)) => s₀.writePos ≠ s₀.readPos
  | .pop (.done none) => s₀.writePos = s₀.readPos
  | _ => False

section
omit [Inhabited α]
variable {s₀ s' : State ι α} {o : List (Event ι α)}

omit [DecidableEq ι] in
theorem seqAt_of_shared (h : s.shared = s₀.shared) (p : Nat) : seqAt cap s p = seqAt cap s₀ p := by
  have hslots : s.slots = s₀.slots := congrArg (fun x => x.2.2) h
  rw [seqAt, seqAt, hslots]

theorem SoloPush.move (hd : diff (seqAt cap s₀ s₀.writePos) s₀.writePos =
      if s₀.writePos = s₀.readPos + cap.val then 1 - (cap.val : Int) else 0)
    (h : SoloPush cap s₀ s (s.calls i)) (hm : Move cap s i s' o) : SoloPush cap s₀ s' (s'.calls i) := by
  have hcap := cap.ge_two
  have hw (he : s.shared = s₀.shared) : s.writePos = s₀.writePos := congrArg Prod.fst he
  cases hm with
  | here hl =>
    rw [State.setCall_calls, Function.update_self]
    generalize s.calls i = c₀ at h hl
    cases hl with
    | pushStart => exact ⟨h, hw h⟩
    | pushLost => exact ⟨h.1, hw h.1⟩
    | pushFree item pos hz =>
      obtain ⟨hs, rfl⟩ := h
      refine ⟨hs, rfl, fun hfull => ?_⟩
      rw [seqAt_of_shared hs, hd, if_pos hfull] at hz
      omega
    | pushFull item pos hneg =>
      obtain ⟨hs, rfl⟩ := h
      show s₀.writePos = s₀.readPos + cap.val
      by_contra hroom
      rw [seqAt_of_shared hs, hd, if_neg hroom] at hneg
      exact absurd hneg (lt_irrefl 0)
    | pushAhead item pos hpos =>
      obtain ⟨hs, rfl⟩ := h
      rw [seqAt_of_shared hs, hd] at hpos
      split at hpos <;> omega
    | callPush | callPop | callSize | pushReload | popStart | popReload | popLost | popReady | popEmpty
    | popAhead | popCopy | sizeWrite | sizeRead => exact h.elim
  | claimPush hc =>
    rw [State.setCall_calls, Function.update_self]
    rw [hc] at h
    exact h.2.2
  | write hc | publish hc =>
    rw [State.setCall_calls, Function.update_self]
    rw [hc] at h
    exact h
  | claimPop hc | release hc => rw [hc] at h; exact h.elim

theorem SoloPop.move (hd : diff (seqAt cap s₀ s₀.readPos) (u64 (s₀.readPos + 1)) =
      if s₀.writePos = s₀.readPos then -1 else 0)
    (h : SoloPop s₀ s (s.calls i)) (hm : Move cap s i s' o) : SoloPop s₀ s' (s'.calls i) := by
  have hr (he : s.shared = s₀.shared) : s.readPos = s₀.readPos := congrArg (fun x => x.2.1) he
  cases hm with
  | here hl =>
    rw [State.setCall_calls, Function.update_self]
    generalize s.calls i = c₀ at h hl
    cases hl with
    | popStart => exact ⟨h, hr h⟩
    | popLost => exact ⟨h.1, hr h.1⟩
    | popReady pos hz =>
      obtain ⟨hs, rfl⟩ := h
      refine ⟨hs, rfl, fun hempty => ?_⟩
      rw [seqAt_of_shared hs, hd, if_pos hempty] at hz
      omega
    | popEmpty pos hneg =>
      obtain ⟨hs, rfl⟩ := h
      show s₀.writePos = s₀.readPos
      by_contra hready
      rw [seqAt_of_shared hs, hd, if_neg hready] at hneg
      exact absurd hneg (lt_irrefl 0)
    | popAhead pos hpos =>
      obtain ⟨hs, rfl⟩ := h
      rw [seqAt_of_shared hs, hd] at hpos
      split at hpos <;> omega
    | popCopy => exact h
    | callPush | callPop | callSize | popReload | pushStart | pushReload | pushLost | pushFree | pushFull
    | pushAhead | sizeWrite | sizeRead => exact h.elim
  | claimPop hc =>
    rw [State.setCall_calls, Function.update_self]
    rw [hc] at h
    exact h.2.2
  | release hc =>
    rw [State.setCall_calls, Function.update_self]
    rw [hc] at h
    exact h
  | claimPush hc | write hc | publish hc => rw [hc] at h; exact h.elim

end

/-! ### A call alone, access by access -/

theorem exec_push_room (item : α) (hi : s.calls i = .idle)
    (hz : diff (seqAt cap s s.writePos) s.writePos = 0) (hlt : s.writePos < 2 ^ 63) :
    ∃ s', (machine cap).exec s (.callPush i item :: List.replicate 5 (.run i)) =
        some (s', [.pushed i s.writePos item]) ∧
      s'.writePos = s.writePos + 1 ∧ s'.readPos = s.readPos ∧
      s'.calls = Function.update s.calls i (.push item (.done true)) := by
  have hu : u64 (s.writePos + 1) = s.writePos + 1 := u64_of_lt (by omega)
  unfold seqAt at hz
  refine ⟨?_, ?hexec, ?_⟩
  case hexec =>
    simp only [Machine.exec, machine, step, hi, pushStep, List.replicate, Option.bind_some,
      State.setCall_calls, State.setCall_writePos, State.setCall_slots, State.setSlot_calls,
      Function.update_self, hz, if_true, Option.map_some, List.nil_append, List.append_nil]
    rfl
  · simp [hu]

theorem exec_push_full (item : α) (hi : s.calls i = .idle)
    (hneg : diff (seqAt cap s s.writePos) s.writePos < 0) :
    ∃ s', (machine cap).exec s (.callPush i item :: List.replicate 2 (.run i)) = some (s', []) ∧
      s'.calls i = .push item (.done false) := by
  have hz := ne_of_lt hneg
  unfold seqAt at hneg hz
  refine ⟨?_, ?hexec, ?_⟩
  case hexec =>
    simp only [Machine.exec, machine, step, hi, pushStep, List.replicate, Option.bind_some,
      State.setCall_calls, State.setCall_writePos, State.setCall_slots, Function.update_self, hz, hneg,
      if_true, if_false, Option.map_some, List.nil_append, List.append_nil]
    rfl
  · simp

theorem exec_pop_ready (hi : s.calls i = .idle)
    (hz : diff (seqAt cap s s.readPos) (u64 (s.readPos + 1)) = 0) (hlt : s.readPos < 2 ^ 63) :
    ∃ s' out, (machine cap).exec s (.callPop i :: List.replicate 5 (.run i)) =
        some (s', [.popped i s.readPos]) ∧
      s'.writePos = s.writePos ∧ s'.readPos = s.readPos + 1 ∧
      s'.calls = Function.update s.calls i (.pop (.done (some out))) := by
  have hu : u64 (s.readPos + 1) = s.readPos + 1 := u64_of_lt (by omega)
  unfold seqAt at hz
  refine ⟨?_, (s.slots (cap.slot s.readPos)).data, ?hexec, ?_⟩
  case hexec =>
    simp only [Machine.exec, machine, step, hi, popStep, List.replicate, Option.bind_some,
      State.setCall_calls, State.setCall_readPos, State.setCall_slots, Function.update_self, hz, if_true,
      Option.map_some, List.nil_append, List.append_nil]
    rfl
  · simp [hu]

theorem exec_pop_empty (hi : s.calls i = .idle)
    (hneg : diff (seqAt cap s s.readPos) (u64 (s.readPos + 1)) < 0) :
    ∃ s', (machine cap).exec s (.callPop i :: List.replicate 2 (.run i)) = some (s', []) ∧
      s'.calls i = .pop (.done none) := by
  have hz := ne_of_lt hneg
  unfold seqAt at hneg hz
  refine ⟨?_, ?hexec, ?_⟩
  case hexec =>
    simp only [Machine.exec, machine, step, hi, popStep, List.replicate, Option.bind_some,
      State.setCall_calls, State.setCall_readPos, State.setCall_slots, Function.update_self, hz, hneg,
      if_true, if_false, Option.map_some, List.nil_append, List.append_nil]
    rfl
  · simp

/-! ### Failing -/

/-- Call `i`, started in `s` by `a`, ends at `c` by its own accesses alone. -/
def Alone (cap : Capacity) (s : State ι α) (i : ι) (a : Act ι α) (c : Call α) : Prop :=
  ∃ acts s' o, (∀ b ∈ acts, b = .run i ∨ b = .spurious i) ∧
    (machine cap).exec s (a :: acts) = some (s', o) ∧ s'.calls i = c

section
variable {a : Act ι α} {s' : State ι α} {o : List (Event ι α)} {c : Call α}

theorem alone_of_exec {n : Nat} (h : (machine cap).exec s (a :: List.replicate n (.run i)) = some (s', o))
    (hc : s'.calls i = c) : Alone cap s i a c :=
  ⟨_, s', o, fun _ hb => .inl (List.eq_of_mem_replicate hb), h, hc⟩

/-- What the start of a call makes true and its moves keep holds at its end. -/
theorem Alone.invariant {I : State ι α → Prop} (h : Alone cap s i a c)
    (hstart : ∀ s₁ o₁, step cap s a = some (s₁, o₁) → I s₁)
    (hmove : ∀ s₁ s₂ o₂, I s₁ → Move cap s₁ i s₂ o₂ → I s₂) : ∃ s', s'.calls i = c ∧ I s' := by
  obtain ⟨acts, s', o, hacts, hexec, hc⟩ := h
  obtain ⟨s₁, o₁, o₂, hs, he, -⟩ := Machine.exec_cons_eq_some.1 hexec
  refine ⟨s', hc, Machine.exec_preserves (P := fun b => b = .run i ∨ b = .spurious i) ?_
    (hstart s₁ o₁ hs) hacts he⟩
  intro s₂ b s₃ o hi hb hs
  have hm : Move cap s₂ b.call s₃ o := .of_step hs
  rcases hb with rfl | rfl <;> exact hmove s₂ s₃ o hi hm

end

section
omit [Inhabited α]
variable {a : Act ι α} {s' : State ι α} {o : List (Event ι α)}

/-- Who stands before a load of a sequence can only make it. -/
theorem eq_run_of_loadSeq {pos : Nat} (hs : step cap s a = some (s', o))
    (hc : (∃ item, s.calls a.call = .push item (.loadSeq pos)) ∨ s.calls a.call = .pop (.loadSeq pos)) :
    a = .run a.call := by
  cases a with
  | run => rfl
  | callPush i _ | callPop i | callSize i | spurious i =>
    have hc : (∃ item, s.calls i = .push item (.loadSeq pos)) ∨ s.calls i = .pop (.loadSeq pos) := hc
    rcases hc with ⟨item, hc⟩ | hc <;> simp [step, hc] at hs

theorem eq_call_of_ne {c : Call α} (hs : step cap s a = some (s', o)) (hne : s.calls i ≠ c)
    (hc : s'.calls i = c) : i = a.call := by
  by_contra hi
  have hm : Move cap s a.call s' o := .of_step hs
  rw [hm.calls_of_ne hi] at hc
  exact hne hc

/-- A push gives up at a load of a sequence behind its position. -/
theorem push_gives_up {item : α} (hs : step cap s a = some (s', o))
    (hne : s.calls i ≠ .push item (.done false)) (hc : s'.calls i = .push item (.done false)) :
    ∃ pos, a = .run i ∧ s.calls i = .push item (.loadSeq pos) ∧ diff (seqAt cap s pos) pos < 0 := by
  obtain rfl := eq_call_of_ne hs hne hc
  obtain ⟨pos, hc₁, hneg⟩ : ∃ pos, s.calls a.call = .push item (.loadSeq pos) ∧
      diff (seqAt cap s pos) pos < 0 := by
    cases Move.of_step hs <;> rw [State.setCall_calls, Function.update_self] at hc <;> cases hc
    case here hl =>
      generalize s.calls a.call = c at hl
      cases hl with
      | pushFull _ pos hneg => exact ⟨pos, rfl, hneg⟩
  exact ⟨pos, eq_run_of_loadSeq hs (.inl ⟨item, hc₁⟩), hc₁, hneg⟩

/-- A pop gives up at a load of a sequence behind the one it expects. -/
theorem pop_gives_up (hs : step cap s a = some (s', o)) (hne : s.calls i ≠ .pop (.done none))
    (hc : s'.calls i = .pop (.done none)) :
    ∃ pos, a = .run i ∧ s.calls i = .pop (.loadSeq pos) ∧ diff (seqAt cap s pos) (u64 (pos + 1)) < 0 := by
  obtain rfl := eq_call_of_ne hs hne hc
  obtain ⟨pos, hc₁, hneg⟩ : ∃ pos, s.calls a.call = .pop (.loadSeq pos) ∧
      diff (seqAt cap s pos) (u64 (pos + 1)) < 0 := by
    cases Move.of_step hs <;> rw [State.setCall_calls, Function.update_self] at hc <;> cases hc
    case here hl =>
      generalize s.calls a.call = c at hl
      cases hl with
      | popEmpty pos hneg => exact ⟨pos, rfl, hneg⟩
  exact ⟨pos, eq_run_of_loadSeq hs (.inr hc₁), hc₁, hneg⟩

end

/-- Of a full ring: the position a lap behind has not been released. -/
theorem not_released {pos : Nat} (h : (machine cap).Runs Machine.free tr s)
    (hb : (pushes tr).length < 2 ^ 63) (hw : s.writePos = pos) (hneg : diff (seqAt cap s pos) pos < 0) :
    cap.val ≤ pos ∧ ¬ Released tr s (pos - cap.val) := by
  subst hw
  have hinv := inv_of_runs h hb
  rw [hinv.diff_next hb] at hneg
  have hcap := cap.pos
  rcases hinv.seq_of_next with heq | ⟨hge, hlap, -, hlt⟩
  · omega
  · refine ⟨hge, ?_⟩
    rintro ⟨j, out, he, hc⟩
    rcases ((ledger_of_runs h hb).popped j _ he).2 with hc' | ⟨_, hc'⟩ | ⟨-, hseq⟩
    · rw [hc] at hc'; cases hc'
    · rw [hc] at hc'; cases hc'
    · have := hseq ⟨by omega, by omega⟩
      omega

/-- Of an empty ring: the next position has not been published. -/
theorem not_published {pos : Nat} (h : (machine cap).Runs Machine.free tr s)
    (hb : (pushes tr).length < 2 ^ 63) (hr : s.readPos = pos)
    (hneg : diff (seqAt cap s pos) (u64 (pos + 1)) < 0) : ¬ Published tr s pos := by
  subst hr
  have hinv := inv_of_runs h hb
  rw [hinv.diff_read hb] at hneg
  rintro ⟨j, item, he, hc⟩
  obtain ⟨hlt, hold⟩ := (ledger_of_runs h hb).pushed j _ item he
  have hcur : cap.Current s.writePos s.readPos := ⟨hlt, hinv.write_le⟩
  rcases hold with hc' | hc' | ⟨-, hne⟩
  · rw [hc] at hc'; cases hc'
  · rw [hc] at hc'; cases hc'
  · have := hne hcur
    rcases hinv.slot _ hcur with ⟨h1, -⟩ | ⟨h1, -⟩ | ⟨-, h1⟩ <;> omega

theorem alone_push (h : (machine cap).Runs Machine.free tr s) (hb : (pushes tr).length < 2 ^ 63)
    (hset : Settled s) (hi : s.calls i = .idle) (item : α) (ok : Bool) :
    Alone cap s i (.callPush i item) (.push item (.done ok)) ↔
      (ok = false ↔ s.writePos = s.readPos + cap.val) := by
  have hcap := cap.ge_two
  have hd := diff_push_of_settled h hb hset
  constructor
  · intro ha
    have hstart : ∀ s₁ o₁, step cap s (.callPush i item) = some (s₁, o₁) → SoloPush cap s s₁ (s₁.calls i) := by
      intro s₁ o₁ hs
      simp only [step, hi] at hs
      obtain ⟨rfl, -⟩ := Prod.mk.inj (Option.some.inj hs)
      rw [State.setCall_calls, Function.update_self]
      rfl
    obtain ⟨s', hc, hend⟩ := ha.invariant (I := fun s' => SoloPush cap s s' (s'.calls i)) hstart
      fun _ _ _ hsolo hm => hsolo.move hd hm
    rw [hc] at hend
    cases ok with
    | false => exact iff_of_true rfl hend
    | true => exact iff_of_false (by simp) hend
  · intro hok
    by_cases hfull : s.writePos = s.readPos + cap.val
    · obtain rfl := hok.2 hfull
      have hneg : diff (seqAt cap s s.writePos) s.writePos < 0 := by
        rw [hd, if_pos hfull]
        omega
      obtain ⟨s', he, hc⟩ := exec_push_full item hi hneg
      exact alone_of_exec he hc
    · obtain rfl : ok = true := by simpa using fun hf => hfull (hok.1 hf)
      rw [if_neg hfull] at hd
      obtain ⟨s', he, -, -, hc⟩ :=
        exec_push_room item hi hd ((inv_of_runs h hb).lt_of_bound hb).1
      exact alone_of_exec he (by rw [hc, Function.update_self])

theorem alone_pop (h : (machine cap).Runs Machine.free tr s) (hb : (pushes tr).length < 2 ^ 63)
    (hset : Settled s) (hi : s.calls i = .idle) :
    (∃ out, Alone cap s i (.callPop i) (.pop (.done out))) ∧
      ∀ out, Alone cap s i (.callPop i) (.pop (.done out)) → (out = none ↔ s.writePos = s.readPos) := by
  have hd := diff_pop_of_settled h hb hset
  constructor
  · by_cases hempty : s.writePos = s.readPos
    · have hneg : diff (seqAt cap s s.readPos) (u64 (s.readPos + 1)) < 0 := by
        rw [hd, if_pos hempty]
        omega
      obtain ⟨s', he, hc⟩ := exec_pop_empty hi hneg
      exact ⟨none, alone_of_exec he hc⟩
    · rw [if_neg hempty] at hd
      obtain ⟨s', out, he, -, -, hc⟩ := exec_pop_ready hi hd ((inv_of_runs h hb).lt_of_bound hb).2
      exact ⟨some out, alone_of_exec he (by rw [hc, Function.update_self])⟩
  · intro out ha
    have hstart : ∀ s₁ o₁, step cap s (.callPop i) = some (s₁, o₁) → SoloPop s s₁ (s₁.calls i) := by
      intro s₁ o₁ hs
      simp only [step, hi] at hs
      obtain ⟨rfl, -⟩ := Prod.mk.inj (Option.some.inj hs)
      rw [State.setCall_calls, Function.update_self]
      rfl
    obtain ⟨s', hc, hend⟩ := ha.invariant (I := fun s' => SoloPop s s' (s'.calls i)) hstart
      fun _ _ _ hsolo hm => hsolo.move hd hm
    rw [hc] at hend
    cases out with
    | none => exact iff_of_true rfl hend
    | some out => exact iff_of_false (by simp) hend

/-- In every run with fewer than `2 ^ 63` claimed positions, the step with which a call gives up is a load of a
sequence, its last, and what the call reports holds at that very step. A push has the value of `write_pos_`,
all positions of the last lap are claimed and the first of them is not released; this as long as at most
`2 ^ 63 - Capacity` positions are claimed. A pop has the value of `read_pos_`, and the position is not
published. With nothing else in progress they fail exactly on the full and on the empty ring. -/
theorem failure_justified (cap : Capacity) (tr : List (Event ι α)) (s : State ι α)
    (h : (machine cap).Runs Machine.free tr s) (hb : (pushes tr).length < 2 ^ 63) :
    (∀ i item a s' o, (machine cap).step s a = some (s', o) → s.calls i ≠ .push item (.done false) →
      s'.calls i = .push item (.done false) →
      ∃ pos, a = .run i ∧ s.calls i = .push item (.loadSeq pos) ∧
        ((pushes tr).length + cap.val ≤ 2 ^ 63 →
          s.writePos = pos ∧ cap.val ≤ pos ∧
          (∀ p, pos - cap.val ≤ p → p < pos → ∃ j x, Event.pushed j p x ∈ tr) ∧
          ¬ Released tr s (pos - cap.val))) ∧
    (∀ i a s' o, (machine cap).step s a = some (s', o) → s.calls i ≠ .pop (.done none) →
      s'.calls i = .pop (.done none) →
      ∃ pos, a = .run i ∧ s.calls i = .pop (.loadSeq pos) ∧ s.readPos = pos ∧ ¬ Published tr s pos) ∧
    (∀ i, s.calls i = .idle → (∀ j, ¬ (s.calls j).InProgress) →
      (∀ item, (∃ ok, Alone cap s i (.callPush i item) (.push item (.done ok))) ∧
        ∀ ok, Alone cap s i (.callPush i item) (.push item (.done ok)) →
          (ok = false ↔ s.writePos - s.readPos = cap.val)) ∧
      (∃ out, Alone cap s i (.callPop i) (.pop (.done out))) ∧
        ∀ out, Alone cap s i (.callPop i) (.pop (.done out)) → (out = none ↔ s.writePos = s.readPos)) := by
  have hinv := inv_of_runs h hb
  refine ⟨fun i item a s' o hs hne hc => ?_, fun i a s' o hs hne hc => ?_, fun i hi hidle => ?_⟩
  · obtain ⟨pos, rfl, hc₁, hneg⟩ := push_gives_up hs hne hc
    refine ⟨pos, rfl, hc₁, fun hlap => ?_⟩
    have hle := hinv.call i
    rw [hc₁] at hle
    have hw := hinv.eq_of_pushFull hlap hle hneg
    obtain ⟨hge, hrel⟩ := not_released h hb hw hneg
    exact ⟨hw, hge, fun p _ hp => exists_pushed h hb (hw ▸ hp), hrel⟩
  · obtain ⟨pos, rfl, hc₁, hneg⟩ := pop_gives_up hs hne hc
    have hle := hinv.call i
    rw [hc₁] at hle
    have hr := hinv.eq_of_popEmpty hb hle hneg
    exact ⟨pos, rfl, hc₁, hr, not_published h hb hr hneg⟩
  · have hset := settled_of_not_inProgress hidle
    have hread := hinv.read_le
    have hcap := cap.pos
    refine ⟨fun item => ⟨?_, fun ok ha => ?_⟩, alone_pop h hb hset hi⟩
    · refine ⟨decide (s.writePos ≠ s.readPos + cap.val), (alone_push h hb hset hi item _).2 ?_⟩
      simp
    · rw [(alone_push h hb hset hi item ok).1 ha]
      omega

/-- The third push into a ring of two slots, of which one has been claimed by a pop that has not released it. -/
theorem failure_justified_two_slots : ∃ (tr : List (Event Nat Nat)) (s s' : State Nat Nat),
    s'.calls 2 = .push 9 (.done false) ∧ s.writePos = 2 ∧ s.readPos = 1 ∧ ¬ Released tr s 0 := by
  let M : Machine (State Nat Nat) (Act Nat Nat) (Event Nat Nat) := machine .two
  let acts : List (Act Nat Nat) := .callPush 0 7 :: List.replicate 5 (.run 0) ++
    .callPush 1 8 :: List.replicate 5 (.run 1) ++ .callPop 3 :: List.replicate 3 (.run 3) ++
    [.callPush 2 9, .run 2]
  have hexec : ((M.exec M.init acts).bind fun (s, tr) => (M.step s (.run 2)).map fun (s', _) =>
      (s.calls 2, s'.calls 2, (pushes tr).length, s.writePos, s.readPos)) =
      some (.push 9 (.loadSeq 2), .push 9 (.done false), 2, 2, 1) := by
    decide +kernel
  obtain ⟨⟨s, tr⟩, h, hexec⟩ := Option.bind_eq_some_iff.1 hexec
  obtain ⟨⟨s', o⟩, hs, hend⟩ := Option.map_eq_some_iff.1 hexec
  simp only [Prod.mk.injEq] at hend
  obtain ⟨hc, hc', hlen, hw, hr⟩ := hend
  obtain ⟨pos, -, -, hfull⟩ := (failure_justified .two tr s (Machine.Runs.init.exec h) (by rw [hlen]; decide)).1
    2 9 _ s' o hs (by rw [hc]; simp) hc'
  obtain ⟨rfl, -, -, hrel⟩ := hfull (by rw [hlen]; decide)
  rw [hw] at hrel
  exact ⟨tr, s, s', hc', hw, hr, hrel⟩

/-- Pushes and pops in turn, while call 0 sleeps with the first position in its hands. -/
theorem exists_turns (cap : Capacity) {n : Nat} (hn : n < 2 ^ 63) :
    ∃ (tr : List (Event Nat Nat)) (s : State Nat Nat), (machine cap).Runs Machine.free tr s ∧
      (pushes tr).length = n ∧ s.writePos = n ∧ s.readPos = n ∧ s.calls 0 = .push 0 (.loadSeq 0) ∧
      Settled s ∧ ∀ j, 2 * n < j → s.calls j = .idle := by
  induction n with
  | zero =>
    let s₀ : State Nat Nat := init
    have hexec : (machine cap).exec s₀ [.callPush 0 0, .run 0] =
        some ((s₀.setCall 0 (.push 0 .loadPos)).setCall 0 (.push 0 (.loadSeq 0)), []) := rfl
    refine ⟨[], _, Machine.Runs.init.exec hexec, rfl, rfl, rfl, rfl, ?_, ?_⟩
    · intro j p hf
      by_cases hj : j = 0
      · subst hj
        exact hf
      · simp [hj, s₀, init] at hf
        exact hf
    · intro j hj
      have hne : j ≠ 0 := Nat.ne_of_gt hj
      simp [hne, s₀, init]
  | succ n ih =>
    obtain ⟨tr, s, h, hlen, hw, hr, h0, hset, hidle⟩ := ih (by omega)
    have hb : (pushes tr).length < 2 ^ 63 := by omega
    have hcap := cap.pos
    -- a push by call `2 * n + 1`
    have hd := diff_push_of_settled h hb hset
    rw [if_neg (by omega)] at hd
    obtain ⟨s₁, he₁, hw₁, hr₁, hc₁⟩ := exec_push_room 0 (hidle (2 * n + 1) (by omega)) hd (by omega)
    have h₁ := h.exec he₁
    have hlen₁ : (pushes (tr ++ [.pushed (2 * n + 1) s.writePos 0])).length = n + 1 := by
      rw [pushes_append, pushes_pushed, List.length_append, hlen]
      rfl
    have hset₁ : Settled s₁ := by
      rw [Settled, hc₁]
      exact (Function.forall_update_iff _ fun _ c => ∀ p, ¬ Call.InFlight c p).2
        ⟨fun _ hf => hf, fun j _ => hset j⟩
    -- and the pop of its item by call `2 * n + 2`
    have hd₁ := diff_pop_of_settled h₁ (by omega) hset₁
    rw [if_neg (by omega)] at hd₁
    have hidle₁ : s₁.calls (2 * n + 2) = .idle := by
      rw [hc₁, Function.update_of_ne (by omega)]
      exact hidle _ (by omega)
    obtain ⟨s₂, out, he₂, hw₂, hr₂, hc₂⟩ := exec_pop_ready hidle₁ hd₁ (by omega)
    refine ⟨_, s₂, h₁.exec he₂, ?_, by omega, by omega, ?_, ?_, ?_⟩
    · rw [pushes_append, pushes_popped, List.append_nil, hlen₁]
    · rw [hc₂, hc₁, Function.update_of_ne (by omega), Function.update_of_ne (by omega), h0]
    · rw [Settled, hc₂]
      exact (Function.forall_update_iff _ fun _ c => ∀ p, ¬ Call.InFlight c p).2
        ⟨fun _ hf => hf, fun j _ => hset₁ j⟩
    · intro j hj
      rw [hc₂, hc₁, Function.update_of_ne (by omega), Function.update_of_ne (by omega)]
      exact hidle j (by omega)

/-- A ring of two slots, empty, after `2 ^ 63 - 1` pushes and pops: the first push, which has slept since
it read position 0, reads the sequence `2 ^ 63`, takes it for one behind its position and fails. -/
theorem stale_push_fails : ∃ (tr : List (Event Nat Nat)) (s : State Nat Nat),
    (machine .two).Runs Machine.free tr s ∧ (pushes tr).length < 2 ^ 63 ∧
      s.calls 0 = .push 0 (.loadSeq 0) ∧
      (machine .two).step s (.run 0) = some (s.setCall 0 (.push 0 (.done false)), []) ∧
      s.writePos ≠ 0 ∧ s.writePos = s.readPos := by
  obtain ⟨tr, s, h, hlen, hw, hr, h0, hset, -⟩ := exists_turns .two (n := 2 ^ 63 - 1) (by decide)
  have hcur : Capacity.two.Current s.writePos (2 ^ 63 - 2) := by
    rw [hw]
    exact ⟨by decide, by decide⟩
  have hseq := seqAt_of_settled h (by rw [hlen]; decide) hset hcur
  have hslot : Capacity.two.slot (2 ^ 63 - 2) = Capacity.two.slot 0 := by
    rw [Capacity.slot_eq_mod, Capacity.slot_eq_mod]
    rfl
  rw [seqAt_congr hslot, hr, if_pos (by decide)] at hseq
  refine ⟨tr, s, h, by rw [hlen]; decide, h0, ?_, by rw [hw]; decide, hw.trans hr.symm⟩
  have hd : diff (s.slots (Capacity.two.slot 0)).sequence 0 = -2 ^ 63 := by
    rw [seqAt] at hseq
    rw [hseq]
    decide +kernel
  simp [machine, step, h0, pushStep, hd]

end Lwipc.MpmcRingBuffer
