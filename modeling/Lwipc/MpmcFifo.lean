import Lwipc.MpmcInv

/-!
# `MpmcRingBuffer` is a FIFO

Positions are claimed one after another on both sides (`positions_of_runs`), so the `k`-th claim on
either side is of position `k`, and the slot invariant says that the pop of `k` copies what the push
of `k` wrote. `fifo` states this over every run; the pop that made a claim needs at most two more
accesses of its own, the copy and the store, and both are always enabled.
-/

namespace Lwipc.MpmcRingBuffer

variable {ι α : Type} {cap : Capacity} {tr : List (Event ι α)} {s : State ι α}

/-- The call has claimed position `p` and not yet done its final store to the slot's sequence. -/
def Call.InFlight : Call α → Nat → Prop
  | .push _ (.copy pos), p | .push _ (.store pos), p | .pop (.copy pos), p | .pop (.store pos _), p =>
    pos = p
  | _, _ => False

theorem Inv.flying {i : ι} {p : Nat} (h : Inv cap tr s) (hi : (s.calls i).InFlight p) :
    Flying cap tr s i p := by
  have hok := h.call i
  rcases hc : s.calls i with _ | ⟨item, _ | _ | _ | _ | pos | pos | _⟩ |
    ⟨_ | _ | _ | _ | pos | ⟨pos, out⟩ | _⟩ | _ <;> rw [hc] at hok hi
  case push.copy =>
    obtain rfl : pos = p := hi
    exact ⟨hok.1, .inl ⟨hok.2.1, item, hok.2.2⟩⟩
  case push.store =>
    obtain rfl : pos = p := hi
    exact ⟨hok.1, .inl ⟨hok.2.1, item, hok.2.2.1⟩⟩
  case pop.copy =>
    obtain rfl : pos = p := hi
    exact ⟨hok.1, .inr ⟨hok.2.2.1, hok.2.1, hok.2.2.2⟩⟩
  case pop.store =>
    obtain rfl : pos = p := hi
    exact ⟨hok.1, .inr ⟨hok.2.2.1, hok.2.1, hok.2.2.2.1⟩⟩
  all_goals exact hi.elim

variable [DecidableEq ι]

theorem step_events {a : Act ι α} {s' : State ι α} {o : List (Event ι α)}
    (hs : step cap s a = some (s', o)) :
    o = [] ∨ (∃ i item, o = [.pushed i s.writePos item]) ∨ ∃ i, o = [.popped i s.readPos] := by
  have hpush : ∀ {i item pc}, pushStep cap s i item pc = some (s', o) →
      o = [] ∨ ∃ i item, o = [.pushed i s.writePos item] := by
    intro i item pc hs
    cases pc <;> simp only [pushStep] at hs
    case cas pos =>
      split at hs <;> obtain ⟨-, rfl⟩ := Prod.mk.inj (Option.some.inj hs)
      · subst_vars
        exact .inr ⟨i, item, rfl⟩
      · exact .inl rfl
    case loadSeq pos =>
      split_ifs at hs <;> exact .inl (Prod.mk.inj (Option.some.inj hs)).2.symm
    case done => cases hs
    all_goals exact .inl (Prod.mk.inj (Option.some.inj hs)).2.symm
  have hpop : ∀ {i pc}, popStep cap s i pc = some (s', o) →
      o = [] ∨ ∃ i, o = [.popped i s.readPos] := by
    intro i pc hs
    cases pc <;> simp only [popStep] at hs
    case cas pos =>
      split at hs <;> obtain ⟨-, rfl⟩ := Prod.mk.inj (Option.some.inj hs)
      · subst_vars
        exact .inr ⟨i, rfl⟩
      · exact .inl rfl
    case loadSeq pos =>
      split_ifs at hs <;> exact .inl (Prod.mk.inj (Option.some.inj hs)).2.symm
    case done => cases hs
    all_goals exact .inl (Prod.mk.inj (Option.some.inj hs)).2.symm
  cases a with
  | callPush | callPop | callSize | spurious =>
    simp only [step] at hs
    split at hs <;> first | exact .inl (Prod.mk.inj (Option.some.inj hs)).2.symm | cases hs
  | run i =>
    simp only [step] at hs
    split at hs
    · cases hs
    · exact (hpush hs).imp_right .inl
    · exact (hpop hs).imp_right .inr
    · rename_i pc _
      cases pc <;> simp only [sizeStep, reduceCtorEq, Option.some.injEq, Prod.mk.injEq] at hs
      all_goals exact .inl hs.2.symm

variable [Inhabited α]

/-- The claims on either counter are of positions `0, 1, 2, …` in this order. -/
theorem positions_of_runs (h : (machine cap).Runs Machine.free tr s)
    (hb : (pushes tr).length < 2 ^ 63) :
    pushPositions tr = List.range (pushes tr).length ∧
      popPositions tr = List.range (pops tr).length := by
  induction h with
  | init => exact ⟨rfl, rfl⟩
  | @step tr s s' a o hr _ hs ih =>
    have hb' : (pushes tr).length < 2 ^ 63 := by
      rw [pushes_append, List.length_append] at hb; omega
    obtain ⟨ih₁, ih₂⟩ := ih hb'
    have hi := inv_of_runs hr hb'
    rcases step_events hs with rfl | ⟨i, item, rfl⟩ | ⟨i, rfl⟩
    · simpa using ⟨ih₁, ih₂⟩
    · simp [ih₁, ih₂, hi.write, List.range_succ]
    · simp [ih₁, ih₂, hi.read, List.range_succ]

/-- From its claim on, a pop reaches `return true` by its own next accesses. -/
theorem Inv.finish_pop {k : Nat} {i : ι} (h : Inv cap tr s) (hk : (pops tr)[k]? = some i) :
    ∃ item, itemAt tr k = some item ∧ ∃ m, m ≤ 2 ∧ ∃ s' o,
      (machine cap).exec s (List.replicate m (.run i)) = some (s', o) ∧
        s'.calls i = .pop (.done (some item)) := by
  have hstore : ∀ {s : State ι α} {out}, s.calls i = .pop (.store k out) → ∃ s',
      (machine cap).step s (.run i) = some (s', []) ∧ s'.calls i = .pop (.done (some out)) := by
    intro s out hc
    refine ⟨_, by simp only [machine, MpmcRingBuffer.step, hc, MpmcRingBuffer.popStep]; rfl, by simp⟩
  have hok := h.call i
  rcases h.claimed k i hk with hc | ⟨out, hc⟩ | ⟨out, hc, hitem⟩
  · rw [hc] at hok
    have hcopy : (machine cap).step s (.run i) =
        some (s.setCall i (.pop (.store k (s.slots (cap.slot k)).data)), []) := by
      simp only [machine, MpmcRingBuffer.step, hc, MpmcRingBuffer.popStep]
    have hc' : (s.setCall i (.pop (.store k (s.slots (cap.slot k)).data))).calls i =
        .pop (.store k (s.slots (cap.slot k)).data) := by simp
    obtain ⟨s', hs, hd⟩ := hstore hc'
    refine ⟨_, h.popping_item hok.1 hok.2.2.1, 2, Nat.le_refl _, s', [], ?_, hd⟩
    simp only [List.replicate]
    rw [Machine.exec_cons hcopy, Machine.exec_cons hs]
    rfl
  · rw [hc] at hok
    obtain ⟨s', hs, hd⟩ := hstore hc
    refine ⟨out, hok.2.2.2.2, 1, by decide, s', [], ?_, hd⟩
    simp only [List.replicate]
    rw [Machine.exec_cons hs]
    rfl
  · exact ⟨out, hitem, 0, by decide, s, [], rfl, hc⟩

/-- In every run with fewer than `2 ^ 63` claimed positions: the pop that made the `k`-th claim on
`read_pos_` returns true with the item of the push that made the `k`-th claim on `write_pos_`; no
position is claimed twice on either side; a push about to write its slot's data is alone in that
slot; and the counters are at most `Capacity` apart. -/
theorem fifo (cap : Capacity) (tr : List (Event ι α)) (s : State ι α)
    (h : (machine cap).Runs Machine.free tr s) (hb : (pushes tr).length < 2 ^ 63) :
    (∀ k i, (pops tr)[k]? = some i → ∃ item, itemAt tr k = some item ∧ ∃ m, m ≤ 2 ∧ ∃ s' o,
      (machine cap).exec s (List.replicate m (.run i)) = some (s', o) ∧
        s'.calls i = .pop (.done (some item))) ∧
    (pushPositions tr).Nodup ∧ (popPositions tr).Nodup ∧
    (∀ i item pos, s.calls i = .push item (.copy pos) → ∀ j, j ≠ i → ∀ pos',
      (s.calls j).InFlight pos' → cap.slot pos' ≠ cap.slot pos) ∧
    s.readPos ≤ s.writePos ∧ s.writePos ≤ s.readPos + cap.val := by
  have hi := inv_of_runs h hb
  obtain ⟨hp₁, hp₂⟩ := positions_of_runs h hb
  refine ⟨fun k i hk => hi.finish_pop hk, ?_, ?_, ?_, hi.read_le, hi.write_le⟩
  · rw [hp₁]; exact List.nodup_range
  · rw [hp₂]; exact List.nodup_range
  · intro i item pos hc j hj pos' hfl
    have hflying : Flying cap tr s i pos := hi.flying (by rw [hc]; rfl)
    exact hflying.slot_ne (hi.flying hfl) hj

/-- Two pushes that overlap and a pop on a ring of two slots. -/
theorem fifo_two_slots :
    ∃ (tr : List (Event Nat Nat)) (s : State Nat Nat), pops tr = [2] ∧ itemAt tr 0 = some 7 ∧
      ∃ m, m ≤ 2 ∧ ∃ s' o, (machine .two).exec s (List.replicate m (.run 2)) = some (s', o) ∧
        s'.calls 2 = .pop (.done (some 7)) := by
  let M : Machine (State Nat Nat) (Act Nat Nat) (Event Nat Nat) := machine .two
  let acts : List (Act Nat Nat) := [.callPush 0 7, .run 0, .run 0, .run 0, .callPush 1 8, .run 1,
    .run 1, .run 1, .run 0, .run 0, .callPop 2, .run 2, .run 2, .run 2]
  have hexec : (M.exec M.init acts).map (fun r => (pushes r.2, pops r.2)) =
      some ([(0, 7), (1, 8)], [2]) := by decide +kernel
  obtain ⟨tr, s, hr, hend⟩ := Machine.Runs.exists_of_exec hexec
  obtain ⟨h1, h2⟩ := Prod.mk.inj hend
  obtain ⟨item, hit, hm⟩ := (fifo .two tr s hr (by rw [h1]; decide)).1 0 2 (by rw [h2]; rfl)
  obtain rfl : 7 = item := by simpa [itemAt, h1] using hit
  exact ⟨tr, s, h2, hit, hm⟩

end Lwipc.MpmcRingBuffer
