import Lwipc.MpmcFailure

/-!
# Retries and sizes

A sequence ahead of a call's position means that the counter has moved on, and so does an exchange that
fails for a reason; every retry then follows another call's claim, and goes on with a larger position. A
call that runs alone has the counter's value from its second iteration on, and gets through.

`approx_size` reads `write_pos_` first: what is popped before it reads `read_pos_` lowers the result.
-/

namespace Lwipc.MpmcRingBuffer

variable {ι α : Type} {cap : Capacity} {tr : List (Event ι α)} {s : State ι α} {i : ι}

/-- The position of the current iteration of a call that is inside its loop. -/
def Call.loopPos : Call α → Option Nat
  | .push _ (.loadSeq pos) | .push _ (.cas pos) | .push _ (.reload pos)
  | .pop (.loadSeq pos) | .pop (.cas pos) | .pop (.reload pos) => some pos
  | _ => none

/-- The call is about to begin an iteration. -/
def Call.atHead : Call α → Bool
  | .push _ (.loadSeq _) | .pop (.loadSeq _) => true
  | _ => false

variable [DecidableEq ι]

/-- Running alone, and without spurious failures, call `i` leaves its loop having begun at most `k` more
iterations. -/
inductive Leaves (cap : Capacity) (i : ι) : Nat → State ι α → Prop
  | out {k : Nat} {s : State ι α} (h : (s.calls i).loopPos = none) : Leaves cap i k s
  | iterate {k : Nat} {s s' : State ι α} {o : List (Event ι α)} (hh : (s.calls i).atHead = true)
      (hs : step cap s (.run i) = some (s', o)) (h : Leaves cap i k s') : Leaves cap i (k + 1) s
  | inside {k : Nat} {s s' : State ι α} {o : List (Event ι α)} (hh : (s.calls i).atHead = false)
      (hs : step cap s (.run i) = some (s', o)) (h : Leaves cap i k s') : Leaves cap i k s

/-! ### Alone -/

section
variable {item : α} {pos : Nat}

theorem Shared.setCall (h : Shared cap tr s) (c : Call α) : Shared cap tr (s.setCall i c) :=
  ⟨h.write, h.read, h.read_le, h.write_le, h.seq_lt, h.slot, h.fresh⟩

theorem Leaves.succ {k : Nat} (h : Leaves cap i k s) : Leaves cap i (k + 1) s := by
  induction h with
  | out h => exact .out h
  | iterate hh hs _ ih => exact .iterate hh hs ih
  | inside hh hs _ ih => exact .inside hh hs ih

end

/-! ### Retries -/

variable [Inhabited α]

/-- Since call `i` read `pos` from `write_pos_`, another push has claimed it. -/
def Overtaken (cap : Capacity) (tr : List (Event ι α)) (s : State ι α) (i : ι) (item : α) (pos : Nat) : Prop :=
  ∃ tr₀ s₀ tr₁, (machine cap).Runs Machine.free tr₀ s₀ ∧ s₀.calls i = .push item (.loadSeq pos) ∧
    s₀.writePos = pos ∧ ((machine cap).startAt s₀).Runs Machine.free tr₁ s ∧ tr = tr₀ ++ tr₁ ∧
    ∃ j x, j ≠ i ∧ Event.pushed j pos x ∈ tr₁

section
variable {item : α} {pos pos' : Nat} {s' : State ι α} {o : List (Event ι α)}
variable (h : (machine cap).Runs Machine.free tr s) (hb : (pushes tr).length < 2 ^ 63)
include h hb

end

omit [Inhabited α] in
/-- A size that has read `write_pos_` keeps its value until it reads `read_pos_`, and is done then. -/
theorem Move.size {j : ι} {s' : State ι α} {o : List (Event ι α)} {w : Nat} (hm : Move cap s j s' o)
    (hc : s.calls i = .size (.loadRead w) ∨ ∃ n, s.calls i = .size (.done n)) :
    s'.calls i = .size (.loadRead w) ∨ ∃ n, s'.calls i = .size (.done n) := by
  by_cases hi : i = j
  · subst hi
    cases hm with
    | here hl =>
      rw [State.setCall_calls, Function.update_self]
      generalize s.calls i = c at hl hc
      rcases hc with rfl | ⟨n, rfl⟩
      · cases hl
        exact .inr ⟨_, rfl⟩
      · cases hl
    | claimPush hc' | write hc' | publish hc' | claimPop hc' | release hc' => simp [hc'] at hc
  · rwa [hm.calls_of_ne hi]

theorem size_of_runs {w : Nat} (hc : s.calls i = .size (.loadRead w)) {tr' : List (Event ι α)} {s' : State ι α}
    (h : ((machine cap).startAt s).Runs Machine.free tr' s') :
    s'.calls i = .size (.loadRead w) ∨ ∃ n, s'.calls i = .size (.done n) :=
  h.invariant (I := fun _ s' => s'.calls i = .size (.loadRead w) ∨ ∃ n, s'.calls i = .size (.done n)) (.inl hc)
    fun _ _ _ _ _ hi _ hs => (Move.of_step hs).size hi

omit [Inhabited α] in
/-- The two loads. -/
theorem step_size {s' : State ι α} {o : List (Event ι α)} {pc : SizePc} (hc : s.calls i = .size pc)
    (hs : step cap s (.run i) = some (s', o)) :
    (pc = .loadWrite ∧ s' = s.setCall i (.size (.loadRead s.writePos)) ∧ o = []) ∨
      ∃ w, pc = .loadRead w ∧ s' = s.setCall i (.size (.done (w - s.readPos))) ∧ o = [] := by
  simp only [step, hc] at hs
  cases pc with
  | loadWrite =>
    cases hs
    exact .inl ⟨rfl, rfl, rfl⟩
  | loadRead w =>
    have hsize : (if w ≥ s.readPos then w - s.readPos else 0) = w - s.readPos := by
      split <;> omega
    rw [sizeStep, hsize] at hs
    cases hs
    exact .inr ⟨w, rfl, rfl, rfl⟩
  | done => cases hs

/-- In every run with fewer than `2 ^ 63` claimed positions, in which `approx_size` loads `write_pos_` in `s₁`
and, whatever the others have done in between, `read_pos_` in `s₂`: it returns at most the number of items in
`s₁`, which is at most the capacity, and this number if `read_pos_` has not changed in between. -/
theorem approxSize_bounded (cap : Capacity) (tr₁ tr₂ o₁ o₂ : List (Event ι α)) (s₁ s₁' s₂ s₂' : State ι α)
    (i : ι) (size : Nat) (h₁ : (machine cap).Runs Machine.free tr₁ s₁) (hc₁ : s₁.calls i = .size .loadWrite)
    (hload₁ : (machine cap).step s₁ (.run i) = some (s₁', o₁))
    (h₂ : ((machine cap).startAt s₁').Runs Machine.free tr₂ s₂)
    (hload₂ : (machine cap).step s₂ (.run i) = some (s₂', o₂)) (hc₂ : s₂'.calls i = .size (.done size))
    (hb : (pushes (tr₁ ++ tr₂)).length < 2 ^ 63) :
    s₁.readPos ≤ s₁.writePos ∧ size ≤ s₁.writePos - s₁.readPos ∧ s₁.writePos - s₁.readPos ≤ cap.val ∧
      (s₂.readPos = s₁.readPos → size = s₁.writePos - s₁.readPos) := by
  obtain ⟨-, rfl, rfl⟩ | ⟨w, hw, -⟩ := step_size hc₁ hload₁
  case inr => cases hw
  have hsize : size = s₁.writePos - s₂.readPos := by
    rcases size_of_runs (w := s₁.writePos) (i := i) (by simp) h₂ with hc | ⟨n, hc⟩ <;>
      obtain ⟨hpc, -⟩ | ⟨w, hpc, rfl, -⟩ := step_size hc hload₂ <;> cases hpc
    simpa using hc₂.symm
  have h := (h₁.step trivial hload₁).append h₂
  rw [List.append_nil] at h
  have hinv₁ := inv_of_runs h₁ (by rw [pushes_append, List.length_append] at hb; omega)
  have hinv₂ := inv_of_runs h hb
  have hread := hinv₁.read_le
  have hwrite := hinv₁.write_le
  -- the pops only add to `read_pos_`
  have hmono : s₁.readPos ≤ s₂.readPos := by
    rw [hinv₁.read, hinv₂.read, pops_append, List.length_append]
    exact Nat.le_add_right _ _
  refine ⟨hread, by omega, by omega, fun heq => ?_⟩
  rw [hsize, heq]

/-- An item is pushed and two are popped between the two loads. -/
theorem approxSize_bounded_pop_between : ∃ (s₁ s₂' : State Nat Nat) (size : Nat),
    s₂'.calls 2 = .size (.done size) ∧ s₁.writePos - s₁.readPos = 1 ∧ size ≤ s₁.writePos - s₁.readPos ∧
      size = 0 := by
  let M : Machine (State Nat Nat) (Act Nat Nat) (Event Nat Nat) := machine .two
  let acts : List (Act Nat Nat) := Act.callPush 0 7 :: List.replicate 5 (.run 0) ++ [.callSize 2]
  let acts' : List (Act Nat Nat) := Act.callPush 1 8 :: List.replicate 5 (.run 1) ++
    .callPop 3 :: List.replicate 5 (.run 3) ++ .callPop 4 :: List.replicate 5 (.run 4)
  have hexec : ((M.exec M.init acts).bind fun (s₁, tr₁) => (M.step s₁ (.run 2)).bind fun (s₁', _) =>
      ((M.startAt s₁').exec s₁' acts').bind fun (s₂, tr₂) => (M.step s₂ (.run 2)).map fun (s₂', _) =>
        (s₁.calls 2, s₁.writePos - s₁.readPos, (pushes (tr₁ ++ tr₂)).length, s₂'.calls 2)) =
      some (.size .loadWrite, 1, 2, .size (.done 0)) := by
    decide +kernel
  obtain ⟨⟨s₁, tr₁⟩, h₁, hexec⟩ := Option.bind_eq_some_iff.1 hexec
  obtain ⟨⟨s₁', o₁⟩, hload₁, hexec⟩ := Option.bind_eq_some_iff.1 hexec
  obtain ⟨⟨s₂, tr₂⟩, h₂, hexec⟩ := Option.bind_eq_some_iff.1 hexec
  obtain ⟨⟨s₂', o₂⟩, hload₂, hend⟩ := Option.map_eq_some_iff.1 hexec
  simp only [Prod.mk.injEq] at hend
  obtain ⟨hc₁, hone, hlen, hc₂⟩ := hend
  obtain ⟨-, hle, -, -⟩ := approxSize_bounded .two tr₁ tr₂ o₁ o₂ s₁ s₁' s₂ s₂' 2 0 (Machine.Runs.init.exec h₁) hc₁
    hload₁ (Machine.Runs.init.exec h₂) hload₂ hc₂ (by rw [hlen]; decide)
  exact ⟨s₁, s₂', 0, hc₂, hone, hle, rfl⟩

end Lwipc.MpmcRingBuffer
