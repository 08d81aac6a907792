import Lwipc.PoolAvailable

/-!
# `acquire` and `release` are lock-free

An iteration of the loop in `acquire` or `release` is repeated only when the exchange has failed: spuriously,
or because another thread's has succeeded since `head_` was read, and then that thread's call is done. The
accesses of a thread are paid for by its calls, its spurious failures and the successes of others
(`pool_lock_free`); nobody waits for a thread that has stopped in the middle of a call.
-/

namespace Lwipc.ObjectPool

variable {τ : Type} [DecidableEq τ] {c : Params} {s s' : State τ} {a : Act τ} {t : τ} {tr o : List (Event τ)}

/-- An access of a thread: the one that begins a call, another one, or an exchange that fails spuriously. -/
inductive Access
  | acquire
  | release
  | available
  | run
  | spurious
  deriving DecidableEq

def Act.access : Act τ → Access
  | .acquire _ => .acquire
  | .release _ _ => .release
  | .available _ => .available
  | .run _ => .run
  | .spurious _ => .spurious

/-- The accesses of thread `t`. -/
def accesses (t : τ) (_ : State τ) (a : Act τ) (_ : State τ) : List Access :=
  if a.thread = t then [a.access] else []

def Event.ofOther (t : τ) : Event τ → Bool
  | .cas t' => t' ≠ t
  | .read _ => false

/-- The successful exchanges of the other threads. -/
def othersCas (t : τ) (tr : List (Event τ)) : Nat := tr.countP (Event.ofOther t)

/-- What the accesses of a thread are paid with: its calls, its spurious failures and the successes of
others. -/
def allowance (c : Params) (t : τ) (tr : List (Event τ)) (H : List Access) : Nat :=
  4 * H.count .acquire + 3 * H.count .release + (c.capacity + 3) * H.count .available +
    2 * (H.count .spurious + othersCas t tr)

/-- The accesses that are left in a call when no exchange succeeds or fails spuriously meanwhile. -/
def rank (c : Params) (head : Nat) : Pc → Nat
  | .idle => 0
  | .acquired _ | .counted _ => 1
  | .acqCas old _ => if head = old then 2 else 4
  | .acqNext old => if head = old then 3 else 5
  | .relCas _ old => if head = old then 1 else 3
  | .relNext _ old => if head = old then 2 else 4
  | .walk _ count => c.capacity + 2 - count

omit [DecidableEq τ] in
theorem rank_le (c : Params) (head head' : Nat) (pc : Pc) : rank c head' pc ≤ rank c head pc + 2 := by
  cases pc with
  | acqCas old | acqNext old | relCas _ old | relNext _ old =>
    simp only [rank]
    split <;> split <;> omega
  | _ => exact Nat.le_add_right _ 2

omit [DecidableEq τ] in
theorem rank_acqLoop (c : Params) (head : Nat) : rank c head (acqLoop head) ≤ 3 := by
  unfold acqLoop
  split
  · exact Nat.le_of_ble_eq_true rfl
  · simp [rank]

omit [DecidableEq τ] in
theorem rank_walkLoop (c : Params) (head idx count : Nat) (hle : count ≤ c.capacity + 1) :
    rank c head (walkLoop c idx count) ≤ c.capacity + 2 - count := by
  unfold walkLoop
  split
  · exact le_rfl
  · simp only [rank]
    omega

theorem allowance_append (c : Params) (t : τ) (tr : List (Event τ)) (H : List Access) (o : List (Event τ))
    (H' : List Access) :
    allowance c t (tr ++ o) (H ++ H') = allowance c t tr H + allowance c t o H' := by
  simp only [allowance, othersCas, List.count_append, List.countP_append, Nat.mul_add]
  omega

/-- Only a successful exchange changes the head. -/
theorem step_head (hs : step c s a = some (s', o)) :
    s'.pool.head = s.pool.head ∨ o = [.cas a.thread] := by
  cases a with
  | acquire t =>
    simp only [step] at hs
    split at hs <;> cases hs
    exact .inl rfl
  | release t p =>
    simp only [step] at hs
    split at hs
    · split at hs <;> cases hs
      exact .inl rfl
    · cases hs
  | available t =>
    simp only [step] at hs
    split at hs <;> cases hs
    exact .inl rfl
  | spurious t =>
    simp only [step] at hs
    split at hs <;> cases hs
    · exact .inl rfl
    · exact .inl rfl
  | run t =>
    have hs : runStep c s t (s.pc t) = some (s', o) := hs
    unfold runStep at hs
    split at hs
    · cases hs
    · cases hs
      exact .inl rfl
    · split at hs <;> cases hs
      · exact .inr rfl
      · exact .inl rfl
    · cases hs
      exact .inl rfl
    · cases hs
      exact .inl rfl
    · cases hs
      exact .inl rfl
    · split at hs <;> cases hs
      · exact .inr rfl
      · exact .inl rfl
    · cases hs
      exact .inl rfl
    · cases hs
      exact .inl rfl

omit [DecidableEq τ] in
theorem rank_acqNext (c : Params) (head old nxt : Nat) :
    1 + rank c head (.acqCas old nxt) = rank c head (.acqNext old) := by
  simp only [rank]
  split_ifs <;> rfl

omit [DecidableEq τ] in
theorem rank_relNext (c : Params) (head p old : Nat) :
    1 + rank c head (.relCas p old) = rank c head (.relNext p old) := by
  simp only [rank]
  split_ifs <;> rfl

/-- An access in the middle of a call brings it closer to its end. -/
theorem run_cost (hw : (s.pc t).Within c) (hs : step c s (.run t) = some (s', o)) :
    1 + rank c s'.pool.head (s'.pc t) ≤ rank c s.pool.head (s.pc t) := by
  have hs : runStep c s t (s.pc t) = some (s', o) := hs
  have hkeep : ∀ {pc}, s'.pc t = pc → s'.pool.head = s.pool.head →
      1 + rank c s.pool.head pc ≤ rank c s.pool.head (s.pc t) →
      1 + rank c s'.pool.head (s'.pc t) ≤ rank c s.pool.head (s.pc t) := by
    rintro pc rfl hhead h
    rwa [hhead]
  cases hp : s.pc t with
  | idle =>
    rw [hp] at hs
    cases hs
  | acqNext old =>
    rw [hp] at hs hkeep
    cases hs
    exact hkeep (Function.update_self _ _ _) rfl (rank_acqNext c _ _ _).le
  | acqCas old nxt =>
    rw [hp] at hs hkeep
    simp only [runStep] at hs
    split at hs
    · rename_i heq
      cases hs
      simp only [State.setPc, Function.update_self, rank, heq, if_true, Nat.reduceAdd, le_refl]
    · rename_i hne
      cases hs
      refine hkeep (Function.update_self _ _ _) rfl ?_
      have hloop := rank_acqLoop c s.pool.head
      have hrank : rank c s.pool.head (.acqCas old nxt) = 4 := if_neg hne
      omega
  | acquired p =>
    rw [hp] at hs hkeep
    cases p <;> cases hs <;> exact hkeep (Function.update_self _ _ _) rfl le_rfl
  | relNext p old =>
    rw [hp] at hs hkeep
    cases hs
    exact hkeep (Function.update_self _ _ _) rfl (rank_relNext c _ _ _).le
  | relCas p old =>
    rw [hp] at hs hkeep
    simp only [runStep] at hs
    split at hs
    · rename_i heq
      cases hs
      simp only [State.setPc, Function.update_self, rank, heq, if_true, Nat.add_zero, le_refl]
    · rename_i hne
      cases hs
      refine hkeep (Function.update_self _ _ _) rfl ?_
      simp only [rank, if_neg hne, if_true, Nat.reduceAdd, le_refl]
  | walk idx count =>
    have hle : count ≤ c.capacity := hw idx count hp
    rw [hp] at hs hkeep
    cases hs
    refine hkeep (Function.update_self _ _ _) rfl ?_
    have hloop := rank_walkLoop c s.pool.head (s.pool.next idx) (count + 1) (by omega)
    have hrank : rank c s.pool.head (.walk idx count) = c.capacity + 2 - count := rfl
    omega
  | counted count =>
    rw [hp] at hs hkeep
    cases hs
    exact hkeep (Function.update_self _ _ _) rfl le_rfl

/-- The access that begins a call, or an exchange that fails spuriously. -/
theorem other_cost (hs : step c s a = some (s', o)) (ha : a.access ≠ .run) :
    1 + rank c s'.pool.head (s'.pc a.thread) ≤
      rank c s.pool.head (s.pc a.thread) + allowance c a.thread [] [a.access] := by
  have hkeep : ∀ {t pc n k}, s'.pc t = pc → s'.pool.head = s.pool.head → rank c s.pool.head pc ≤ n →
      allowance c t [] [a.access] = k → 1 + n ≤ rank c s.pool.head (s.pc t) + k →
      1 + rank c s'.pool.head (s'.pc t) ≤ rank c s.pool.head (s.pc t) + allowance c t [] [a.access] := by
    rintro t pc n k rfl hhead hle rfl h
    rw [hhead]
    omega
  cases a with
  | acquire t =>
    simp only [step] at hs
    split at hs <;> cases hs
    exact hkeep (Function.update_self _ _ _) rfl (rank_acqLoop c _) rfl (Nat.le_add_left _ _)
  | release t p =>
    simp only [step] at hs
    split at hs
    · split at hs <;> cases hs
      refine hkeep (n := 2) (Function.update_self _ _ _) rfl ?_ rfl (Nat.le_add_left _ _)
      simp only [rank, if_true, le_refl]
    · cases hs
  | available t =>
    simp only [step] at hs
    split at hs <;> cases hs
    refine hkeep (Function.update_self _ _ _) rfl (rank_walkLoop c _ _ 0 (Nat.zero_le _))
      (k := c.capacity + 3) ?_ (by omega)
    simp [allowance, othersCas, Act.access]
  | spurious t =>
    simp only [step] at hs
    split at hs <;> cases hs
    · rename_i old nxt hp
      refine hkeep (Function.update_self _ _ _) rfl (rank_acqLoop c _) rfl ?_
      show 1 + 3 ≤ rank c s.pool.head (s.pc t) + 2
      rw [hp]
      simp only [rank]
      split_ifs <;> decide
    · rename_i p old hp
      refine hkeep (n := 2) (Function.update_self _ _ _) rfl ?_ rfl ?_
      · simp only [rank, if_true, le_refl]
      · show 1 + 2 ≤ rank c s.pool.head (s.pc t) + 2
        rw [hp]
        simp only [rank]
        split_ifs <;> decide
  | run t => exact absurd rfl ha

theorem step_cost (hw : (s.pc t).Within c) (hs : step c s a = some (s', o)) :
    (accesses t s a s').length + rank c s'.pool.head (s'.pc t) ≤
      rank c s.pool.head (s.pc t) + allowance c t o (accesses t s a s') := by
  by_cases ht : a.thread = t
  · subst ht
    rw [accesses, if_pos rfl, List.length_singleton]
    have hsplit : allowance c a.thread o [a.access] =
        allowance c a.thread o [] + allowance c a.thread [] [a.access] := by
      rw [← allowance_append, List.append_nil, List.nil_append]
    cases a with
    | run t => exact (run_cost hw hs).trans (Nat.le_add_right _ _)
    | acquire | release | available | spurious =>
      have hcost := other_cost hs (by simp [Act.access])
      omega
  · obtain ⟨pc, hpc, -⟩ := step_pc hs
    have hsame : s'.pc t = s.pc t := by rw [hpc, Function.update_of_ne (Ne.symm ht)]
    rw [accesses, if_neg ht, hsame, List.length_nil, Nat.zero_add]
    rcases step_head hs with hhead | rfl
    · rw [hhead]
      exact Nat.le_add_right _ _
    · have hone : allowance c t [.cas a.thread] [] = 2 := by
        simp [allowance, othersCas, Event.ofOther, ht]
      rw [hone]
      exact rank_le c _ _ _

/-- A thread in a call can always go on. -/
theorem exists_run (c : Params) (s : State τ) (h : s.pc t ≠ .idle) :
    ∃ s' o, (machine c).step s (.run t) = some (s', o) := by
  show ∃ s' o, runStep c s t (s.pc t) = some (s', o)
  cases hp : s.pc t with
  | idle => exact absurd hp h
  | acqCas old nxt | relCas p old =>
    simp only [runStep]
    split <;> exact ⟨_, _, rfl⟩
  | acquired p => cases p <;> exact ⟨_, _, rfl⟩
  | acqNext | relNext | walk | counted => exact ⟨_, _, rfl⟩

/-- In every run and for every thread: its accesses to the pool, with those that begin its calls, are at
most four for each `acquire`, three for each `release`, `Capacity + 3` for each `available`, and two more for
each of its exchanges that failed spuriously and for each successful exchange of another thread, which is an
`acquire` or `release` of that thread that takes effect. A thread in a call can always perform its next
access, wherever the others have stopped. -/
theorem pool_lock_free (c : Params) (tr : List (Event τ)) (H : List Access) (s : State τ) (t : τ)
    (h : (machine c).Observed Machine.free (accesses t) tr H s) :
    H.length ≤ 4 * H.count .acquire + 3 * H.count .release + (c.capacity + 3) * H.count .available +
      2 * (H.count .spurious + othersCas t tr) ∧
    (s.pc t ≠ .idle → ∃ s' o, (machine c).step s (.run t) = some (s', o)) := by
  have hcost := h.amortized (fun s => rank c s.pool.head (s.pc t)) (fun _ H => H.length) (allowance c t) rfl
    (fun _ _ _ _ => List.length_append) (allowance_append c t) fun tr s a s' o hr _ hs =>
      step_cost (within_of_runs hr t) hs
  refine ⟨?_, exists_run c s⟩
  have hinit : rank c (machine c : Machine (State τ) _ _).init.pool.head ((machine c).init.pc t) = 0 := rfl
  simp only [hinit, Nat.zero_add] at hcost
  exact (Nat.le_add_right _ _).trans hcost

/-- Thread 1 takes a slot between the load and the exchange of thread 0, whose second exchange succeeds:
the bound is attained. -/
theorem pool_lock_free_overtaken : ∃ (tr : List (Event Nat)) (H : List Access),
    H = [.acquire, .run, .run, .run, .run, .run] ∧ othersCas 0 tr = 1 ∧
      H.length ≤ 4 * H.count .acquire + 3 * H.count .release + 5 * H.count .available +
        2 * (H.count .spurious + othersCas 0 tr) := by
  let M : Machine (State Nat) (Act Nat) (Event Nat) := machine .two
  let acts : List (Act Nat) :=
    [.acquire 0, .run 0, .acquire 1, .run 1, .run 1, .run 0, .run 0, .run 0, .run 0]
  have hexec : (M.watch (accesses 0) M.init acts).map (fun r => (r.2.1, othersCas 0 r.1)) =
      some ([.acquire, .run, .run, .run, .run, .run], 1) := by
    decide +kernel
  obtain ⟨tr, H, s, hrun, hend⟩ := Machine.exists_of_watch hexec
  obtain ⟨hH, hcas⟩ := Prod.mk.inj hend
  exact ⟨tr, H, hH, hcas, (pool_lock_free .two tr H s 0 hrun).1⟩

end Lwipc.ObjectPool
