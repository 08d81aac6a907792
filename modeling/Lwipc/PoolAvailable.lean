import Lwipc.PoolInv

/-!
# What `available` returns beside other threads

The walk of `available` follows links that the other threads rewrite. Only the loop test bounds it: the
loop goes on while `count <= Capacity`, so it always ends, but a walk that is led on after `Capacity`
slots counts one more (`available_overcounts`). When no `release` stores a link during the walk, it follows the
chain that was there at its start, which has no more than `Capacity` slots.
-/

namespace Lwipc.ObjectPool

variable {τ : Type}

/-- The action is an access of thread `t`. -/
def Act.isRun [DecidableEq τ] (t : τ) : Act τ → Bool
  | .run t' => t' = t
  | _ => false

/-- No link is stored while a walk is under way. -/
def Undisturbed (_ : List (Event τ)) (s : State τ) : Act τ → Prop
  | .run t => ∀ p old, s.pc t = .relNext p old → ∀ t' idx count, s.pc t' ≠ .walk idx count
  | _ => True

variable [DecidableEq τ] {c : Params} {tr o : List (Event τ)} {s s' : State τ} {t : τ} {a : Act τ}
  {idx count : Nat}

theorem walkLoop_cases (c : Params) (idx count : Nat) :
    (idx ≠ kNullIndex ∧ count ≤ c.capacity ∧ walkLoop c idx count = .walk idx count) ∨
    ((idx = kNullIndex ∨ c.capacity < count) ∧ walkLoop c idx count = .counted count) := by
  unfold walkLoop
  split
  · rename_i h
    exact .inl ⟨h.1, h.2, rfl⟩
  · rename_i h
    refine .inr ⟨?_, rfl⟩
    by_contra hn
    rw [not_or, Nat.not_lt] at hn
    exact h hn

def Act.thread : Act τ → τ
  | .acquire t | .release t _ | .available t | .run t | .spurious t => t

/-- Inside the loop of `available` or at its return. -/
def Pc.inWalk : Pc → Bool
  | .walk _ _ | .counted _ => true
  | _ => false

omit [DecidableEq τ] in
theorem acqLoop_inWalk (head : Nat) : (acqLoop head).inWalk = false := by
  unfold acqLoop
  split <;> rfl

/-- What a step does as far as the walks are concerned: where its thread goes, and whether it stores a
link. -/
theorem step_pc (hs : step c s a = some (s', o)) :
    ∃ pc, s'.pc = Function.update s.pc a.thread pc ∧
      (pc.inWalk = false ∨
        ((∃ t, a = .available t) ∧ pc = walkLoop c (indexOf s.pool.head) 0) ∨
        ∃ t idx count, a = .run t ∧ s.pc t = .walk idx count ∧
          pc = walkLoop c (s.pool.next idx) (count + 1)) ∧
      (s'.pool.next = s.pool.next ∨ ∃ t p old, a = .run t ∧ s.pc t = .relNext p old) := by
  cases a with
  | acquire t =>
    simp only [step] at hs
    split at hs <;> cases hs
    exact ⟨_, rfl, .inl (acqLoop_inWalk _), .inl rfl⟩
  | release t p =>
    simp only [step] at hs
    split at hs
    · split at hs <;> cases hs
      exact ⟨_, rfl, .inl rfl, .inl rfl⟩
    · cases hs
  | available t =>
    simp only [step] at hs
    split at hs <;> cases hs
    exact ⟨_, rfl, .inr (.inl ⟨⟨t, rfl⟩, rfl⟩), .inl rfl⟩
  | run t =>
    simp only [step] at hs
    rcases hp : s.pc t with _ | old | ⟨old, nxt⟩ | q | ⟨p, old⟩ | ⟨p, old⟩ | ⟨idx, count⟩ | count <;>
      rw [hp] at hs <;> simp only [runStep] at hs
    case acqCas =>
      split at hs <;> cases hs
      · exact ⟨_, rfl, .inl rfl, .inl rfl⟩
      · exact ⟨_, rfl, .inl (acqLoop_inWalk _), .inl rfl⟩
    case acquired =>
      cases q <;> cases hs <;> exact ⟨_, rfl, .inl rfl, .inl rfl⟩
    case relNext =>
      cases hs
      exact ⟨_, rfl, .inl rfl, .inr ⟨t, p, old, rfl, hp⟩⟩
    case relCas =>
      split at hs <;> cases hs <;> exact ⟨_, rfl, .inl rfl, .inl rfl⟩
    case walk =>
      cases hs
      exact ⟨_, rfl, .inr (.inr ⟨t, idx, count, rfl, hp, rfl⟩), .inl rfl⟩
    case idle => cases hs
    case acqNext | counted =>
      cases hs
      exact ⟨_, rfl, .inl rfl, .inl rfl⟩
  | spurious t =>
    simp only [step] at hs
    split at hs <;> cases hs
    · exact ⟨_, rfl, .inl (acqLoop_inWalk _), .inl rfl⟩
    · exact ⟨_, rfl, .inl rfl, .inl rfl⟩

/-- Where the threads stand after a step: what holds outside the walks is left to show of the beginning of a
walk, of its next turn, and of the other threads. -/
theorem pc_of_step {P : Pc → Prop} (hout : ∀ pc, pc.inWalk = false → P pc)
    (hstart : ∀ t, a = .available t → P (walkLoop c (indexOf s.pool.head) 0))
    (hnext : ∀ t idx count, a = .run t → s.pc t = .walk idx count →
      P (walkLoop c (s.pool.next idx) (count + 1)))
    (hother : ∀ t, t ≠ a.thread → P (s.pc t)) (hs : step c s a = some (s', o)) (t : τ) : P (s'.pc t) := by
  obtain ⟨pc, hpc, hnew, -⟩ := step_pc hs
  rw [hpc]
  by_cases ht : t = a.thread
  · rw [ht, Function.update_self]
    rcases hnew with hw | ⟨⟨t', ha⟩, rfl⟩ | ⟨t', idx, count, ha, hp, rfl⟩
    · exact hout pc hw
    · exact hstart t' ha
    · exact hnext t' idx count ha hp
  · rw [Function.update_of_ne ht]
    exact hother t ht

/-! ### The walk ends -/

/-- Inside the loop at most `Capacity` slots are counted. -/
def Pc.Within (c : Params) (pc : Pc) : Prop := ∀ idx count, pc = .walk idx count → count ≤ c.capacity

omit [DecidableEq τ] in
theorem within_walkLoop (c : Params) (idx count : Nat) : (walkLoop c idx count).Within c := by
  intro idx' count' hw
  rcases walkLoop_cases c idx count with ⟨-, hle, he⟩ | ⟨-, he⟩ <;> rw [he] at hw <;> cases hw
  exact hle

theorem within_of_runs (h : (machine c).Runs Machine.free tr s) (t : τ) : (s.pc t).Within c := by
  have hout : ∀ pc : Pc, pc.inWalk = false → pc.Within c := by
    rintro pc hpc idx count rfl
    cases hpc
  refine h.invariant (I := fun _ s => ∀ t, (s.pc t).Within c) (fun t => hout .idle rfl) ?_ t
  intro tr s a s' o ih _ hs
  exact pc_of_step hout (fun _ _ => within_walkLoop c _ _) (fun _ _ _ _ _ => within_walkLoop c _ _)
    (fun t _ => ih t) hs

/-- A thread inside the loop goes on by its own accesses only. -/
theorem step_of_walk (hp : s.pc t = .walk idx count) (hs : step c s a = some (s', o)) :
    (a.isRun t = true ∧ s'.pc t = walkLoop c (s.pool.next idx) (count + 1)) ∨
    (a.isRun t = false ∧ s'.pc t = .walk idx count) := by
  by_cases ht : t = a.thread
  · cases a with
    | run t' =>
      obtain rfl : t = t' := ht
      simp only [step, hp, runStep] at hs
      cases hs
      exact .inl ⟨decide_eq_true rfl, Function.update_self _ _ _⟩
    | acquire t' | release t' _ | available t' | spurious t' =>
      obtain rfl : t = t' := ht
      simp only [step, hp] at hs
      cases hs
  · obtain ⟨pc, hpc, -⟩ := step_pc hs
    refine .inr ⟨?_, by rw [hpc, Function.update_of_ne ht, hp]⟩
    cases a with
    | run t' => exact decide_eq_false (Ne.symm ht)
    | acquire | release | available | spurious => rfl

/-- `Capacity + 1` reads of links end the loop, whatever happens between them. -/
theorem walk_returns {acts : List (Act τ)} (hp : s.pc t = .walk idx count) (hle : count ≤ c.capacity)
    (he : (machine c).exec s acts = some (s', o)) (hreads : c.capacity < count + acts.countP (Act.isRun t)) :
    ∃ n acts₁ acts₂ s₁ o₁, acts = acts₁ ++ acts₂ ∧ (machine c).exec s acts₁ = some (s₁, o₁) ∧
      s₁.pc t = .counted n := by
  induction acts generalizing s idx count o with
  | nil =>
    rw [List.countP_nil] at hreads
    omega
  | cons a acts ih =>
    obtain ⟨s₂, o₂, o₃, hs, he₂, -⟩ := Machine.exec_cons_eq_some.1 he
    have hcons {n acts₁ acts₂ s₁ o₁} (hsplit : acts = acts₁ ++ acts₂)
        (hexec : (machine c).exec s₂ acts₁ = some (s₁, o₁)) (hn : s₁.pc t = .counted n) :
        ∃ n acts₁ acts₂ s₁ o₁, a :: acts = acts₁ ++ acts₂ ∧ (machine c).exec s acts₁ = some (s₁, o₁) ∧
          s₁.pc t = .counted n :=
      ⟨n, a :: acts₁, acts₂, s₁, o₂ ++ o₁, by rw [hsplit]; rfl,
        Machine.exec_cons_eq_some.2 ⟨s₂, o₂, o₁, hs, hexec, rfl⟩, hn⟩
    rcases step_of_walk hp hs with ⟨ha, hp₂⟩ | ⟨ha, hp₂⟩
    · rw [List.countP_cons_of_pos ha] at hreads
      rcases walkLoop_cases c (s.pool.next idx) (count + 1) with ⟨-, hle₂, hw⟩ | ⟨-, hw⟩ <;> rw [hw] at hp₂
      · obtain ⟨n, acts₁, acts₂, s₁, o₁, hsplit, hexec, hn⟩ := ih hp₂ hle₂ he₂ (by omega)
        exact hcons hsplit hexec hn
      · exact hcons (List.nil_append _).symm rfl hp₂
    · rw [List.countP_cons_of_neg (by simp [ha])] at hreads
      obtain ⟨n, acts₁, acts₂, s₁, o₁, hsplit, hexec, hn⟩ := ih hp₂ hle he₂ hreads
      exact hcons hsplit hexec hn

/-! ### What it counts -/

/-- From where a walk stands, the links lead to the end within the slots that it has not counted; one that has
ended has counted at most all. -/
def Chained (c : Params) (s : State τ) : Pc → Prop
  | .walk idx count =>
    ∃ l, Linked s.pool.next kNullIndex (s.pool.next idx) l ∧ count + 1 + l.length ≤ c.capacity
  | .counted n => n ≤ c.capacity
  | _ => True

omit [DecidableEq τ] in
theorem chained_walkLoop {l : List Nat} (hl : Linked s.pool.next kNullIndex idx l)
    (hlen : count + l.length ≤ c.capacity) : Chained c s (walkLoop c idx count) := by
  rcases walkLoop_cases c idx count with ⟨hne, -, he⟩ | ⟨-, he⟩ <;> rw [he]
  · obtain ⟨l', rfl, hl'⟩ := hl.exists_cons hne
    rw [List.length_cons] at hlen
    exact ⟨l', hl', by omega⟩
  · exact Nat.le_of_add_right_le hlen

omit [DecidableEq τ] in
theorem chained_of_not_inWalk {pc : Pc} (h : pc.inWalk = false) : Chained c s pc := by
  cases pc with
  | walk | counted => cases h
  | _ => trivial

omit [DecidableEq τ] in
/-- A walk stands on the links alone. -/
theorem chained_congr {pc : Pc} (hnext : s'.pool.next = s.pool.next) (h : Chained c s pc) : Chained c s' pc := by
  cases pc with
  | walk idx count =>
    obtain ⟨l, hl, hle⟩ := h
    rw [← hnext] at hl
    exact ⟨l, hl, hle⟩
  | _ => exact h

theorem chained_step {L : List Nat} (hfree : Free c s L) (ih : ∀ t, Chained c s (s.pc t))
    (hu : Undisturbed tr s a) (hs : step c s a = some (s', o)) (t : τ) : Chained c s' (s'.pc t) := by
  have hlen : L.length ≤ c.capacity := by
    rw [hfree.length_eq]
    exact Nat.sub_le _ _
  obtain ⟨-, -, -, hnext | ⟨t', p, old, rfl, hp⟩⟩ := step_pc hs
  · refine pc_of_step (fun _ => chained_of_not_inWalk) (fun _ _ => ?_) (fun t' idx count _ hp => ?_)
      (fun t _ => chained_congr hnext (ih t)) hs t
    · exact chained_congr hnext (chained_walkLoop hfree.chain (by omega))
    · have hold := ih t'
      rw [hp] at hold
      obtain ⟨l, hl, hle⟩ := hold
      exact chained_congr hnext (chained_walkLoop hl hle)
  · -- a link is stored: no thread walks, and the one that stores is in `release`
    refine pc_of_step (fun _ => chained_of_not_inWalk) (fun _ ha => ?_) (fun t'' idx count ha hw => ?_)
      (fun t _ => ?_) hs t
    · cases ha
    · exact absurd hw (hu p old hp t'' idx count)
    · have hold := ih t
      cases hw : s.pc t with
      | walk idx count => exact absurd hw (hu p old hp t idx count)
      | counted n =>
        rw [hw] at hold
        exact hold
      | _ => trivial

/-- When no link is stored during a walk, it counts at most the slots there are. -/
theorem chained_of_runs (h : (machine c).Runs (fun tr s a => Timely tr s a ∧ Undisturbed tr s a) tr s) (t : τ) :
    Chained c s (s.pc t) := by
  induction h generalizing t with
  | init => trivial
  | step h hok hs ih =>
    obtain ⟨L, hinv⟩ := inv_of_runs (h.mono fun _ _ _ _ _ hok _ => hok.1)
    exact chained_step hinv.toFree ih hok.2 hs t

/-- In every run `available` returns after at most `Capacity + 1` reads of links, whatever other threads do
between them. In every run in which no `release` stores a link while a walk is under way, and no thread's value
of `head_` is `2 ^ 48` successful CASes old at its CAS, it returns at most `Capacity`. -/
theorem available_bounded (c : Params) (tr : List (Event τ)) (s : State τ)
    (h : (machine c).Runs (fun tr s a => Timely tr s a ∧ Undisturbed tr s a) tr s) :
    (∀ (tr : List (Event τ)) (s : State τ), (machine c).Runs Machine.free tr s → ∀ t idx count acts s' o,
      s.pc t = .walk idx count → (machine c).exec s acts = some (s', o) →
      c.capacity < count + acts.countP (Act.isRun t) →
      ∃ n acts₁ acts₂ s₁ o₁, acts = acts₁ ++ acts₂ ∧ (machine c).exec s acts₁ = some (s₁, o₁) ∧
        s₁.pc t = .counted n) ∧
    ∀ t n, s.pc t = .counted n → n ≤ c.capacity := by
  refine ⟨?_, fun t n hn => ?_⟩
  · intro tr s hr t idx count acts s' o hp he hreads
    exact walk_returns hp (within_of_runs hr t idx count hp) he hreads
  · have hcount := chained_of_runs h t
    rw [hn] at hcount
    exact hcount

theorem timely_of_length (hlen : tr.length < 2 ^ 48) : Timely tr s a := by
  have hle (t : τ) : since t tr < 2 ^ 48 :=
    Nat.lt_of_le_of_lt (Nat.le_trans (since_le tr t) List.countP_le_length) hlen
  cases a with
  | run t =>
    simp only [Timely]
    split
    · exact hle t
    · exact hle t
    · trivial
  | acquire | release | available | spurious => trivial

/-- A test for `Undisturbed`, of two threads. -/
def undisturbedTest (s : State Bool) : Act Bool → Bool
  | .run t =>
    match s.pc t with
    | .relNext _ _ => !(s.pc false).inWalk && !(s.pc true).inWalk
    | _ => true
  | _ => true

theorem undisturbed_of_test {tr : List (Event Bool)} {s : State Bool} {a : Act Bool}
    (h : undisturbedTest s a = true) : Undisturbed tr s a := by
  cases a with
  | run t =>
    intro p old hp t' idx count hw
    simp only [undisturbedTest, hp, Bool.and_eq_true, Bool.not_eq_true'] at h
    cases t'
    · rw [hw] at h
      cases h.1
    · rw [hw] at h
      cases h.2
  | acquire | release | available | spurious => trivial

/-- Thread `true` takes both slots and gives them back before thread `false` counts, and takes one while it
does. -/
theorem available_bounded_one_taken : ∃ (tr : List (Event Bool)) (s : State Bool),
    (machine .two).Runs (fun tr s a => Timely tr s a ∧ Undisturbed tr s a) tr s ∧ casCount tr = 5 ∧
      s.held true = [8] ∧ s.pc false = .counted 2 ∧ 2 ≤ Params.two.capacity := by
  let M : Machine (State Bool) (Act Bool) (Event Bool) := machine .two
  let take : List (Act Bool) := [.acquire true, .run true, .run true, .run true]
  let acts : List (Act Bool) := take ++ take ++ [.release true 0, .run true, .run true,
    .release true 8, .run true, .run true, .available false, .run false] ++ take ++ [.run false]
  have hexec : ((M.restrict undisturbedTest).exec M.init acts).map
      (fun r => ((r.2.length, casCount r.2), r.1.held true, r.1.pc false)) =
      some ((11, 5), [8], .counted 2) := by
    decide +kernel
  obtain ⟨tr, s, hr, hend⟩ := Machine.Runs.exists_of_restrict Undisturbed (fun _ _ _ => undisturbed_of_test) hexec
  simp only [Prod.mk.injEq] at hend
  obtain ⟨⟨hlen, hcas⟩, hheld, hpc⟩ := hend
  have hrun : M.Runs (fun tr s a => Timely tr s a ∧ Undisturbed tr s a) tr s := by
    refine hr.mono_of (B := fun tr => tr.length < 2 ^ 48) (fun tr o hb => ?_)
      (fun tr s a s' o hb hu _ => ⟨timely_of_length ?_, hu⟩) (by rw [hlen]; decide)
    · rw [List.length_append] at hb
      omega
    · rw [List.length_append] at hb
      omega
  exact ⟨tr, s, hrun, hcas, hheld, hpc, (available_bounded .two tr s hrun).2 false 2 hpc⟩

/-- While thread 0 is between the two slots, thread 1 takes both and gives them back in the other order. -/
theorem available_overcounts : ∃ (tr : List (Event Nat)) (s : State Nat),
    (machine .two).Runs Machine.free tr s ∧ s.pc 0 = .counted 3 := by
  let M : Machine (State Nat) (Act Nat) (Event Nat) := machine .two
  let acts : List (Act Nat) := [.available 0, .run 0,
    .acquire 1, .run 1, .run 1, .run 1, .acquire 1, .run 1, .run 1, .run 1,
    .release 1 0, .run 1, .run 1, .release 1 8, .run 1, .run 1, .run 0, .run 0]
  have hexec : (M.exec M.init acts).map (fun r => r.1.pc 0) = some (.counted 3) := by decide +kernel
  obtain ⟨tr, s, hr, hpc⟩ := Machine.Runs.exists_of_exec hexec
  exact ⟨tr, s, hr, hpc⟩

end Lwipc.ObjectPool
