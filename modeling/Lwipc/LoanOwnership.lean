import Lwipc.LoanedSample
import Lwipc.PoolInv

/-!
# Who owns the slots of the pools

The abstract state is a map from slots to owners: the pool, a `LoanedSample` object, or the caller
of `release_raw`. A state of the program realises such a map (`Owns`), and every operation on loans
moves slots between owners: each slot has one owner throughout, and a slot is released only by its
owner to the pool it came from.
-/

namespace Lwipc.ObjectPool

variable {c : Params} {pool : Pool} {L : List Nat} {idx : Nat}

/-- `L` are the free slots of the pool, in the order in which `acquire` takes them. -/
structure Pool.FreeList (c : Params) (pool : Pool) (L : List Nat) : Prop where
  chain : Linked pool.next kNullIndex (indexOf pool.head) L
  lt : ∀ i ∈ L, i < c.capacity

theorem Pool.freeList_init (c : Params) : (Pool.init c).FreeList c (List.range' 0 c.capacity) :=
  ⟨(inv_init (τ := Unit) c).chain, (inv_init (τ := Unit) c).lt⟩

namespace Pool.FreeList

theorem acquire_nil (h : pool.FreeList c []) : pool.acquire c = (none, pool) := by
  unfold acquire
  exact if_pos h.chain

theorem acquire_cons (h : pool.FreeList c (idx :: L)) :
    ∃ pool', pool.acquire c = (some (c.ptr idx), pool') ∧ pool'.FreeList c L := by
  obtain ⟨hhead, hne, hchain⟩ := h.chain
  have hlt : ∀ i ∈ L, i < c.capacity := fun i hi => h.lt i (List.mem_cons_of_mem _ hi)
  refine ⟨⟨pack (pool.next idx) (u64 (tagOf pool.head + 1)), pool.next⟩, ?_, ?_, hlt⟩
  · unfold acquire
    rw [hhead, if_neg hne]
  · show Linked pool.next kNullIndex (indexOf (pack _ _)) L
    rw [indexOf_pack (start_lt hchain hlt)]
    exact hchain

theorem release (h : pool.FreeList c L) (hidx : idx < c.capacity) (hnot : idx ∉ L) :
    (pool.release c (c.ptr idx)).FreeList c (idx :: L) := by
  have hle := c.le
  unfold Pool.release
  rw [Params.indexOfPtr_ptr hidx]
  refine ⟨⟨indexOf_pack (by omega) _, ne_null_of_lt hidx, ?_⟩, ?_⟩
  · show Linked _ _ (Function.update pool.next idx (indexOf pool.head) idx) L
    rw [Function.update_self]
    exact h.chain.update hnot _
  · intro i hi
    rcases List.mem_cons.1 hi with rfl | hi
    · exact hidx
    · exact h.lt i hi

theorem availableLoop {fuel a k : Nat} (h : Linked pool.next kNullIndex a L) (hf : L.length < fuel) :
    pool.availableLoop fuel a k = k + L.length := by
  induction L generalizing fuel a k with
  | nil =>
    obtain rfl : a = kNullIndex := h
    obtain ⟨fuel, rfl⟩ := Nat.exists_eq_succ_of_ne_zero (Nat.ne_of_gt hf)
    unfold Pool.availableLoop
    exact if_pos rfl
  | cons x L ih =>
    obtain ⟨rfl, hne, h⟩ := h
    obtain ⟨fuel, rfl⟩ := Nat.exists_eq_succ_of_ne_zero (Nat.ne_zero_of_lt hf)
    rw [List.length_cons] at hf ⊢
    unfold Pool.availableLoop
    rw [if_neg hne, ih h (by omega)]
    omega

theorem length_le (h : pool.FreeList c L) : L.length ≤ c.capacity := by
  have hsub : L.toFinset ⊆ Finset.range c.capacity := fun i hi =>
    Finset.mem_range.2 (h.lt i (List.mem_toFinset.1 hi))
  simpa [List.toFinset_card_of_nodup h.chain.nodup] using Finset.card_le_card hsub

theorem available (h : pool.FreeList c L) : pool.available c = L.length := by
  have hle := h.length_le
  unfold Pool.available
  rw [availableLoop h.chain (by omega), Nat.zero_add]

end Pool.FreeList

/-! ### The accesses of a thread that runs alone -/

variable {τ : Type} [DecidableEq τ] {s : State τ} {t : τ}

theorem exec_run {pc : Pc} {s' s'' : State τ} {o o' : List (Event τ)} {as : List (Act τ)}
    (hp : s.pc t = pc) (hs : runStep c s t pc = some (s', o))
    (he : (machine c).exec s' as = some (s'', o')) :
    (machine c).exec s (.run t :: as) = some (s'', o ++ o') := by
  have hstep : (machine c).step s (.run t) = some (s', o) := by rw [← hs, ← hp]; rfl
  rw [Machine.exec_cons hstep, he]
  rfl

theorem exec_acquire (h : s.pc t = .idle) :
    ∃ n s' o, (machine c).exec s (.acquire t :: List.replicate n (.run t)) = some (s', o) ∧
      s'.pool = (s.pool.acquire c).2 ∧ s'.pc t = .idle ∧
      s'.held t = (s.pool.acquire c).1.toList ++ s.held t := by
  have hs : (machine c).step s (.acquire t) =
      some (s.setPc t (acqLoop s.pool.head), [.read t]) := by
    simp [machine, step, h]
  unfold Pool.acquire
  by_cases hnull : indexOf s.pool.head = kNullIndex
  · have hloop : (s.setPc t (acqLoop s.pool.head)).pc t = .acquired none :=
      (Function.update_self _ _ _).trans (if_pos hnull)
    have he := exec_run (c := c) hloop rfl (Machine.exec_nil _)
    refine ⟨1, _, _, by rw [List.replicate_one, Machine.exec_cons hs, he]; rfl, ?_, ?_, ?_⟩
    all_goals simp [hnull, State.setPc]
  · have hloop : (s.setPc t (acqLoop s.pool.head)).pc t = .acqNext s.pool.head :=
      (Function.update_self _ _ _).trans (if_neg hnull)
    have he := exec_run (c := c) hloop rfl <| exec_run (Function.update_self _ _ _) (if_pos rfl) <|
      exec_run (Function.update_self _ _ _) rfl (Machine.exec_nil _)
    refine ⟨3, _, _, by rw [Machine.exec_cons hs]; exact congrArg _ he, ?_, ?_, ?_⟩
    all_goals simp [hnull, State.setPc, State.setHead, State.setHeld]

theorem exec_release {p : Nat} (h : s.pc t = .idle) (hp : p ∈ s.held t) :
    ∃ s' o, (machine c).exec s [.release t p, .run t, .run t] = some (s', o) ∧
      s'.pool = s.pool.release c p ∧ s'.pc t = .idle ∧ s'.held t = (s.held t).erase p := by
  have hs : (machine c).step s (.release t p) =
      some ((s.setPc t (.relNext p s.pool.head)).setHeld t ((s.held t).erase p), [.read t]) := by
    simp [machine, step, h, hp]
  have hpc : ((s.setPc t (.relNext p s.pool.head)).setHeld t ((s.held t).erase p)).pc t =
      .relNext p s.pool.head := Function.update_self _ _ _
  have he := exec_run (c := c) hpc rfl <|
    exec_run (Function.update_self _ _ _) (if_pos rfl) (Machine.exec_nil _)
  refine ⟨_, _, by rw [Machine.exec_cons hs, he]; rfl, ?_, ?_, ?_⟩
  all_goals simp [State.setPc, State.setHead, State.setHeld, State.setNext, Pool.release]

end Lwipc.ObjectPool

namespace Lwipc.LoanedSample

open ObjectPool

variable {ι L T : Type} {cfg : Config ι} {s s' : State ι L T} {i : ι} {idx : Nat} {l other : L}

/-! ### Ownership -/

inductive Owner (L : Type)
  | pool
  | sample (l : L)
  | caller

/-- The owner of each slot, given by its publisher and its index. -/
abbrev Ownership (ι L : Type) := ι × Nat → Owner L

/-- The state realises the ownership `own`. -/
structure Owns (cfg : Config ι) (s : State ι L T) (own : Ownership ι L) : Prop where
  free : ∀ i, ∃ F, (s.pools i).FreeList (cfg.pool i) F ∧
    ∀ idx, idx < (cfg.pool i).capacity → (idx ∈ F ↔ own (i, idx) = .pool)
  shape : ∀ l x, s.samples l = some x →
    x = empty ∨ ∃ i idx, idx < (cfg.pool i).capacity ∧ x = cfg.sample i idx
  holds : ∀ l i idx, idx < (cfg.pool i).capacity → (s.Holds cfg l i idx ↔ own (i, idx) = .sample l)
  nodup : s.escaped.Nodup
  valid : ∀ p ∈ s.escaped, ∃ i idx, idx < (cfg.pool i).capacity ∧ p = ⟨i, (cfg.pool i).ptr idx⟩
  escaped : ∀ i idx, idx < (cfg.pool i).capacity →
    (⟨i, (cfg.pool i).ptr idx⟩ ∈ s.escaped ↔ own (i, idx) = .caller)

/-- Nothing is held: there is no object, or an empty one. -/
def Idle (x : Option (LoanedSample ι)) : Prop := x = none ∨ x = some empty

theorem ptr_inj {j : ι} {jdx : Nat}
    (h : (⟨i, (cfg.pool i).ptr idx⟩ : Ptr ι) = ⟨j, (cfg.pool j).ptr jdx⟩) : (i, idx) = (j, jdx) := by
  obtain ⟨rfl, h⟩ := Ptr.mk.inj h
  rw [Params.ptr_inj h]

theorem sample_inj {j : ι} {jdx : Nat} (h : cfg.sample i idx = cfg.sample j jdx) :
    (i, idx) = (j, jdx) := by
  unfold Config.sample at h
  exact ptr_inj (Option.some.inj (LoanedSample.mk.inj h).1)

theorem Idle.ne_sample {x : Option (LoanedSample ι)} (h : Idle x) : x ≠ some (cfg.sample i idx) := by
  rcases h with rfl | rfl <;> simp [empty, Config.sample]

variable {own : Ownership ι L}

theorem Owns.congr (h : Owns cfg s own) (hpools : s'.pools = s.pools)
    (hsamples : ∀ l, s'.samples l = s.samples l ∨ Idle (s.samples l) ∧ Idle (s'.samples l))
    (hesc : s'.escaped = s.escaped) : Owns cfg s' own := by
  refine ⟨by rw [hpools]; exact h.free, ?_, ?_, by rw [hesc]; exact h.nodup,
    by rw [hesc]; exact h.valid, by rw [hesc]; exact h.escaped⟩
  · intro l x hx
    rcases hsamples l with heq | ⟨-, hnone | hempty⟩
    · exact h.shape l x (heq ▸ hx)
    · rw [hnone] at hx; cases hx
    · rw [hempty] at hx
      exact .inl (Option.some.inj hx).symm
  · intro l i idx hlt
    rw [← h.holds l i idx hlt]
    unfold State.Holds
    rcases hsamples l with heq | ⟨hold, hnew⟩
    · rw [heq]
    · exact iff_of_false hnew.ne_sample hold.ne_sample

/-- A call of `ObjectPool::release` is legal: the pointer is to a slot of that pool, which is not
free. -/
def Legal (cfg : Config ι) (s : State ι L T) : Event ι T → Prop
  | .release i p => ∃ idx, idx < (cfg.pool i).capacity ∧ p = ⟨i, (cfg.pool i).ptr idx⟩ ∧
    ∀ F, Linked (s.pools i).next kNullIndex (indexOf (s.pools i).head) F → idx ∉ F
  | .push _ _ => True

theorem Owns.legal (h : Owns cfg s own) (hidx : idx < (cfg.pool i).capacity)
    (hown : own (i, idx) ≠ .pool) :
    Legal cfg s (.release i ⟨i, (cfg.pool i).ptr idx⟩ : Event ι T) := by
  obtain ⟨F, hF, hmem⟩ := h.free i
  refine ⟨idx, hidx, rfl, fun F' hF' h1 => hown ((hmem idx hidx).1 ?_)⟩
  rwa [hF.chain.unique hF']

variable [DecidableEq ι]

/-- Slot `(i, idx)` goes to `o`, every other slot stays with its owner. -/
theorem Owns.transfer {o : Owner L} (h : Owns cfg s own)
    (hidx : idx < (cfg.pool i).capacity)
    (hpools : ∀ j, j ≠ i → s'.pools j = s.pools j)
    (hpool : ∃ F, (s'.pools i).FreeList (cfg.pool i) F ∧ ∀ jdx, jdx < (cfg.pool i).capacity →
      (jdx ∈ F ↔ Function.update own (i, idx) o (i, jdx) = .pool))
    (hshape : ∀ l, s'.samples l = s.samples l ∨ Idle (s'.samples l) ∨
      s'.samples l = some (cfg.sample i idx))
    (hothers : ∀ l j jdx, (j, jdx) ≠ (i, idx) → (s'.Holds cfg l j jdx ↔ s.Holds cfg l j jdx))
    (hself : ∀ l, s'.Holds cfg l i idx ↔ o = .sample l)
    (hnodup : s'.escaped.Nodup)
    (hesc : ∀ p, p ≠ ⟨i, (cfg.pool i).ptr idx⟩ → (p ∈ s'.escaped ↔ p ∈ s.escaped))
    (hescaped : ⟨i, (cfg.pool i).ptr idx⟩ ∈ s'.escaped ↔ o = .caller) :
    Owns cfg s' (Function.update own (i, idx) o) := by
  refine ⟨?_, ?_, ?_, hnodup, ?_, ?_⟩
  · intro j
    by_cases hj : j = i
    · subst hj; exact hpool
    · rw [hpools j hj]
      obtain ⟨F, hF, hmem⟩ := h.free j
      refine ⟨F, hF, fun jdx hlt => ?_⟩
      rw [Function.update_of_ne (fun heq => hj (congrArg Prod.fst heq))]
      exact hmem jdx hlt
  · intro l x hx
    rcases hshape l with heq | (hnone | hempty) | heq
    · exact h.shape l x (heq ▸ hx)
    · rw [hnone] at hx; cases hx
    · rw [hempty] at hx
      exact .inl (Option.some.inj hx).symm
    · rw [heq] at hx
      exact .inr ⟨i, idx, hidx, (Option.some.inj hx).symm⟩
  · intro l j jdx hlt
    by_cases hk : (j, jdx) = (i, idx)
    · obtain ⟨rfl, rfl⟩ := Prod.mk.inj hk
      rw [Function.update_self]
      exact hself l
    · rw [Function.update_of_ne hk, hothers l j jdx hk]
      exact h.holds l j jdx hlt
  · intro p hp
    by_cases hk : p = ⟨i, (cfg.pool i).ptr idx⟩
    · exact ⟨i, idx, hidx, hk⟩
    · exact h.valid p ((hesc p hk).1 hp)
  · intro j jdx hlt
    by_cases hk : (j, jdx) = (i, idx)
    · obtain ⟨rfl, rfl⟩ := Prod.mk.inj hk
      rw [Function.update_self]
      exact hescaped
    · rw [Function.update_of_ne hk, hesc _ fun heq => hk (ptr_inj heq)]
      exact h.escaped j jdx hlt

/-! ### What each operation does to the ownership -/

theorem Owns.free_keep {o : Owner L} (h : Owns cfg s own) (hown : own (i, idx) ≠ .pool)
    (ho : o ≠ .pool) : ∃ F, (s.pools i).FreeList (cfg.pool i) F ∧
      ∀ jdx, jdx < (cfg.pool i).capacity →
        (jdx ∈ F ↔ Function.update own (i, idx) o (i, jdx) = .pool) := by
  obtain ⟨F, hF, hmem⟩ := h.free i
  refine ⟨F, hF, fun jdx hlt => ?_⟩
  by_cases hj : jdx = idx
  · subst hj
    rw [Function.update_self, hmem jdx hlt]
    exact iff_of_false hown ho
  · rw [Function.update_of_ne (fun heq => hj (congrArg Prod.snd heq))]
    exact hmem jdx hlt

theorem Owns.free_release (h : Owns cfg s own) (hidx : idx < (cfg.pool i).capacity)
    (hown : own (i, idx) ≠ .pool) :
    ∃ F, ((s.pools i).release (cfg.pool i) ((cfg.pool i).ptr idx)).FreeList (cfg.pool i) F ∧
      ∀ jdx, jdx < (cfg.pool i).capacity →
        (jdx ∈ F ↔ Function.update own (i, idx) .pool (i, jdx) = .pool) := by
  obtain ⟨F, hF, hmem⟩ := h.free i
  refine ⟨idx :: F, hF.release hidx fun h1 => hown ((hmem idx hidx).1 h1), fun jdx hlt => ?_⟩
  by_cases hj : jdx = idx
  · subst hj; simp
  · rw [Function.update_of_ne (fun heq => hj (congrArg Prod.snd heq)), List.mem_cons, hmem jdx hlt]
    simp [hj]

variable [DecidableEq L]

omit [DecidableEq ι] in
theorem holds_setSample {x : Option (LoanedSample ι)} {l' : L} :
    (s.setSample l x).Holds cfg l' i idx ↔
      l' = l ∧ x = some (cfg.sample i idx) ∨ l' ≠ l ∧ s.Holds cfg l' i idx := by
  unfold State.Holds State.setSample
  by_cases hl : l' = l
  · subst hl; simp
  · simp [hl]

omit [DecidableEq ι] in
theorem Owns.setIdle {x : Option (LoanedSample ι)} (h : Owns cfg s own) (hl : Idle (s.samples l))
    (hx : Idle x) : Owns cfg (s.setSample l x) own := by
  refine h.congr rfl (fun l' => ?_) rfl
  by_cases hne : l' = l
  · subst hne
    refine .inr ⟨hl, ?_⟩
    show Idle (Function.update s.samples l' x l')
    rwa [Function.update_self]
  · exact .inl (Function.update_of_ne hne _ _)

omit [DecidableEq ι] in
/-- Emptying the object that holds slot `(i, idx)` leaves nobody who holds it, and the holders of the
other slots as they are. -/
theorem Owns.clear (s' : State ι L T) (h : Owns cfg s own) (hidx : idx < (cfg.pool i).capacity)
    (hl : s.Holds cfg l i idx) (hs : s'.samples = Function.update s.samples l (some empty)) :
    (∀ l', s'.samples l' = s.samples l' ∨ Idle (s'.samples l') ∨
      s'.samples l' = some (cfg.sample i idx)) ∧
    (∀ l' j jdx, (j, jdx) ≠ (i, idx) → (s'.Holds cfg l' j jdx ↔ s.Holds cfg l' j jdx)) ∧
    ∀ l', ¬ s'.Holds cfg l' i idx := by
  have hempty : s'.samples l = some empty := by rw [hs, Function.update_self]
  have hkeep : ∀ l', l' ≠ l → s'.samples l' = s.samples l' := by
    intro l' hne
    rw [hs, Function.update_of_ne hne]
  have hnot : ∀ j jdx, ¬ s'.Holds cfg l j jdx := fun j jdx => Idle.ne_sample (.inr hempty)
  refine ⟨fun l' => ?_, fun l' j jdx hk => ?_, fun l' h1 => ?_⟩
  · by_cases hne : l' = l
    · subst hne; exact .inr (.inl (.inr hempty))
    · exact .inl (hkeep l' hne)
  · by_cases hne : l' = l
    · subst hne
      refine iff_of_false (hnot j jdx) fun h1 => hk ?_
      exact sample_inj (Option.some.inj (h1.symm.trans hl))
    · unfold State.Holds
      rw [hkeep l' hne]
  · by_cases hne : l' = l
    · subst hne; exact hnot i idx h1
    · unfold State.Holds at h1
      rw [hkeep l' hne] at h1
      have h2 := (h.holds l' i idx hidx).1 h1
      rw [(h.holds l i idx hidx).1 hl] at h2
      exact hne (Owner.sample.inj h2).symm

/-- `do_release` gives the slot, if there is one, back to its pool. -/
theorem Owns.doRelease {x : LoanedSample ι} (h : Owns cfg s own) (hl : s.samples l = some x) :
    (∃ own', Owns cfg (doRelease cfg s l x).1 own') ∧ (doRelease cfg s l x).1.samples l = some empty ∧
      (∀ l', l' ≠ l → (doRelease cfg s l x).1.samples l' = s.samples l') ∧
      ∀ e ∈ (doRelease cfg s l x).2, Legal cfg s e := by
  rcases h.shape l x hl with rfl | ⟨i, idx, hidx, rfl⟩
  · exact ⟨⟨own, h.setIdle (.inr hl) (.inr rfl)⟩, Function.update_self _ _ _,
      fun l' hne => Function.update_of_ne hne _ _, by simp [LoanedSample.doRelease, empty]⟩
  · have hown : own (i, idx) = .sample l := (h.holds l i idx hidx).1 hl
    have hesc : ⟨i, (cfg.pool i).ptr idx⟩ ∉ s.escaped := by
      rw [h.escaped i idx hidx, hown]; simp
    obtain ⟨hshape, hothers, hself⟩ :=
      h.clear (LoanedSample.doRelease cfg s l (cfg.sample i idx)).1 hidx hl rfl
    refine ⟨⟨Function.update own (i, idx) .pool, h.transfer hidx
      (fun j hj => Function.update_of_ne hj _ _) ?_ hshape hothers
      (fun l' => iff_of_false (hself l') (by simp)) h.nodup (fun _ _ => Iff.rfl)
      (iff_of_false hesc (by simp))⟩, Function.update_self _ _ _,
      fun l' hne => Function.update_of_ne hne _ _, ?_⟩
    · have hpool : (LoanedSample.doRelease cfg s l (cfg.sample i idx)).1.pools i =
          (s.pools i).release (cfg.pool i) ((cfg.pool i).ptr idx) := Function.update_self _ _ _
      rw [hpool]
      exact h.free_release hidx (by rw [hown]; simp)
    · intro e he
      obtain rfl : e = .release i ⟨i, (cfg.pool i).ptr idx⟩ := List.mem_singleton.1 he
      exact h.legal hidx (by rw [hown]; simp)

theorem Owns.move {y : LoanedSample ι} (h : Owns cfg s own) (hl : Idle (s.samples l))
    (hother : s.samples other = some y) (hne : l ≠ other) :
    ∃ own', Owns cfg ((s.setSample l (some y)).setSample other (some empty)) own' := by
  have hsamples : ∀ l', l' ≠ l → l' ≠ other →
      ((s.setSample l (some y)).setSample other (some empty)).samples l' = s.samples l' :=
    fun l' h1 h2 => (Function.update_of_ne h2 _ _).trans (Function.update_of_ne h1 _ _)
  have hempty : ((s.setSample l (some y)).setSample other (some empty)).samples other = some empty :=
    Function.update_self _ _ _
  have hmoved : ((s.setSample l (some y)).setSample other (some empty)).samples l = some y :=
    (Function.update_of_ne hne _ _).trans (Function.update_self _ _ _)
  rcases h.shape other y hother with rfl | ⟨i, idx, hidx, rfl⟩
  · refine ⟨own, h.congr rfl (fun l' => ?_) rfl⟩
    by_cases h2 : l' = other
    · rw [h2, hempty, hother]; exact .inl rfl
    by_cases h1 : l' = l
    · rw [h1, hmoved]; exact .inr ⟨hl, .inr rfl⟩
    · exact .inl (hsamples l' h1 h2)
  · have hown : own (i, idx) = .sample other := (h.holds other i idx hidx).1 hother
    have hesc : ⟨i, (cfg.pool i).ptr idx⟩ ∉ s.escaped := by
      rw [h.escaped i idx hidx, hown]; simp
    refine ⟨Function.update own (i, idx) (.sample l), h.transfer hidx (fun _ _ => rfl)
      (h.free_keep (by rw [hown]; simp) (by simp)) (fun l' => ?_) (fun l' j jdx hk => ?_) (fun l' => ?_)
      h.nodup (fun _ _ => Iff.rfl) (iff_of_false hesc (by simp))⟩
    · by_cases h2 : l' = other
      · rw [h2, hempty]; exact .inr (.inl (.inr rfl))
      by_cases h1 : l' = l
      · rw [h1, hmoved]; exact .inr (.inr rfl)
      · exact .inl (hsamples l' h1 h2)
    · rw [holds_setSample, holds_setSample]
      constructor
      · rintro (⟨-, h1⟩ | ⟨-, ⟨-, h1⟩ | ⟨-, h1⟩⟩)
        · exact absurd h1 (Idle.ne_sample (.inr rfl))
        · exact absurd (sample_inj (Option.some.inj h1)).symm hk
        · exact h1
      · intro h1
        refine .inr ⟨?_, .inr ⟨?_, h1⟩⟩
        · rintro rfl
          exact hk (sample_inj (Option.some.inj (h1.symm.trans hother)))
        · rintro rfl
          exact hl.ne_sample h1
    · rw [holds_setSample, holds_setSample]
      constructor
      · rintro (⟨-, h1⟩ | ⟨h2, ⟨rfl, -⟩ | ⟨-, h1⟩⟩)
        · exact absurd h1 (Idle.ne_sample (.inr rfl))
        · rfl
        · rw [(h.holds l' i idx hidx).1 h1] at hown
          exact absurd (Owner.sample.inj hown) h2
      · rintro h1
        obtain rfl := Owner.sample.inj h1
        exact .inr ⟨hne, .inl ⟨rfl, rfl⟩⟩

theorem Owns.loan (h : Owns cfg s own) (hl : s.samples l = none) :
    ∃ own', Owns cfg (loan cfg s i l) own' := by
  obtain ⟨F, hF, hmem⟩ := h.free i
  cases F with
  | nil =>
    refine ⟨own, h.congr ?_ (fun l' => ?_) ?_⟩
    all_goals unfold LoanedSample.loan; rw [hF.acquire_nil]
    · exact Function.update_eq_self _ _
    · by_cases hne : l' = l
      · subst hne
        exact .inr ⟨.inl hl, .inr (Function.update_self _ _ _)⟩
      · exact .inl (Function.update_of_ne hne _ _)
    · rfl
  | cons idx F =>
    have hidx := hF.lt idx (by simp)
    have hown : own (i, idx) = .pool := (hmem idx hidx).1 (by simp)
    have hesc : ⟨i, (cfg.pool i).ptr idx⟩ ∉ s.escaped := by
      rw [h.escaped i idx hidx, hown]; simp
    obtain ⟨pool, hacq, hF'⟩ := hF.acquire_cons
    unfold LoanedSample.loan
    rw [hacq]
    refine ⟨Function.update own (i, idx) (.sample l), h.transfer hidx
      (fun j hj => Function.update_of_ne hj _ _) ⟨F, ?_, fun jdx hlt => ?_⟩ (fun l' => ?_)
      (fun l' j jdx hk => ?_) (fun l' => ?_) h.nodup (fun _ _ => Iff.rfl)
      (iff_of_false hesc (by simp))⟩
    · show (Function.update s.pools i pool i).FreeList _ F
      rw [Function.update_self]
      exact hF'
    · by_cases hj : jdx = idx
      · subst hj
        rw [Function.update_self]
        exact iff_of_false (List.nodup_cons.1 hF.chain.nodup).1 (by simp)
      · rw [Function.update_of_ne (fun heq => hj (congrArg Prod.snd heq)), ← hmem jdx hlt]
        simp [hj]
    · by_cases hne : l' = l
      · subst hne
        exact .inr (.inr (Function.update_self _ _ _))
      · exact .inl (Function.update_of_ne hne _ _)
    · rw [holds_setSample]
      constructor
      · rintro (⟨-, h1⟩ | ⟨-, h1⟩)
        · exact absurd (sample_inj (Option.some.inj h1)).symm hk
        · exact h1
      · intro h1
        refine .inr ⟨?_, h1⟩
        rintro rfl
        exact Idle.ne_sample (.inl hl) h1
    · rw [holds_setSample]
      constructor
      · rintro (⟨rfl, -⟩ | ⟨-, h1⟩)
        · rfl
        · rw [(h.holds l' i idx hidx).1 h1] at hown
          cases hown
      · intro h1
        obtain rfl := Owner.sample.inj h1
        exact .inl ⟨rfl, rfl⟩

theorem Owns.releaseRaw {x : LoanedSample ι} (h : Owns cfg s own) (hl : s.samples l = some x) :
    ∃ own', Owns cfg
      (State.setSample { s with escaped := x.ptr.toList ++ s.escaped } l (some empty)) own' := by
  rcases h.shape l x hl with rfl | ⟨i, idx, hidx, rfl⟩
  · exact ⟨own, h.setIdle (.inr hl) (.inr rfl)⟩
  · have hown : own (i, idx) = .sample l := (h.holds l i idx hidx).1 hl
    have hesc : ⟨i, (cfg.pool i).ptr idx⟩ ∉ s.escaped := by
      rw [h.escaped i idx hidx, hown]; simp
    obtain ⟨hshape, hothers, hself⟩ := h.clear (State.setSample
      { s with escaped := (cfg.sample i idx).ptr.toList ++ s.escaped } l (some empty)) hidx hl rfl
    refine ⟨Function.update own (i, idx) .caller, h.transfer hidx (fun _ _ => rfl)
      (h.free_keep (by rw [hown]; simp) (by simp)) hshape hothers
      (fun l' => iff_of_false (hself l') (by simp)) (List.nodup_cons.2 ⟨hesc, h.nodup⟩)
      (fun p hp => ?_) ?_⟩
    · simp [State.setSample, Config.sample, hp]
    · simp [State.setSample, Config.sample]

omit [DecidableEq L] in
theorem Owns.giveBack {p : Ptr ι} (h : Owns cfg s own) (hp : p ∈ s.escaped) :
    (∃ own', Owns cfg (State.poolRelease cfg { s with escaped := s.escaped.erase p } p.pool p) own') ∧
      Legal cfg s (.release p.pool p : Event ι T) := by
  obtain ⟨i, idx, hidx, rfl⟩ := h.valid p hp
  have hown : own (i, idx) = .caller := (h.escaped i idx hidx).1 hp
  refine ⟨⟨Function.update own (i, idx) .pool, h.transfer hidx
    (fun j hj => Function.update_of_ne hj _ _) ?_ (fun _ => .inl rfl) (fun _ _ _ _ => Iff.rfl)
    (fun l => ?_) (h.nodup.erase _) (fun q hq => ?_) ?_⟩, h.legal hidx (by rw [hown]; simp)⟩
  · have hpool : (State.poolRelease cfg { s with escaped := s.escaped.erase ⟨i, (cfg.pool i).ptr idx⟩ }
        i ⟨i, (cfg.pool i).ptr idx⟩).pools i =
          (s.pools i).release (cfg.pool i) ((cfg.pool i).ptr idx) := Function.update_self _ _ _
    rw [hpool]
    exact h.free_release hidx (by rw [hown]; simp)
  · refine iff_of_false (fun h1 => ?_) (by simp)
    have h2 : s.Holds cfg l i idx := h1
    rw [(h.holds l i idx hidx).1 h2] at hown
    cases hown
  · exact List.mem_erase_of_ne hq
  · exact iff_of_false h.nodup.not_mem_erase (by simp)

/-! ### Runs -/

theorem Owns.step {a : Act ι L T} {o : List (Event ι T)} (h : Owns cfg s own)
    (hs : step cfg s a = some (s', o)) :
    (∃ own', Owns cfg s' own') ∧ ∀ e ∈ o, Legal cfg s e := by
  unfold LoanedSample.step at hs
  cases a with
  | loan i l =>
    obtain ⟨hl, hs⟩ := Option.ite_none_right_eq_some.1 hs
    cases hs
    exact ⟨h.loan hl, by simp⟩
  | construct l =>
    obtain ⟨hl, hs⟩ := Option.ite_none_right_eq_some.1 hs
    cases hs
    exact ⟨⟨own, h.setIdle (.inl hl) (.inr rfl)⟩, by simp⟩
  | moveConstruct l other =>
    obtain ⟨hl, hs⟩ := Option.ite_none_right_eq_some.1 hs
    obtain ⟨y, hy, heq⟩ := Option.map_eq_some_iff.1 hs
    cases heq
    refine ⟨h.move (.inl hl) hy ?_, by simp⟩
    rintro rfl
    rw [hl] at hy
    cases hy
  | moveAssign l other =>
    obtain ⟨x, hx, hs⟩ := Option.bind_eq_some_iff.1 hs
    obtain ⟨y, hy, heq⟩ := Option.map_eq_some_iff.1 hs
    by_cases hne : l = other
    · rw [if_pos hne] at heq
      cases heq
      exact ⟨⟨own, h⟩, by simp⟩
    · rw [if_neg hne] at heq
      cases heq
      obtain ⟨⟨own', h'⟩, hempty, hothers, hlegal⟩ := h.doRelease hx
      refine ⟨h'.move (.inr hempty) ?_ hne, hlegal⟩
      rw [hothers other (Ne.symm hne), hy]
  | reset l =>
    obtain ⟨x, hx, heq⟩ := Option.map_eq_some_iff.1 hs
    obtain ⟨hown, -, -, hlegal⟩ := h.doRelease hx
    rw [heq] at hown hlegal
    exact ⟨hown, hlegal⟩
  | destroy l =>
    obtain ⟨x, hx, heq⟩ := Option.map_eq_some_iff.1 hs
    cases heq
    obtain ⟨⟨own', h'⟩, hempty, -, hlegal⟩ := h.doRelease hx
    exact ⟨⟨own', h'.setIdle (.inr hempty) (.inl rfl)⟩, hlegal⟩
  | releaseRaw l =>
    obtain ⟨x, hx, heq⟩ := Option.map_eq_some_iff.1 hs
    cases heq
    exact ⟨h.releaseRaw hx, by simp⟩
  | giveBack p =>
    obtain ⟨hp, hs⟩ := Option.ite_none_right_eq_some.1 hs
    cases hs
    obtain ⟨hown, hlegal⟩ := h.giveBack hp
    refine ⟨hown, fun e he => ?_⟩
    rw [List.mem_singleton.1 he]
    exact hlegal
  | fill l item =>
    obtain ⟨x, hx, hs⟩ := Option.bind_eq_some_iff.1 hs
    obtain ⟨p, hp, heq⟩ := Option.map_eq_some_iff.1 hs
    cases heq
    exact ⟨⟨own, h.congr rfl (fun _ => .inl rfl) rfl⟩, by simp⟩
  | publish i l =>
    obtain ⟨x, hx, heq⟩ := Option.map_eq_some_iff.1 hs
    unfold publish at heq
    split at heq <;> cases heq
    · exact ⟨⟨own, h⟩, by simp⟩
    · have hpush : Owns cfg (push s i) own := h.congr rfl (fun _ => .inl rfl) rfl
      obtain ⟨hown, -, -, hlegal⟩ := hpush.doRelease hx
      refine ⟨hown, fun e he => ?_⟩
      rcases List.mem_cons.1 he with rfl | he
      · trivial
      -- the push has not touched the pools
      · have := hlegal e he
        cases e <;> exact this

omit [DecidableEq ι] [DecidableEq L] in
theorem owns_init [Inhabited T] : Owns cfg (init cfg : State ι L T) fun _ => .pool where
  free i := ⟨_, Pool.freeList_init (cfg.pool i), fun idx hlt => iff_of_true (by simpa using hlt) rfl⟩
  shape l x h := by cases h
  holds l i idx _ := iff_of_false (fun h => by cases h) (by simp)
  nodup := List.nodup_nil
  valid p hp := by cases hp
  escaped i idx _ := iff_of_false List.not_mem_nil (by simp)

theorem owns_of_runs [Inhabited T] {tr : List (Event ι T)}
    (h : (machine cfg).Runs Machine.free tr s) : ∃ own, Owns cfg s own := by
  refine h.invariant (I := fun _ s => ∃ own, Owns cfg s own) ⟨_, owns_init⟩ ?_
  rintro tr s a s' o ⟨own, hown⟩ - hs
  exact (hown.step hs).1

/-! ### Counting -/

open Classical in
omit [DecidableEq ι] [DecidableEq L] in
theorem card_owners (f : Nat → Owner L) (n : Nat) :
    ((Finset.range n).filter fun idx => f idx = .pool).card +
      ((Finset.range n).filter fun idx => ∃ l, f idx = .sample l).card +
        ((Finset.range n).filter fun idx => f idx = .caller).card = n := by
  induction n with
  | zero => simp
  | succ n ih =>
    rw [Finset.range_add_one, Finset.filter_insert, Finset.filter_insert, Finset.filter_insert]
    cases hf : f n <;> simp <;> omega

open Classical in
omit [DecidableEq L] in
theorem Owns.available_add (h : Owns cfg s own) (i : ι) :
    (s.pools i).available (cfg.pool i) + (s.loans i).ncard +
      (s.escaped.filter fun p => p.pool = i).length = (cfg.pool i).capacity := by
  obtain ⟨F, hF, hmem⟩ := h.free i
  have hinj : Function.Injective fun idx => (⟨i, (cfg.pool i).ptr idx⟩ : Ptr ι) :=
    fun a b heq => congrArg Prod.snd (ptr_inj heq)
  have hfree : (s.pools i).available (cfg.pool i) =
      ((Finset.range (cfg.pool i).capacity).filter fun idx => own (i, idx) = .pool).card := by
    rw [hF.available, ← List.toFinset_card_of_nodup hF.chain.nodup]
    congr 1
    ext idx
    rw [List.mem_toFinset, Finset.mem_filter, Finset.mem_range]
    exact ⟨fun h1 => ⟨hF.lt idx h1, (hmem idx (hF.lt idx h1)).1 h1⟩, fun h1 => (hmem idx h1.1).2 h1.2⟩
  have hescaped : (s.escaped.filter fun p => p.pool = i).length =
      ((Finset.range (cfg.pool i).capacity).filter fun idx => own (i, idx) = .caller).card := by
    rw [← List.toFinset_card_of_nodup (h.nodup.filter _), ← Finset.card_image_of_injective _ hinj]
    congr 1
    ext p
    simp only [List.mem_toFinset, List.mem_filter, decide_eq_true_eq, Finset.mem_image, Finset.mem_filter,
      Finset.mem_range]
    constructor
    · rintro ⟨hp, rfl⟩
      obtain ⟨j, idx, hlt, rfl⟩ := h.valid p hp
      exact ⟨idx, ⟨hlt, (h.escaped j idx hlt).1 hp⟩, rfl⟩
    · rintro ⟨idx, ⟨hlt, hown⟩, rfl⟩
      exact ⟨(h.escaped i idx hlt).2 hown, rfl⟩
  have hloans : (s.loans i).ncard = ((Finset.range (cfg.pool i).capacity).filter
      fun idx => ∃ l, own (i, idx) = .sample l).card := by
    -- a loan determines its slot and a slot its loan
    have himage : Owner.sample '' s.loans i = (fun idx => own (i, idx)) ''
        ↑((Finset.range (cfg.pool i).capacity).filter fun idx => ∃ l, own (i, idx) = .sample l) := by
      ext o
      simp only [Set.mem_image, Finset.coe_filter, Finset.mem_range, Set.mem_ofPred_eq]
      constructor
      · rintro ⟨l, ⟨x, p, hx, hp, rfl⟩, rfl⟩
        rcases h.shape l x hx with rfl | ⟨j, idx, hlt, rfl⟩
        · cases hp
        · obtain rfl := Option.some.inj hp
          have hown := (h.holds l j idx hlt).1 hx
          exact ⟨idx, ⟨hlt, l, hown⟩, hown⟩
      · rintro ⟨idx, ⟨hlt, l, hown⟩, rfl⟩
        exact ⟨l, ⟨_, _, (h.holds l i idx hlt).2 hown, rfl, rfl⟩, hown.symm⟩
    rw [← Set.ncard_image_of_injective _ fun _ _ => Owner.sample.inj, himage, Set.InjOn.ncard_image,
      Set.ncard_coe_finset]
    intro a ha b hb heq
    simp only [Finset.coe_filter, Finset.mem_range, Set.mem_ofPred_eq] at ha hb heq
    obtain ⟨ha, l, hl⟩ := ha
    have h1 := (h.holds l i a ha).2 hl
    have h2 := (h.holds l i b hb.1).2 (heq ▸ hl)
    exact congrArg Prod.snd (sample_inj (Option.some.inj (h1.symm.trans h2)))
  rw [hfree, hloans, hescaped]
  exact card_owners _ _

/-- After any sequence of operations on loans, of whatever publishers: the free list of each pool
visits distinct slots, and each slot is on it, or held by exactly one `LoanedSample` object, or
escaped exactly once, and not two of these; every non-empty object and every escaped pointer is of a
slot; no operation calls `ObjectPool::release` for a slot that is free or with a pointer into another
pool; and the free slots, the non-empty loans and the escaped pointers of a pool make up its
capacity. -/
theorem loans_exclusive_and_conserved [Inhabited T] (cfg : Config ι) (tr : List (Event ι T))
    (s : State ι L T) (h : (machine cfg).Runs Machine.free tr s) :
    (∃ F : ι → List Nat,
      (∀ i, Linked (s.pools i).next kNullIndex (indexOf (s.pools i).head) (F i)) ∧
      (∀ i, (F i).Nodup ∧ ∀ idx ∈ F i, idx < (cfg.pool i).capacity) ∧
      ∀ i idx, idx < (cfg.pool i).capacity →
        idx ∈ F i ∧ (∀ l, ¬ s.Holds cfg l i idx) ∧ ⟨i, (cfg.pool i).ptr idx⟩ ∉ s.escaped ∨
        idx ∉ F i ∧ (∃! l, s.Holds cfg l i idx) ∧ ⟨i, (cfg.pool i).ptr idx⟩ ∉ s.escaped ∨
        idx ∉ F i ∧ (∀ l, ¬ s.Holds cfg l i idx) ∧
          s.escaped.count ⟨i, (cfg.pool i).ptr idx⟩ = 1) ∧
    (∀ l x p, s.samples l = some x → x.ptr = some p →
      ∃ i idx, idx < (cfg.pool i).capacity ∧ s.Holds cfg l i idx) ∧
    (∀ p ∈ s.escaped, ∃ i idx, idx < (cfg.pool i).capacity ∧ p = ⟨i, (cfg.pool i).ptr idx⟩) ∧
    (∀ a s' o, (machine cfg).step s a = some (s', o) → ∀ e ∈ o, Legal cfg s e) ∧
    ∀ i, (s.pools i).available (cfg.pool i) + (s.loans i).ncard +
      (s.escaped.filter fun p => p.pool = i).length = (cfg.pool i).capacity := by
  obtain ⟨own, hown⟩ := owns_of_runs h
  choose F hF hmem using hown.free
  refine ⟨⟨F, fun i => (hF i).chain, fun i => ⟨(hF i).chain.nodup, (hF i).lt⟩, fun i idx hlt => ?_⟩,
    fun l x p hx hp => ?_, hown.valid, fun a s' o hs => (hown.step hs).2, hown.available_add⟩
  · rw [hmem i idx hlt, hown.escaped i idx hlt]
    have hholds : ∀ l, s.Holds cfg l i idx ↔ own (i, idx) = .sample l :=
      fun l => hown.holds l i idx hlt
    cases ho : own (i, idx) with
    | pool => exact .inl ⟨rfl, by simp [hholds, ho], by simp⟩
    | sample l =>
      refine .inr (.inl ⟨by simp, ⟨l, (hholds l).2 ho, fun l' hl' => ?_⟩, by simp⟩)
      have h1 := (hholds l').1 hl'
      rw [ho] at h1
      exact (Owner.sample.inj h1).symm
    | caller =>
      refine .inr (.inr ⟨by simp, by simp [hholds, ho], ?_⟩)
      exact List.count_eq_one_of_mem hown.nodup ((hown.escaped i idx hlt).2 ho)
  · rcases hown.shape l x hx with rfl | ⟨i, idx, hlt, rfl⟩
    · cases hp
    · exact ⟨i, idx, hlt, hx⟩

/-- A loan of publisher `true` is published on publisher `false`, another one moved onto it, onto
itself, and released raw; a third one is moved to a new object, which is the one that holds the slot
of the first. -/
theorem loans_exclusive_and_conserved_foreign :
    ∃ (cfg : Config Bool) (tr : List (Event Bool Nat)) (s : State Bool Nat Nat),
      (machine cfg).Runs Machine.free tr s ∧ s.escaped = [⟨true, 8⟩] ∧ s.Holds cfg 3 true 0 ∧
      (∀ a s' o, (machine cfg).step s a = some (s', o) → ∀ e ∈ o, Legal cfg s e) ∧
      (s.pools true).available (cfg.pool true) + (s.loans true).ncard + 1 = 2 := by
  let cfg : Config Bool := ⟨fun _ => .publisher, fun _ => .two⟩
  let M : Machine (State Bool Nat Nat) (Act Bool Nat Nat) (Event Bool Nat) := machine cfg
  let acts : List (Act Bool Nat Nat) :=
    [.loan true 0, .loan true 1, .fill 0 7, .publish false 0, .moveAssign 0 1, .moveAssign 0 0,
      .releaseRaw 0, .loan true 2, .moveConstruct 3 2, .destroy 2, .publish true 0]
  have hexec : (M.exec M.init acts).map (fun r => (r.1.escaped, r.1.samples 3)) =
      some ([⟨true, 8⟩], some (cfg.sample true 0)) := by decide +kernel
  obtain ⟨tr, s, hr, hend⟩ := Machine.Runs.exists_of_exec hexec
  simp only [Prod.mk.injEq] at hend
  obtain ⟨hesc, hholds⟩ := hend
  obtain ⟨-, -, -, hlegal, hcount⟩ := loans_exclusive_and_conserved cfg tr s hr
  have h2 := hcount true
  rw [hesc] at h2
  exact ⟨cfg, tr, s, hr, hesc, hholds, hlegal, h2⟩

end Lwipc.LoanedSample
