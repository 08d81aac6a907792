import Lwipc.PoolAvailable
import Lwipc.Lib.Linearizable

/-!
# `ObjectPool` is a linearizable stack of free slots

`acquire` takes the slot on top and `release` puts its slot there, each at its successful CAS; `acquire`
finds the stack empty at the read of a head without an index, and then it is empty. `available` takes
effect at its last read of a link: it has counted the stack if nobody has taken or released a slot since it
read the head, and otherwise nothing is known but the bound of its loop.
-/

namespace Lwipc.ObjectPool

variable {τ : Type}

inductive Op
  | acquire
  | release (p : Nat)
  | available
  deriving DecidableEq

inductive Res
  | acquired (p : Option Nat)
  | released
  | counted (n : Nat)
  deriving DecidableEq

/-- The free slots, the last one released first. -/
def freeStack (c : Params) : Object (List Nat) Op Res where
  init := List.range' 0 c.capacity
  Outcome v op r L :=
    match op, r with
    | .acquire, .acquired (some p) => ∃ i, v.now = i :: L ∧ p = c.ptr i
    | .acquire, .acquired none => v.now = [] ∧ L = []
    | .release p, .released => ∃ i, i < c.capacity ∧ i ∉ v.now ∧ p = c.ptr i ∧ L = i :: v.now
    | .available, .counted n => L = v.now ∧ n ≤ c.capacity + 1 ∧ (v.quiet → n = v.now.length)
    | _, _ => False

/-- The calls and returns of a step. -/
def history (s : State τ) (a : Act τ) (s' : State τ) : List (Hist τ Op Res) :=
  match a with
  | .acquire t => [.call t .acquire]
  | .release t p => [.call t (.release p)]
  | .available t => [.call t .available]
  | .run t =>
    match s.pc t, s'.pc t with
    | .acquired p, _ => [.ret t (.acquired p)]
    | .relCas _ _, .idle => [.ret t .released]
    | .counted n, _ => [.ret t (.counted n)]
    | _, _ => []
  | .spurious _ => []

/-! ### The simulation -/

/-- How far the stack `L` has got with the call of a thread. -/
def StatusOk (s : State τ) (L : List Nat) : Pc → Status Op Res → Prop
  | .idle, st => st = .idle
  | .acqNext _, st | .acqCas _ _, st => ∃ q, st = .pending .acquire q
  | .acquired p, st => st = .done .acquire (.acquired p)
  | .relNext p _, st | .relCas p _, st => ∃ q, st = .pending (.release p) q
  | .walk idx count, st =>
    -- of an undisturbed walk: what it has counted and what is left are the stack
    idx ≠ kNullIndex ∧ ∃ q, st = .pending .available q ∧
      (q → ∃ l₁ l₂, L = l₁ ++ l₂ ∧ l₁.length = count ∧ Linked s.pool.next kNullIndex idx l₂)
  | .counted n, st => st = .done .available (.counted n)

/-- The pool `s` stands for the stack `x`. -/
structure Sim (s : State τ) (x : Object.State τ (List Nat) Op Res) : Prop where
  now : Linked s.pool.next kNullIndex (indexOf s.pool.head) x.now
  status : ∀ t, StatusOk s x.now (s.pc t) (x.status t)

variable {c : Params} {tr o : List (Event τ)} {s s' : State τ} {t : τ} {a : Act τ} {L L' : List Nat}
  {pc : Pc} {st : Status Op Res} {x : Object.State τ (List Nat) Op Res}

/-- Another thread moves on: the stack may have changed under this call. -/
theorem StatusOk.after {same : Prop} (h : StatusOk s L pc st) (hL : same → L' = L)
    (hnext : same → ∀ i ∈ L, s'.pool.next i = s.pool.next i) : StatusOk s' L' pc (st.after same) := by
  cases pc with
  | walk idx count =>
    obtain ⟨hidx, q, rfl, hw⟩ := h
    refine ⟨hidx, _, rfl, ?_⟩
    rintro ⟨hq, hs⟩
    obtain ⟨l₁, l₂, hl, hlen, hlink⟩ := hw hq
    refine ⟨l₁, l₂, by rw [hL hs, hl], hlen, hlink.congr fun i hi => hnext hs i ?_⟩
    rw [hl]
    exact List.mem_append_right l₁ hi
  | acqNext | acqCas | relNext | relCas =>
    obtain ⟨q, rfl⟩ := h
    exact ⟨_, rfl⟩
  | idle | acquired | counted =>
    obtain rfl := h
    rfl

variable [DecidableEq τ]

/-- A step of `t` that leaves the stack as it is. -/
theorem Sim.setPc (h : Sim s x) (hhead : s'.pool.head = s.pool.head)
    (hnext : ∀ i ∈ x.now, s'.pool.next i = s.pool.next i) (hpc : s'.pc = Function.update s.pc t pc)
    (hst : StatusOk s' x.now pc st) : Sim s' (x.set t st) := by
  refine ⟨by rw [hhead]; exact h.now.congr hnext, fun t' => ?_⟩
  rw [hpc]
  by_cases ht : t' = t
  · subst ht
    rw [Function.update_self, Object.State.set_status_self]
    exact hst
  · rw [Function.update_of_ne ht, Object.State.set_status_of_ne x st ht]
    have hok : StatusOk s' x.now (s.pc t') ((x.status t').after True) :=
      (h.status t').after (fun _ => rfl) fun _ => hnext
    rwa [Status.after_of trivial] at hok

/-- The stack does nothing. -/
theorem Sim.silent (h : Sim s x) (hhead : s'.pool.head = s.pool.head)
    (hnext : ∀ i ∈ x.now, s'.pool.next i = s.pool.next i) (hpc : s'.pc = Function.update s.pc t pc)
    (hst : StatusOk s' x.now pc (x.status t)) : Sim s' x := by
  rw [← Object.State.set_of_status (c := x) (i := t) rfl]
  exact h.setPc hhead hnext hpc hst

/-- A successful CAS of `t`. -/
theorem Sim.cas {op : Op} {r : Res} (h : Sim s x)
    (hlink : Linked s'.pool.next kNullIndex (indexOf s'.pool.head) L) (hne : L ≠ x.now)
    (hpc : s'.pc = Function.update s.pc t pc) (hst : StatusOk s' L pc st) :
    Sim s' ((x.effect t op r L).set t st) := by
  refine ⟨hlink, fun t' => ?_⟩
  rw [hpc]
  by_cases ht : t' = t
  · subst ht
    rw [Function.update_self, Object.State.set_status_self]
    exact hst
  · rw [Function.update_of_ne ht, Object.State.set_status_of_ne _ _ ht,
      Object.State.effect_status_of_ne x op r L ht]
    exact (h.status t').after (fun heq => absurd heq hne) fun heq => absurd heq hne

/-! ### Steps -/

variable {H : List (Hist τ Op Res)} {q : Prop}

/-- A fresh value of the head: an empty stack is seen at once. -/
theorem Sim.readHead (h : Sim s x) (hx : (freeStack c).Runs H (x.set t (.pending .acquire q))) :
    ∃ x', (freeStack c).Runs H x' ∧ Sim (s.setPc t (acqLoop s.pool.head)) x' := by
  unfold acqLoop
  split
  · rename_i hnull
    have hnow := h.now
    rw [hnull] at hnow
    have hempty := hnow.eq_nil
    have hnone := hx.observe (r := Res.acquired none) ⟨hempty, hempty⟩
    exact ⟨_, hnone, h.setPc rfl (fun _ _ => rfl) rfl rfl⟩
  · exact ⟨_, hx, h.setPc rfl (fun _ _ => rfl) rfl ⟨q, rfl⟩⟩

/-- The loop test of `available`, with `count` slots counted. -/
theorem Sim.count {idx count : Nat} (h : Sim s x)
    (hx : (freeStack c).Runs H (x.set t (.pending .available q))) (hlen : x.now.length ≤ c.capacity)
    (hcount : count ≤ c.capacity + 1)
    (hq : q → ∃ l₁ l₂, x.now = l₁ ++ l₂ ∧ l₁.length = count ∧ Linked s.pool.next kNullIndex idx l₂) :
    ∃ x', (freeStack c).Runs H x' ∧ Sim (s.setPc t (walkLoop c idx count)) x' := by
  rcases walkLoop_cases c idx count with ⟨hidx, -, hw⟩ | ⟨hend, hw⟩ <;> rw [hw]
  · exact ⟨_, hx, h.setPc rfl (fun _ _ => rfl) rfl ⟨hidx, q, rfl, hq⟩⟩
  · have hcounted := hx.observe (r := Res.counted count) ⟨rfl, hcount, fun hquiet => ?_⟩
    · exact ⟨_, hcounted, h.setPc rfl (fun _ _ => rfl) rfl rfl⟩
    · obtain ⟨l₁, l₂, hl, rfl, hlink⟩ := hq hquiet
      show l₁.length = x.now.length
      rw [hl, List.length_append] at hlen
      rcases hend with rfl | hgt
      · rw [hl, hlink.eq_nil, List.append_nil]
      · omega

omit [DecidableEq τ] in
theorem Free.length_le (h : Free c s L) : L.length ≤ c.capacity := by
  have := h.length_eq
  omega

/-- The CAS of `acquire` takes the slot on top. -/
theorem Sim.acquire {nxt : Nat} (h : Sim s x) (hinv : Inv c tr s x.now) (hx : (freeStack c).Runs H x)
    (hp : s.pc t = .acqCas s.pool.head nxt) (ht : since t tr < 2 ^ 48) :
    ∃ x', (freeStack c).Runs H x' ∧
      Sim ((s.setHead (pack nxt (u64 (tagOf s.pool.head + 1)))).setPc t
        (.acquired (some (c.ptr (indexOf s.pool.head))))) x' := by
  obtain ⟨hseen, hlt, hnxt⟩ : PcOk c tr s t (.acqCas s.pool.head nxt) := hp ▸ hinv.pc t
  obtain ⟨q, hq⟩ : StatusOk s x.now (.acqCas s.pool.head nxt) (x.status t) := hp ▸ h.status t
  obtain ⟨L, hL, hlink⟩ := h.now.exists_cons (ne_null_of_lt hlt)
  obtain rfl := hnxt (hseen.since_eq_zero hinv.tag ht)
  have hidx := start_lt hlink fun i hi => hinv.lt i (by rw [hL]; exact List.mem_cons_of_mem _ hi)
  have heff := hx.effect (Res.acquired (some (c.ptr (indexOf s.pool.head)))) L hq ⟨_, hL, rfl⟩
  have hne : L ≠ x.now := by
    rw [hL]
    exact (List.cons_ne_self _ _).symm
  rw [← Object.State.set_of_status (x.effect_status_self t _ _ L)] at heff
  refine ⟨_, heff, h.cas ?_ hne rfl rfl⟩
  rw [State.setPc_head, State.setHead_head, indexOf_pack hidx]
  exact hlink

/-- The CAS of `release` puts its slot on top, and is its last access. -/
theorem Sim.release {p : Nat} (h : Sim s x) (hinv : Inv c tr s x.now) (hx : (freeStack c).Runs H x)
    (hp : s.pc t = .relCas p s.pool.head) :
    ∃ x', (freeStack c).Runs (H ++ [.ret t .released]) x' ∧
      Sim ((s.setHead (pack (c.indexOfPtr p) (u64 (tagOf s.pool.head + 1)))).setPc t .idle) x' := by
  obtain ⟨-, hnext⟩ : PcOk c tr s t (.relCas p s.pool.head) := hp ▸ hinv.pc t
  obtain ⟨q, hq⟩ : StatusOk s x.now (.relCas p s.pool.head) (x.status t) := hp ▸ h.status t
  have hmine : p ∈ s.owned t := mem_owned_of_ptr (by rw [hp]; rfl)
  obtain ⟨i, hi, rfl⟩ := hinv.valid t p hmine
  have hfree : i ∉ x.now := fun hmem => hinv.free i hmem ⟨t, hmine⟩
  rw [Params.indexOfPtr_ptr hi] at hnext ⊢
  have hcap := c.le
  have heff := hx.effect Res.released (i :: x.now) hq ⟨i, hi, hfree, rfl, rfl⟩
  have hret := heff.ret (x.effect_status_self t _ _ _)
  refine ⟨_, hret, h.cas ?_ (List.cons_ne_self i x.now) rfl rfl⟩
  rw [State.setPc_head, State.setHead_head, indexOf_pack (by omega)]
  refine ⟨rfl, ne_null_of_lt hi, ?_⟩
  show Linked s.pool.next _ (s.pool.next i) x.now
  rw [hnext]
  exact h.now

theorem Sim.walk {idx count : Nat} (h : Sim s x) (hinv : Inv c tr s x.now)
    (hrun : (machine c).Runs Timely tr s) (hx : (freeStack c).Runs H x) (hp : s.pc t = .walk idx count) :
    ∃ x', (freeStack c).Runs H x' ∧ Sim (s.setPc t (walkLoop c (s.pool.next idx) (count + 1))) x' := by
  obtain ⟨hidx, q, hq, hw⟩ : StatusOk s x.now (.walk idx count) (x.status t) := hp ▸ h.status t
  have hcount := within_of_runs (hrun.mono fun _ _ _ _ _ _ _ => trivial) t idx count hp
  rw [← Object.State.set_of_status hq] at hx
  refine h.count hx hinv.length_le (by omega) fun hquiet => ?_
  obtain ⟨l₁, l₂, hl, rfl, hlink⟩ := hw hquiet
  obtain ⟨l, rfl, hrest⟩ := hlink.exists_cons hidx
  exact ⟨l₁ ++ [idx], l, by rw [hl]; simp, by simp, hrest⟩

theorem Sim.run (h : Sim s x) (hinv : Inv c tr s x.now) (hrun : (machine c).Runs Timely tr s)
    (hx : (freeStack c).Runs H x) (ht : Timely tr s (.run t))
    (hs : runStep c s t (s.pc t) = some (s', o)) :
    ∃ x', (freeStack c).Runs (H ++ history s (.run t) s') x' ∧ Sim s' x' := by
  have hst := h.status t
  rcases hp : s.pc t with _ | old | ⟨old, nxt⟩ | p | ⟨p, old⟩ | ⟨p, old⟩ | ⟨idx, count⟩ | n <;>
    rw [hp] at hs hst <;> simp only [runStep] at hs
  case idle => cases hs
  case acqNext =>
    cases hs
    refine ⟨x, by simpa [history, hp] using hx, h.silent rfl (fun _ _ => rfl) rfl hst⟩
  case acqCas =>
    split at hs <;> cases hs
    · rename_i heq
      subst heq
      simp only [Timely, hp] at ht
      obtain ⟨x', hx', hsim⟩ := h.acquire hinv hx hp ht
      exact ⟨x', by simpa [history, hp] using hx', hsim⟩
    · obtain ⟨q, hq⟩ := hst
      rw [← Object.State.set_of_status hq] at hx
      obtain ⟨x', hx', hsim⟩ := h.readHead hx
      exact ⟨x', by simpa [history, hp] using hx', hsim⟩
  case acquired =>
    have hret := hx.ret hst
    cases p <;> cases hs <;>
      exact ⟨_, by simpa [history, hp] using hret, h.setPc rfl (fun _ _ => rfl) rfl rfl⟩
  case relNext =>
    cases hs
    refine ⟨x, by simpa [history, hp] using hx, h.silent rfl (fun i hi => ?_) rfl hst⟩
    -- the link that is written belongs to a slot of the thread's own
    have hmine : p ∈ s.owned t := mem_owned_of_ptr (by rw [hp]; rfl)
    obtain ⟨j, hj, rfl⟩ := hinv.valid t p hmine
    refine Function.update_of_ne ?_ _ _
    rintro rfl
    rw [Params.indexOfPtr_ptr hj] at hi
    exact hinv.free j hi ⟨t, hmine⟩
  case relCas =>
    split at hs <;> cases hs
    · rename_i heq
      subst heq
      obtain ⟨x', hx', hsim⟩ := h.release hinv hx hp
      exact ⟨x', by simpa [history, hp, State.setPc] using hx', hsim⟩
    · refine ⟨x, ?_, h.silent rfl (fun _ _ => rfl) rfl hst⟩
      simpa [history, hp, State.setPc] using hx
  case walk =>
    cases hs
    obtain ⟨x', hx', hsim⟩ := h.walk hinv hrun hx hp
    exact ⟨x', by simpa [history, hp] using hx', hsim⟩
  case counted =>
    have hret := hx.ret hst
    cases hs
    exact ⟨_, by simpa [history, hp] using hret, h.setPc rfl (fun _ _ => rfl) rfl rfl⟩

theorem Sim.step (h : Sim s x) (hrun : (machine c).Runs Timely tr s) (hx : (freeStack c).Runs H x)
    (ht : Timely tr s a) (hs : step c s a = some (s', o)) :
    ∃ x', (freeStack c).Runs (H ++ history s a s') x' ∧ Sim s' x' := by
  obtain ⟨L, hinv⟩ := inv_of_runs hrun
  obtain rfl := hinv.chain.unique h.now
  cases a with
  | acquire t =>
    have hst := h.status t
    simp only [ObjectPool.step] at hs
    split at hs <;> cases hs
    rename_i hp
    rw [hp] at hst
    exact h.readHead (hx.call t Op.acquire hst)
  | release t p =>
    have hst := h.status t
    simp only [ObjectPool.step] at hs
    split at hs
    · rename_i hp
      rw [hp] at hst
      split at hs <;> cases hs
      exact ⟨_, hx.call t (Op.release p) hst, h.setPc rfl (fun _ _ => rfl) rfl ⟨True, rfl⟩⟩
    · cases hs
  | available t =>
    have hst := h.status t
    simp only [ObjectPool.step] at hs
    split at hs <;> cases hs
    rename_i hp
    rw [hp] at hst
    exact h.count (hx.call t Op.available hst) hinv.length_le (by omega)
      fun _ => ⟨[], x.now, rfl, rfl, h.now⟩
  | run t => exact h.run hinv hrun hx ht hs
  | spurious t =>
    have hst := h.status t
    simp only [ObjectPool.step] at hs
    split at hs <;> cases hs
    · rename_i hp
      rw [hp] at hst
      obtain ⟨q, hq⟩ := hst
      rw [← Object.State.set_of_status hq] at hx
      obtain ⟨x', hx', hsim⟩ := h.readHead hx
      exact ⟨x', by simpa [history] using hx', hsim⟩
    · rename_i hp
      rw [hp] at hst
      exact ⟨x, by simpa [history] using hx, h.silent rfl (fun _ _ => rfl) rfl hst⟩

/-- In every run of any number of threads in which no thread's value of `head_` is `2 ^ 48` successful CASes
old at its CAS: the calls and returns are those of a stack of free slots on which every call takes effect
at one instant between its call and its return. -/
theorem linearizable_freeStack (c : Params) (tr : List (Event τ)) (H : List (Hist τ Op Res)) (s : State τ)
    (h : (machine c).Observed Timely history tr H s) : (freeStack c).Linearizable H := by
  have hsim : ∃ x, (freeStack c).Runs H x ∧ Sim s x := by
    refine h.simulation (R := fun _ => Sim) (B := fun _ => True) (fun _ _ _ => trivial) ?_ ?_ trivial
    · exact ⟨(inv_init c).chain, fun _ => rfl⟩
    · intro tr H s a s' o x _ hrun ht hs hx hsim
      exact hsim.step hrun hx ht hs
  obtain ⟨x, hx, -⟩ := hsim
  exact ⟨x, hx⟩

/-- Thread 0 is overtaken between its load and its CAS, by a thread that leaves the same index on top: it
takes that slot all the same, after another round. Thread 2 counts while the slots are taken. -/
theorem linearizable_freeStack_aba :
    ∃ H : List (Hist Nat Op Res), (freeStack .two).Linearizable H ∧
      H = [.call 0 .acquire, .call 1 .acquire, .ret 1 (.acquired (some 0)), .call 2 .available,
        .call 1 .acquire, .ret 1 (.acquired (some 8)), .call 1 (.release 0), .ret 1 .released,
        .ret 0 (.acquired (some 0)), .ret 2 (.counted 1), .call 1 .acquire, .ret 1 (.acquired none)] := by
  let M : Machine (State Nat) (Act Nat) (Event Nat) := machine .two
  let acts : List (Act Nat) :=
    [.acquire 0, .run 0, .acquire 1, .run 1, .run 1, .run 1, .available 2, .acquire 1, .run 1, .run 1, .run 1,
      .release 1 0, .run 1, .run 1, .run 0, .run 0, .run 0, .run 0, .run 2, .run 2, .acquire 1, .run 1]
  have hexec : (M.watch history M.init acts).map (fun r => (r.1.length, r.2.1)) =
      some (11, [.call 0 .acquire, .call 1 .acquire, .ret 1 (.acquired (some 0)), .call 2 .available,
        .call 1 .acquire, .ret 1 (.acquired (some 8)), .call 1 (.release 0), .ret 1 .released,
        .ret 0 (.acquired (some 0)), .ret 2 (.counted 1), .call 1 .acquire, .ret 1 (.acquired none)]) := by
    decide +kernel
  obtain ⟨tr, H, s, hrun, hend⟩ := Machine.exists_of_watch hexec
  obtain ⟨hlen, hH⟩ := Prod.mk.inj hend
  have hr : M.Observed Timely history tr H s := by
    refine hrun.mono_of (B := fun tr => tr.length < 2 ^ 48) (fun tr o hb => ?_)
      (fun tr s a hb _ => timely_of_length hb) (by rw [hlen]; decide)
    rw [List.length_append] at hb
    omega
  exact ⟨H, linearizable_freeStack .two tr H s hr, hH⟩

end Lwipc.ObjectPool
