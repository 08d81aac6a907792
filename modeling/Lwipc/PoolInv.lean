import Lwipc.ObjectPool
import Mathlib.Data.List.Perm.Basic
import Mathlib.Data.Set.Card

/-!
# The free-list invariant of `ObjectPool`

The tag of `head_` counts the successful CASes modulo `2 ^ 48`. A thread that read `head_` fewer than
`2 ^ 48` successful CASes ago and finds the same value at its CAS has therefore seen no CAS in
between (`Seen`), so the successor it read is still the right one. The slots on the chain and the
slots owned by threads stay a partition of all slots: a successful `acquire` moves the first node of
the chain to its thread, a successful `release` puts it back, and a node's `next_` is written only
by the thread that owns it.
-/

namespace Lwipc.ObjectPool

variable {τ : Type} {c : Params} {tr o : List (Event τ)} {s s' : State τ} {t : τ} {L : List Nat}
  {p idx : Nat}

/-! ### Packed heads and pointers -/

theorem pack_eq (h : idx < 2 ^ 16) (tag : Nat) : pack idx tag = tag % 2 ^ 48 * 2 ^ 16 + idx := by
  have hshift : (tag <<< 16) % 2 ^ 64 = (tag % 2 ^ 48) <<< 16 := by
    rw [Nat.shiftLeft_eq, Nat.shiftLeft_eq, show 2 ^ 64 = 2 ^ 48 * 2 ^ 16 by decide,
      Nat.mul_mod_mul_right]
  rw [pack, hshift, ← Nat.shiftLeft_add_eq_or_of_lt h, Nat.shiftLeft_eq]

theorem indexOf_eq (v : Nat) : indexOf v = v % 2 ^ 16 := Nat.and_two_pow_sub_one_eq_mod v 16

theorem tagOf_eq (v : Nat) : tagOf v = v / 2 ^ 16 := Nat.shiftRight_eq_div_pow v 16

theorem indexOf_pack (h : idx < 2 ^ 16) (tag : Nat) : indexOf (pack idx tag) = idx := by
  rw [indexOf_eq, pack_eq h]; omega

theorem tagOf_pack (h : idx < 2 ^ 16) (tag : Nat) : tagOf (pack idx tag) = tag % 2 ^ 48 := by
  rw [tagOf_eq, pack_eq h]; omega

/-- The 48 bits of the tag wrap on their own, long before the addition would. -/
theorem tagOf_pack_succ (h : idx < 2 ^ 16) (tag : Nat) :
    tagOf (pack idx (u64 (tag + 1))) = (tag + 1) % 2 ^ 48 := by
  rw [tagOf_pack h, u64]; omega

theorem Params.indexOfPtr_ptr (h : idx < c.capacity) : c.indexOfPtr (c.ptr idx) = idx := by
  have := c.le
  rw [indexOfPtr, ptr, Nat.mul_div_cancel _ c.size_pos]
  exact Nat.mod_eq_of_lt (by omega)

theorem Params.ptr_inj {i j : Nat} (h : c.ptr i = c.ptr j) : i = j :=
  Nat.eq_of_mul_eq_mul_right c.size_pos h

theorem ne_null_of_lt (h : idx < c.capacity) : idx ≠ kNullIndex := by
  have := c.le
  unfold kNullIndex
  omega

/-! ### Histories -/

section
variable (tr o : List (Event τ)) (t t' : τ)

@[simp] theorem casCount_append : casCount (tr ++ o) = casCount tr + casCount o := List.countP_append
@[simp] theorem casCount_nil : casCount ([] : List (Event τ)) = 0 := rfl
@[simp] theorem casCount_read : casCount [(.read t : Event τ)] = 0 := rfl
@[simp] theorem casCount_cas : casCount [(.cas t : Event τ)] = 1 := rfl

variable [DecidableEq τ]

@[simp] theorem since_cas : since t (tr ++ [.cas t']) = since t tr + 1 := List.foldl_append

@[simp] theorem since_read_self : since t (tr ++ [.read t]) = 0 := by
  rw [since, List.foldl_append]
  exact if_pos rfl

variable {t t'} in
theorem since_read_of_ne (h : t ≠ t') : since t' (tr ++ [.read t]) = since t' tr := by
  rw [since, List.foldl_append]
  exact if_neg h

theorem since_le : since t tr ≤ casCount tr := by
  induction tr using List.reverseRecOn with
  | nil => exact Nat.le_refl _
  | append_singleton tr e ih =>
    cases e with
    | cas t' => simpa using ih
    | read t' =>
      by_cases h : t' = t
      · subst h; simp
      · rw [since_read_of_ne tr h]; simpa using ih

end

/-! ### Ownership -/

/-- The chain `L` of free slots and the threads' slots are a partition. -/
structure Free (c : Params) (s : State τ) (L : List Nat) : Prop where
  chain : Linked s.pool.next kNullIndex (indexOf s.pool.head) L
  lt : ∀ i ∈ L, i < c.capacity
  cover : ∀ i, i < c.capacity → i ∈ L ∨ s.Held c i
  free : ∀ i ∈ L, ¬ s.Held c i
  valid : ∀ t, ∀ p ∈ s.owned t, ∃ i, i < c.capacity ∧ p = c.ptr i
  once : ∀ t, (s.owned t).Nodup
  apart : ∀ t t' p, p ∈ s.owned t → p ∈ s.owned t' → t = t'

theorem Free.congr (h : Free c s L)
    (hchain : Linked s'.pool.next kNullIndex (indexOf s'.pool.head) L)
    (hown : ∀ t, (s'.owned t).Perm (s.owned t)) : Free c s' L := by
  have hheld : ∀ i, s'.Held c i ↔ s.Held c i := fun i => exists_congr fun t => (hown t).mem_iff
  refine ⟨hchain, h.lt, ?_, ?_, ?_, ?_, ?_⟩
  · exact fun i hi => (h.cover i hi).imp_right (hheld i).2
  · exact fun i hi hh => h.free i hi ((hheld i).1 hh)
  · exact fun t p hp => h.valid t p ((hown t).mem_iff.1 hp)
  · exact fun t => (hown t).nodup_iff.2 (h.once t)
  · exact fun t t' p hp hp' => h.apart t t' p ((hown t).mem_iff.1 hp) ((hown t').mem_iff.1 hp')

theorem Free.take (h : Free c s (idx :: L))
    (hchain : Linked s'.pool.next kNullIndex (indexOf s'.pool.head) L)
    (hself : s'.owned t = c.ptr idx :: s.owned t) (hother : ∀ t', t' ≠ t → s'.owned t' = s.owned t') :
    Free c s' L := by
  have hnot : ∀ t', c.ptr idx ∉ s.owned t' := fun t' hp => h.free idx (by simp) ⟨t', hp⟩
  -- what anybody owns afterwards
  have hmem : ∀ t' p, p ∈ s'.owned t' ↔ t' = t ∧ p = c.ptr idx ∨ p ∈ s.owned t' := by
    intro t' p
    by_cases ht : t' = t
    · subst ht; rw [hself]; simp
    · rw [hother t' ht]; simp [ht]
  have hnd := List.nodup_cons.1 h.chain.nodup
  refine ⟨hchain, fun i hi => h.lt i (by simp [hi]), ?_, ?_, ?_, ?_, ?_⟩
  · intro i hi
    rcases h.cover i hi with hi | ⟨t', hp⟩
    · rcases List.mem_cons.1 hi with rfl | hi
      · exact .inr ⟨t, (hmem t _).2 (.inl ⟨rfl, rfl⟩)⟩
      · exact .inl hi
    · exact .inr ⟨t', (hmem t' _).2 (.inr hp)⟩
  · rintro i hi ⟨t', hp⟩
    rcases (hmem t' _).1 hp with ⟨-, hp⟩ | hp
    · exact hnd.1 (Params.ptr_inj hp ▸ hi)
    · exact h.free i (by simp [hi]) ⟨t', hp⟩
  · intro t' p hp
    rcases (hmem t' p).1 hp with ⟨-, rfl⟩ | hp
    · exact ⟨idx, h.lt idx (by simp), rfl⟩
    · exact h.valid t' p hp
  · intro t'
    by_cases ht : t' = t
    · subst ht
      rw [hself]
      exact List.nodup_cons.2 ⟨hnot t', h.once t'⟩
    · rw [hother t' ht]
      exact h.once t'
  · intro t₁ t₂ p h1 h2
    rcases (hmem t₁ p).1 h1 with ⟨rfl, rfl⟩ | h1 <;> rcases (hmem t₂ _).1 h2 with ⟨rfl, hp⟩ | h2
    · rfl
    · exact absurd h2 (hnot t₂)
    · subst hp; exact absurd h1 (hnot t₁)
    · exact h.apart t₁ t₂ p h1 h2

theorem Free.put (h : Free c s L) (hidx : idx < c.capacity)
    (hchain : Linked s'.pool.next kNullIndex (indexOf s'.pool.head) (idx :: L))
    (hself : (s.owned t).Perm (c.ptr idx :: s'.owned t))
    (hother : ∀ t', t' ≠ t → s'.owned t' = s.owned t') : Free c s' (idx :: L) := by
  have hmine : c.ptr idx ∈ s.owned t := hself.mem_iff.2 (by simp)
  have hnd : (c.ptr idx :: s'.owned t).Nodup := hself.nodup_iff.1 (h.once t)
  have hmem : ∀ t' p, p ∈ s.owned t' ↔ t' = t ∧ p = c.ptr idx ∨ p ∈ s'.owned t' := by
    intro t' p
    by_cases ht : t' = t
    · subst ht; rw [hself.mem_iff]; simp
    · rw [hother t' ht]; simp [ht]
  have hnot : ∀ t', c.ptr idx ∉ s'.owned t' := by
    intro t' hp
    obtain rfl := h.apart t' t _ ((hmem t' _).2 (.inr hp)) hmine
    exact (List.nodup_cons.1 hnd).1 hp
  refine ⟨hchain, ?_, ?_, ?_, ?_, ?_, ?_⟩
  · intro i hi
    rcases List.mem_cons.1 hi with rfl | hi
    · exact hidx
    · exact h.lt i hi
  · intro i hi
    rcases h.cover i hi with hi | ⟨t', hp⟩
    · exact .inl (by simp [hi])
    · rcases (hmem t' _).1 hp with ⟨-, hp⟩ | hp
      · exact .inl (by simp [Params.ptr_inj hp])
      · exact .inr ⟨t', hp⟩
  · rintro i hi ⟨t', hp⟩
    rcases List.mem_cons.1 hi with rfl | hi
    · exact hnot t' hp
    · exact h.free i hi ⟨t', (hmem t' _).2 (.inr hp)⟩
  · exact fun t' p hp => h.valid t' p ((hmem t' p).2 (.inr hp))
  · intro t'
    by_cases ht : t' = t
    · subst ht
      exact (List.nodup_cons.1 hnd).2
    · rw [hother t' ht]
      exact h.once t'
  · exact fun t₁ t₂ p h1 h2 => h.apart t₁ t₂ p ((hmem t₁ p).2 (.inr h1)) ((hmem t₂ p).2 (.inr h2))

/-! ### What a thread knows about the head it read -/

variable [DecidableEq τ]

/-- The tag of a value that `t` read from `head_` tells how many CASes had succeeded then; while there
has been none since, it is still the value of `head_`. -/
structure Seen (tr : List (Event τ)) (s : State τ) (t : τ) (old : Nat) : Prop where
  tag : tagOf old = (casCount tr - since t tr) % 2 ^ 48
  same : since t tr = 0 → old = s.pool.head

def PcOk (c : Params) (tr : List (Event τ)) (s : State τ) (t : τ) : Pc → Prop
  | .acqNext old => Seen tr s t old ∧ indexOf old < c.capacity
  | .acqCas old nxt =>
    Seen tr s t old ∧ indexOf old < c.capacity ∧
      (since t tr = 0 → nxt = s.pool.next (indexOf old))
  | .relNext _ old => Seen tr s t old
  | .relCas p old => Seen tr s t old ∧ s.pool.next (c.indexOfPtr p) = indexOf old
  | _ => True

structure Inv (c : Params) (tr : List (Event τ)) (s : State τ) (L : List Nat) : Prop
    extends Free c s L where
  tag : tagOf s.pool.head = casCount tr % 2 ^ 48
  pc : ∀ t, PcOk c tr s t (s.pc t)

/-- A CAS that finds the value read fewer than `2 ^ 48` CASes ago finds that there has been none. -/
theorem Seen.since_eq_zero (h : Seen tr s t s.pool.head)
    (htag : tagOf s.pool.head = casCount tr % 2 ^ 48) (ht : since t tr < 2 ^ 48) : since t tr = 0 := by
  have hle := since_le tr t
  have heq := h.tag
  omega

theorem seen_head (htag : tagOf s.pool.head = casCount tr % 2 ^ 48) (hpool : s'.pool = s.pool) :
    Seen (tr ++ [.read t]) s' t s.pool.head :=
  ⟨by simpa using htag, fun _ => by rw [hpool]⟩

/-- A thread is not disturbed by the steps of others that write neither a free slot's `next_` nor one
of a slot it owns; a CAS may have changed the head. -/
theorem PcOk.frame {pc : Pc} {t' : τ} (h : PcOk c tr s t' pc) (hfree : Free c s L) (ht : t ≠ t')
    (hptr : ∀ p ∈ pc.ptr, p ∈ s.owned t')
    (ho : s'.pool.head = s.pool.head ∧ (o = [] ∨ o = [.read t]) ∨ o = [.cas t])
    (hnext : ∀ i, s'.pool.next i ≠ s.pool.next i → i ∉ L ∧ ∀ p ∈ s.owned t', c.indexOfPtr p ≠ i) :
    PcOk c (tr ++ o) s' t' pc := by
  have hseen : ∀ old, Seen tr s t' old → Seen (tr ++ o) s' t' old := by
    intro old hs
    have hle := since_le tr t'
    rcases ho with ⟨hhead, rfl | rfl⟩ | rfl
    · rw [List.append_nil]; exact ⟨hs.tag, fun h0 => by rw [hhead]; exact hs.same h0⟩
    · refine ⟨?_, fun h0 => ?_⟩
      · rw [since_read_of_ne tr ht, casCount_append, casCount_read, Nat.add_zero]; exact hs.tag
      · rw [since_read_of_ne tr ht] at h0; rw [hhead]; exact hs.same h0
    · refine ⟨?_, fun h0 => ?_⟩
      · rw [since_cas, casCount_append, casCount_cas, Nat.add_sub_add_right]; exact hs.tag
      · rw [since_cas] at h0; cases h0
  have hsince : since t' (tr ++ o) = 0 → since t' tr = 0 := by
    rcases ho with ⟨-, rfl | rfl⟩ | rfl
    · rw [List.append_nil]; exact id
    · rw [since_read_of_ne tr ht]; exact id
    · rw [since_cas]; exact fun h0 => by cases h0
  cases pc with
  | idle | acquired | walk | counted => trivial
  | acqNext old => exact ⟨hseen old h.1, h.2⟩
  | acqCas old nxt =>
    obtain ⟨h1, h2, h3⟩ := h
    refine ⟨hseen old h1, h2, fun h0 => ?_⟩
    have h0' := hsince h0
    -- the node read is still the first of the chain
    obtain rfl := h1.same h0'
    obtain ⟨L', rfl, -⟩ := hfree.chain.exists_cons (ne_null_of_lt h2)
    by_contra hne
    exact (hnext _ fun heq => hne (by rw [h3 h0', heq])).1 (by simp)
  | relNext q old => exact hseen old h
  | relCas q old =>
    obtain ⟨h1, h2⟩ := h
    refine ⟨hseen old h1, ?_⟩
    by_contra hne
    exact (hnext _ fun heq => hne (by rw [heq, h2])).2 q (hptr q rfl) rfl

omit [DecidableEq τ] in
theorem mem_owned_of_ptr {t : τ} (h : p ∈ (s.pc t).ptr) : p ∈ s.owned t := by
  rw [Option.mem_def] at h
  simp [State.owned, h]

/-! ### Steps -/

@[simp] theorem State.setPc_head (t : τ) (pc : Pc) : (s.setPc t pc).pool.head = s.pool.head := rfl

omit [DecidableEq τ] in
@[simp] theorem State.setHead_head (v : Nat) : (s.setHead v).pool.head = v := rfl

theorem Inv.still (h : Inv c tr s L) (hpool : s'.pool = s.pool) (ho : o = [] ∨ o = [.read t])
    (hpc : ∀ t', t' ≠ t → s'.pc t' = s.pc t') (hheld : ∀ t', t' ≠ t → s'.held t' = s.held t')
    (hown : (s'.owned t).Perm (s.owned t)) (hok : PcOk c (tr ++ o) s' t (s'.pc t)) :
    Inv c (tr ++ o) s' L := by
  have hcas : casCount (tr ++ o) = casCount tr := by rcases ho with rfl | rfl <;> simp
  refine ⟨h.toFree.congr (by rw [hpool]; exact h.chain) fun t' => ?_, ?_, fun t' => ?_⟩
  · by_cases ht : t' = t
    · subst ht; exact hown
    · rw [State.owned, State.owned, hpc t' ht, hheld t' ht]
  · rw [hpool, hcas]; exact h.tag
  · by_cases ht : t' = t
    · subst ht; exact hok
    · rw [hpc t' ht]
      exact (h.pc t').frame h.toFree (Ne.symm ht) (fun q hq => mem_owned_of_ptr hq)
        (.inl ⟨by rw [hpool], ho⟩) fun i hi => absurd (by rw [hpool]) hi

theorem Inv.link {old : Nat} (h : Inv c tr s L) (hp : s.pc t = .relNext p old) :
    Inv c tr ((s.setNext (c.indexOfPtr p) (indexOf old)).setPc t (.relCas p old)) L := by
  have hmine : p ∈ s.owned t := mem_owned_of_ptr (by rw [hp]; rfl)
  obtain ⟨i, hi, rfl⟩ := h.valid t p hmine
  have hptr := Params.indexOfPtr_ptr hi
  have hnot : i ∉ L := fun hmem => h.free i hmem ⟨t, hmine⟩
  have hown : ∀ t', ((s.setNext (c.indexOfPtr (c.ptr i)) (indexOf old)).setPc t
      (.relCas (c.ptr i) old)).owned t' = s.owned t' := by
    intro t'
    by_cases ht : t' = t
    · subst ht; simp [State.owned, State.setNext, State.setPc, Pc.ptr, hp]
    · simp [State.owned, State.setNext, State.setPc, ht]
  refine ⟨h.toFree.congr ?_ fun t' => by rw [hown t'], h.tag, fun t' => ?_⟩
  · rw [hptr]
    exact h.chain.update hnot _
  · show PcOk c tr _ t' (Function.update s.pc t (.relCas (c.ptr i) old) t')
    rw [← List.append_nil tr]
    by_cases ht : t' = t
    · subst ht
      have hseen : Seen tr s t' old := by have := h.pc t'; rw [hp] at this; exact this
      rw [Function.update_self, List.append_nil]
      exact ⟨⟨hseen.tag, hseen.same⟩, Function.update_self _ _ _⟩
    · rw [Function.update_of_ne ht]
      refine (h.pc t').frame h.toFree (Ne.symm ht) (fun q hq => mem_owned_of_ptr hq)
        (.inl ⟨rfl, .inl rfl⟩) fun j hj => ?_
      obtain rfl : j = i := by
        by_contra hne
        exact hj (Function.update_of_ne (by rw [hptr]; exact hne) _ _)
      refine ⟨hnot, fun q hq heq => ?_⟩
      obtain ⟨k, hk, rfl⟩ := h.valid t' q hq
      rw [Params.indexOfPtr_ptr hk] at heq
      subst heq
      exact ht (h.apart t' t _ hq hmine)

theorem start_lt {next : Nat → Nat} {a : Nat} (h : Linked next kNullIndex a L)
    (hlt : ∀ i ∈ L, i < c.capacity) : a < 2 ^ 16 := by
  have := c.le
  cases L with
  | nil =>
    obtain rfl : a = kNullIndex := h
    decide
  | cons x L =>
    obtain ⟨rfl, -, -⟩ := h
    have := hlt a (by simp)
    omega

/-- After a successful CAS of `t` the others know only how old their value is. -/
theorem Inv.pc_of_cas {head : Nat} {pc : Pc} (h : Inv c tr s L) (hpc : PcOk c (tr ++ [.cas t])
      ((s.setHead head).setPc t pc) t pc) (t' : τ) :
    PcOk c (tr ++ [.cas t]) ((s.setHead head).setPc t pc) t'
      (Function.update s.pc t pc t') := by
  by_cases ht : t' = t
  · subst ht
    rw [Function.update_self]
    exact hpc
  · rw [Function.update_of_ne ht]
    exact (h.pc t').frame h.toFree (Ne.symm ht) (fun q hq => mem_owned_of_ptr hq) (.inr rfl)
      fun i hi => absurd rfl hi

theorem Inv.acqCas {nxt : Nat} (h : Inv c tr s L) (hp : s.pc t = .acqCas s.pool.head nxt)
    (ht : since t tr < 2 ^ 48) : ∃ L', Inv c (tr ++ [.cas t])
      ((s.setHead (pack nxt (u64 (tagOf s.pool.head + 1)))).setPc t
        (.acquired (some (c.ptr (indexOf s.pool.head))))) L' := by
  obtain ⟨hseen, hlt, hnxt⟩ : PcOk c tr s t (.acqCas s.pool.head nxt) := hp ▸ h.pc t
  obtain ⟨L', rfl, hchain⟩ := h.chain.exists_cons (ne_null_of_lt hlt)
  obtain rfl := hnxt (hseen.since_eq_zero h.tag ht)
  have hstart := start_lt hchain fun i hi => h.lt i (by simp [hi])
  refine ⟨L', h.toFree.take (t := t) ?_ ?_ ?_, ?_, h.pc_of_cas trivial⟩
  · rw [State.setPc_head, State.setHead_head, indexOf_pack hstart]
    exact hchain
  · simp [State.owned, State.setHead, State.setPc, Pc.ptr, hp]
  · intro t' ht'
    simp [State.owned, State.setHead, State.setPc, ht']
  · rw [State.setPc_head, State.setHead_head, tagOf_pack_succ hstart, h.tag, casCount_append,
      casCount_cas, Nat.mod_add_mod]

theorem Inv.relCas (h : Inv c tr s L) (hp : s.pc t = .relCas p s.pool.head) :
    ∃ L', Inv c (tr ++ [.cas t])
      ((s.setHead (pack (c.indexOfPtr p) (u64 (tagOf s.pool.head + 1)))).setPc t .idle) L' := by
  obtain ⟨-, hnext⟩ : PcOk c tr s t (.relCas p s.pool.head) := hp ▸ h.pc t
  obtain ⟨i, hi, rfl⟩ := h.valid t p (mem_owned_of_ptr (by rw [hp]; rfl))
  rw [Params.indexOfPtr_ptr hi] at hnext ⊢
  have hcap := c.le
  have hlt : i < 2 ^ 16 := by omega
  refine ⟨i :: L, h.toFree.put hi ?_ (t := t) ?_ ?_, ?_, h.pc_of_cas trivial⟩
  · rw [State.setPc_head, State.setHead_head, indexOf_pack hlt]
    refine ⟨rfl, ne_null_of_lt hi, ?_⟩
    show Linked s.pool.next _ (s.pool.next i) L
    rw [hnext]
    exact h.chain
  · simp [State.owned, State.setHead, State.setPc, Pc.ptr, hp]
  · intro t' ht'
    simp [State.owned, State.setHead, State.setPc, ht']
  · rw [State.setPc_head, State.setHead_head, tagOf_pack_succ hlt, h.tag, casCount_append,
      casCount_cas, Nat.mod_add_mod]

theorem Inv.acqLoop_ok (h : Inv c tr s L) (hpool : s'.pool = s.pool) :
    PcOk c (tr ++ [.read t]) s' t (acqLoop s.pool.head) := by
  unfold acqLoop
  split
  · trivial
  · rename_i hne
    obtain ⟨L', rfl, -⟩ := h.chain.exists_cons hne
    exact ⟨seen_head h.tag hpool, h.lt _ (by simp)⟩

theorem acqLoop_ptr (head : Nat) : (acqLoop head).ptr = none := by
  unfold acqLoop; split <;> rfl

theorem walkLoop_ptr (idx count : Nat) : (walkLoop c idx count).ptr = none := by
  unfold walkLoop; split <;> rfl

theorem walkLoop_ok (idx count : Nat) : PcOk c tr s t (walkLoop c idx count) := by
  unfold walkLoop; split <;> trivial

theorem Inv.move {pc : Pc} (h : Inv c tr s L) (ho : o = [] ∨ o = [.read t])
    (hptr : pc.ptr = (s.pc t).ptr) (hok : PcOk c (tr ++ o) (s.setPc t pc) t pc) :
    Inv c (tr ++ o) (s.setPc t pc) L := by
  refine h.still rfl ho (fun t' ht => ?_) (fun _ _ => rfl) ?_ ?_
  · exact Function.update_of_ne ht _ _
  · simp [State.owned, State.setPc, hptr]
  · simpa [State.setPc] using hok

theorem Inv.runStep (h : Inv c tr s L) (ht : Timely tr s (.run t))
    (hs : runStep c s t (s.pc t) = some (s', o)) : ∃ L', Inv c (tr ++ o) s' L' := by
  have hok := h.pc t
  rcases hp : s.pc t with _ | old | ⟨old, nxt⟩ | q | ⟨q, old⟩ | ⟨q, old⟩ | ⟨idx, count⟩ | count <;>
    rw [hp] at hs hok
  case idle => cases hs
  case acqNext =>
    cases hs
    obtain ⟨hseen, hlt⟩ := hok
    refine ⟨L, h.move (.inl rfl) (by rw [hp]; rfl) ?_⟩
    rw [List.append_nil]
    exact ⟨⟨hseen.tag, hseen.same⟩, hlt, fun _ => rfl⟩
  case acqCas =>
    simp only [ObjectPool.runStep] at hs
    split at hs <;> cases hs
    · rename_i heq
      subst heq
      simp only [Timely, hp] at ht
      exact h.acqCas hp ht
    · exact ⟨L, h.move (.inr rfl) (by rw [hp, acqLoop_ptr]; rfl) (h.acqLoop_ok rfl)⟩
  case acquired =>
    cases q with
    | none =>
      cases hs
      exact ⟨L, h.move (.inl rfl) (by rw [hp]; rfl) trivial⟩
    | some q =>
      cases hs
      refine ⟨L, h.still (t := t) rfl (.inl rfl) (fun t' ht => ?_) (fun t' ht => ?_) ?_ ?_⟩
      · exact Function.update_of_ne ht _ _
      · exact Function.update_of_ne ht _ _
      · simp [State.owned, State.setPc, State.setHeld, Pc.ptr, hp]
      · simp [State.setPc, State.setHeld, PcOk]
  case relNext =>
    cases hs
    rw [List.append_nil]
    exact ⟨L, h.link hp⟩
  case relCas =>
    simp only [ObjectPool.runStep] at hs
    split at hs <;> cases hs
    · rename_i heq
      subst heq
      exact h.relCas hp
    · exact ⟨L, h.move (.inr rfl) (by rw [hp]; rfl) (seen_head h.tag rfl)⟩
  case walk =>
    cases hs
    exact ⟨L, h.move (.inl rfl) (by rw [hp, walkLoop_ptr]; rfl) (walkLoop_ok _ _)⟩
  case counted =>
    cases hs
    exact ⟨L, h.move (.inl rfl) (by rw [hp]; rfl) trivial⟩

theorem Inv.step {a : Act τ} (h : Inv c tr s L) (ht : Timely tr s a)
    (hs : step c s a = some (s', o)) : ∃ L', Inv c (tr ++ o) s' L' := by
  cases a with
  | acquire t =>
    simp only [ObjectPool.step] at hs
    split at hs <;> cases hs
    rename_i hp
    exact ⟨L, h.move (.inr rfl) (by rw [hp, acqLoop_ptr]; rfl) (h.acqLoop_ok rfl)⟩
  | release t q =>
    simp only [ObjectPool.step] at hs
    split at hs
    · rename_i hp
      split at hs <;> cases hs
      rename_i hmem
      refine ⟨L, h.still (t := t) rfl (.inr rfl) (fun t' ht => ?_) (fun t' ht => ?_) ?_ ?_⟩
      · exact Function.update_of_ne ht _ _
      · exact Function.update_of_ne ht _ _
      · simpa [State.owned, State.setPc, State.setHeld, Pc.ptr, hp] using
          (List.perm_cons_erase hmem).symm
      · show PcOk c _ _ t (Function.update s.pc t (.relNext q s.pool.head) t)
        rw [Function.update_self]
        exact seen_head h.tag rfl
    · cases hs
  | available t =>
    simp only [ObjectPool.step] at hs
    split at hs <;> cases hs
    rename_i hp
    exact ⟨L, h.move (.inr rfl) (by rw [hp, walkLoop_ptr]; rfl) (walkLoop_ok _ _)⟩
  | run t => exact h.runStep ht hs
  | spurious t =>
    simp only [ObjectPool.step] at hs
    split at hs <;> cases hs
    · rename_i hp
      exact ⟨L, h.move (.inr rfl) (by rw [hp, acqLoop_ptr]; rfl) (h.acqLoop_ok rfl)⟩
    · rename_i hp
      exact ⟨L, h.move (.inr rfl) (by rw [hp]; rfl) (seen_head h.tag rfl)⟩

omit [DecidableEq τ] in
/-- From slot `i` on, the constructor's free list is `i, i + 1, …`. -/
theorem linked_init {i n : Nat} (h : i + n = c.capacity) :
    Linked (Pool.init c).next kNullIndex (if i < c.capacity then i else kNullIndex)
      (List.range' i n) := by
  induction n generalizing i with
  | zero => simp [show ¬ i < c.capacity by omega, Linked]
  | succ n ih =>
    have hi : i < c.capacity := by omega
    rw [if_pos hi, List.range'_succ]
    exact ⟨rfl, ne_null_of_lt hi, ih (by omega)⟩

theorem inv_init (c : Params) : Inv c [] (init c : State τ) (List.range' 0 c.capacity) where
  chain := by
    have hcap := c.ge_one
    have hlink := linked_init (show 0 + c.capacity = c.capacity by omega)
    rw [if_pos (by omega)] at hlink
    show Linked (Pool.init c).next kNullIndex (indexOf (pack 0 0)) _
    rw [indexOf_pack (by decide)]
    exact hlink
  lt i hi := by simpa using hi
  cover i hi := .inl (by simpa using hi)
  free := by rintro i - ⟨t, hp⟩; cases hp
  valid t p hp := by cases hp
  once t := List.nodup_nil
  apart t t' p hp := by cases hp
  tag := by
    show tagOf (pack 0 0) = 0 % 2 ^ 48
    rw [tagOf_pack (by decide)]
  pc t := trivial

theorem inv_of_runs (h : (machine c).Runs Timely tr s) : ∃ L, Inv c tr s L := by
  refine h.invariant (I := fun tr s => ∃ L, Inv c tr s L) ⟨_, inv_init c⟩ ?_
  rintro tr s a s' o ⟨L, hi⟩ ht hs
  exact hi.step ht hs

/-! ### Exhaustion and `available` -/

omit [DecidableEq τ] in
theorem Free.held_of_null (h : Free c s L) (hnull : indexOf s.pool.head = kNullIndex) {i : Nat}
    (hi : i < c.capacity) : s.Held c i := by
  have hchain := h.chain
  rw [hnull] at hchain
  obtain rfl := hchain.eq_nil
  exact (h.cover i hi).resolve_left List.not_mem_nil

/-- A step that brings `acquire` to `return nullptr` has just read a head without an index. -/
theorem null_of_step {a : Act τ} (hs : step c s a = some (s', o)) (h1 : s.pc t ≠ .acquired none)
    (h2 : s'.pc t = .acquired none) : o = [.read t] ∧ indexOf s.pool.head = kNullIndex := by
  have hmove : ∀ {t' pc}, Function.update s.pc t' pc t = .acquired none →
      t' = t ∧ pc = .acquired none := by
    intro t' pc h
    by_cases ht : t = t'
    · subst ht; rw [Function.update_self] at h; exact ⟨rfl, h⟩
    · rw [Function.update_of_ne ht] at h; exact absurd h h1
  have hloop : ∀ {head}, acqLoop head = .acquired none → indexOf head = kNullIndex := by
    intro head h
    unfold acqLoop at h
    split at h
    · assumption
    · cases h
  have hwalk : ∀ {i k}, walkLoop c i k ≠ .acquired none := by
    intro i k h
    unfold walkLoop at h
    split at h <;> cases h
  cases a with
  | acquire t' =>
    simp only [step] at hs
    split at hs <;> cases hs
    obtain ⟨rfl, h⟩ := hmove h2
    exact ⟨rfl, hloop h⟩
  | release t' q =>
    simp only [step] at hs
    split at hs
    · split at hs <;> cases hs
      cases (hmove h2).2
    · cases hs
  | available t' =>
    simp only [step] at hs
    split at hs <;> cases hs
    exact absurd (hmove h2).2 hwalk
  | run t' =>
    simp only [step] at hs
    rcases hp : s.pc t' with _ | old | ⟨old, nxt⟩ | _ | ⟨q, old⟩ | ⟨q, old⟩ | ⟨idx, count⟩ | count <;>
      rw [hp] at hs <;> simp only [runStep] at hs
    case acqCas =>
      split at hs <;> cases hs
      · cases (hmove h2).2
      · obtain ⟨rfl, h⟩ := hmove h2
        exact ⟨rfl, hloop h⟩
    case acquired q => cases q <;> cases hs <;> cases (hmove h2).2
    case relCas => split at hs <;> cases hs <;> cases (hmove h2).2
    case walk => cases hs; exact absurd (hmove h2).2 hwalk
    all_goals cases hs
    all_goals cases (hmove h2).2
  | spurious t' =>
    simp only [step] at hs
    split at hs <;> cases hs
    · obtain ⟨rfl, h⟩ := hmove h2
      exact ⟨rfl, hloop h⟩
    · cases (hmove h2).2

/-- Walked alone, `available` counts the nodes of the chain. -/
theorem exec_walk {a k : Nat} {l : List Nat} (hl : Linked s.pool.next kNullIndex a l)
    (hk : k + l.length ≤ c.capacity) (hp : s.pc t = walkLoop c a k) :
    ∃ s', (machine c).exec s (List.replicate l.length (.run t)) = some (s', []) ∧
      s'.pc t = .counted (k + l.length) := by
  induction l generalizing s a k with
  | nil =>
    obtain rfl : a = kNullIndex := hl
    exact ⟨s, rfl, by rw [hp]; simp [walkLoop]⟩
  | cons x l ih =>
    obtain ⟨rfl, hne, hl⟩ := hl
    rw [List.length_cons] at hk ⊢
    have hw : walkLoop c a k = .walk a k := if_pos ⟨hne, by omega⟩
    have hs : (machine c).step s (.run t) =
        some (s.setPc t (walkLoop c (s.pool.next a) (k + 1)), []) := by
      show runStep c s t (s.pc t) = _
      rw [hp, hw]
      rfl
    obtain ⟨s', he, hc⟩ := ih (s := s.setPc t (walkLoop c (s.pool.next a) (k + 1))) (k := k + 1) hl
      (by omega) (Function.update_self _ _ _)
    refine ⟨s', ?_, by rw [hc]; congr 1; omega⟩
    rw [List.replicate_succ, Machine.exec_cons hs, he]
    rfl

omit [DecidableEq τ] in
theorem Free.length_eq (h : Free c s L) : L.length = c.capacity - {i | s.Held c i}.ncard := by
  have hset : {i | s.Held c i} = ↑(Finset.range c.capacity \ L.toFinset) := by
    ext i
    simp only [Set.mem_ofPred_eq, Finset.coe_sdiff, Finset.coe_range, List.coe_toFinset, Set.mem_sdiff,
      Set.mem_Iio]
    constructor
    · rintro ⟨t, hp⟩
      obtain ⟨j, hj, heq⟩ := h.valid t _ hp
      exact ⟨Params.ptr_inj heq ▸ hj, fun hi => h.free i hi ⟨t, hp⟩⟩
    · exact fun hi => (h.cover i hi.1).resolve_left hi.2
  have hsub : L.toFinset ⊆ Finset.range c.capacity := by
    intro i hi
    exact Finset.mem_range.2 (h.lt i (List.mem_toFinset.1 hi))
  have hle := Finset.card_le_card hsub
  rw [hset, Set.ncard_coe_finset, Finset.card_sdiff_of_subset hsub]
  rw [Finset.card_range, List.toFinset_card_of_nodup h.chain.nodup] at *
  omega

/-- In every run in which no thread's value of `head_` is `2 ^ 48` successful CASes old at its CAS: the
chain from the head visits distinct slots and ends in `kNullIndex`; each slot is either on it or
held; every pointer a thread has is one of a slot, and no two of them, in one thread or two, are of
the same slot; `acquire` comes to `return nullptr` only by reading the head while every slot is held;
and `available` run alone returns the capacity less the number of held slots. -/
theorem exclusive_and_conserved (c : Params) (tr : List (Event τ)) (s : State τ)
    (h : (machine c).Runs Timely tr s) :
    (∃ L, Linked s.pool.next kNullIndex (indexOf s.pool.head) L ∧ L.Nodup ∧
      (∀ i ∈ L, i < c.capacity) ∧
      ∀ i, i < c.capacity → (i ∈ L ∧ ¬ s.Held c i) ∨ (i ∉ L ∧ s.Held c i)) ∧
    (∀ t, ∀ p ∈ s.owned t, ∃ i, i < c.capacity ∧ p = c.ptr i) ∧
    (∀ t, (s.owned t).Nodup) ∧
    (∀ t t' p, p ∈ s.owned t → p ∈ s.owned t' → t = t') ∧
    (∀ t a s' o, (machine c).step s a = some (s', o) → s.pc t ≠ .acquired none →
      s'.pc t = .acquired none → o = [.read t] ∧ ∀ i, i < c.capacity → s.Held c i) ∧
    (∀ t, s.pc t = .idle → ∃ n s' o,
      (machine c).exec s (.available t :: List.replicate n (.run t)) = some (s', o) ∧
        s'.pc t = .counted (c.capacity - {i | s.Held c i}.ncard)) := by
  obtain ⟨L, hi⟩ := inv_of_runs h
  refine ⟨⟨L, hi.chain, hi.chain.nodup, hi.lt, ?_⟩, hi.valid, hi.once, hi.apart, ?_, ?_⟩
  · intro i hlt
    by_cases hmem : i ∈ L
    · exact .inl ⟨hmem, hi.free i hmem⟩
    · exact .inr ⟨hmem, (hi.cover i hlt).resolve_left hmem⟩
  · intro t a s' o hs h1 h2
    obtain ⟨rfl, hnull⟩ := null_of_step hs h1 h2
    exact ⟨rfl, fun i hlt => hi.toFree.held_of_null hnull hlt⟩
  · intro t hp
    have hs : (machine c).step s (.available t) =
        some (s.setPc t (walkLoop c (indexOf s.pool.head) 0), [.read t]) := by
      simp [machine, step, hp]
    have hlen := hi.toFree.length_eq
    obtain ⟨s', he, hc⟩ := exec_walk (s := s.setPc t (walkLoop c (indexOf s.pool.head) 0)) (k := 0)
      hi.chain (by omega) (Function.update_self _ _ _)
    refine ⟨L.length, s', [.read t], ?_, ?_⟩
    · rw [Machine.exec_cons hs, he]
      rfl
    · rw [hc, Nat.zero_add, hlen]

/-- No value of `head_` is stale in a run of fewer than `2 ^ 48` accesses to it. -/
theorem timely_of_short (h : (machine c).Runs Machine.free tr s) (hlen : tr.length < 2 ^ 48) :
    (machine c).Runs Timely tr s := by
  refine h.mono_of (B := fun tr => tr.length < 2 ^ 48) (fun tr o hb => ?_) ?_ hlen
  · rw [List.length_append] at hb; omega
  · intro tr s a s' o hb _ _
    have hle : ∀ t, since t tr ≤ tr.length :=
      fun t => Nat.le_trans (since_le tr t) List.countP_le_length
    rw [List.length_append] at hb
    cases a with
    | run t =>
      have := hle t
      simp only [Timely]
      split <;> first | omega | trivial
    | acquire | release | available | spurious => trivial

/-- Thread 0 reads the head and is overtaken by thread 1, which takes both slots and gives the first
one back: the index is the same again, the tag is not, and thread 0 starts over. -/
theorem exclusive_and_conserved_aba :
    ∃ (c : Params) (tr : List (Event Nat)) (s : State Nat), c.capacity = 2 ∧
      (machine c).Runs Timely tr s ∧ s.owned 0 = [0] ∧ s.owned 1 = [8] ∧ (∀ t p, p ∈ s.owned 0 → p ∈ s.owned t → 0 = t) ∧
      ∃ n s' o, (machine c).exec s (.available 2 :: List.replicate n (.run 2)) = some (s', o) ∧
        s'.pc 2 = .counted (2 - {i | s.Held c i}.ncard) := by
  let c : Params := .two
  let M : Machine (State Nat) (Act Nat) (Event Nat) := machine c
  let acts : List (Act Nat) :=
    [.acquire 0, .run 0, .acquire 1, .run 1, .run 1, .run 1, .acquire 1, .run 1, .run 1, .run 1,
      .release 1 0, .run 1, .run 1, .run 0, .run 0, .run 0, .run 0]
  have hexec : (M.exec M.init acts).map (fun r => (r.2.length, r.1.owned 0, r.1.owned 1, r.1.pc 2)) =
      some (9, [0], [8], .idle) := by decide +kernel
  obtain ⟨tr, s, hrun, hend⟩ := Machine.Runs.exists_of_exec hexec
  simp only [Prod.mk.injEq] at hend
  obtain ⟨hlen, h0, h1, h2⟩ := hend
  have hr : M.Runs Timely tr s := timely_of_short hrun (by rw [hlen]; decide)
  obtain ⟨-, -, -, hapart, -, havail⟩ := exclusive_and_conserved c tr s hr
  exact ⟨c, tr, s, rfl, hr, h0, h1, hapart 0, havail 2 h2⟩

end Lwipc.ObjectPool
