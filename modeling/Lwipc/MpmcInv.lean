import Lwipc.MpmcRingBuffer

/-!
# The slot invariant of `MpmcRingBuffer`

A position `p` is *current* when it is the last claimed position of its slot. The sequence of that
slot then says how far `p` has got: `p` while its push is writing, `p + 1` from the push's store to
the pop's, `p + Capacity` once the pop has released it. `Inv` ties every slot to the two counters in
this way and every call in flight to its slot. A claim is possible only on a slot whose sequence
shows that the previous lap is over, so two calls in flight never share a slot.
-/

namespace Lwipc.MpmcRingBuffer

variable {ι α : Type}

/-- The item of the push that claimed position `p`. -/
def itemAt (tr : List (Event ι α)) (p : Nat) : Option α := (pushes tr)[p]?.map Prod.snd

/-- The sequence of the slot of `p`. -/
def seqAt (cap : Capacity) (s : State ι α) (p : Nat) : Nat := (s.slots (cap.slot p)).sequence

/-- What the slot of a current position holds. -/
def SlotOk (cap : Capacity) (tr : List (Event ι α)) (s : State ι α) (p : Nat) : Prop :=
  (seqAt cap s p = p ∧ s.readPos ≤ p) ∨
  (seqAt cap s p = p + 1 ∧ itemAt tr p = some (s.slots (cap.slot p)).data) ∨
  (seqAt cap s p = p + cap.val ∧ p < s.readPos)

/-- What a call knows at each program counter. -/
def CallOk (cap : Capacity) (tr : List (Event ι α)) (s : State ι α) (i : ι) : Call α → Prop
  | .push _ (.loadSeq pos) | .push _ (.reload pos) => pos ≤ s.writePos
  | .push _ (.cas pos) => pos ≤ s.writePos ∧ (pos = s.writePos → seqAt cap s pos = pos)
  | .push item (.copy pos) =>
    cap.Current s.writePos pos ∧ seqAt cap s pos = pos ∧ (pushes tr)[pos]? = some (i, item)
  | .push item (.store pos) =>
    cap.Current s.writePos pos ∧ seqAt cap s pos = pos ∧ (pushes tr)[pos]? = some (i, item) ∧
      (s.slots (cap.slot pos)).data = item
  | .pop (.loadSeq pos) | .pop (.reload pos) => pos ≤ s.readPos
  | .pop (.cas pos) => pos ≤ s.readPos ∧ (pos = s.readPos → seqAt cap s pos = pos + 1)
  | .pop (.copy pos) =>
    cap.Current s.writePos pos ∧ pos < s.readPos ∧ seqAt cap s pos = pos + 1 ∧ (pops tr)[pos]? = some i
  | .pop (.store pos out) =>
    cap.Current s.writePos pos ∧ pos < s.readPos ∧ seqAt cap s pos = pos + 1 ∧ (pops tr)[pos]? = some i ∧
      itemAt tr pos = some out
  | _ => True

/-- A pop that claimed position `k` is past its exchange, and returns the item of `k` if it has
returned. -/
def Claimed (tr : List (Event ι α)) (k : Nat) (c : Call α) : Prop :=
  c = .pop (.copy k) ∨ (∃ out, c = .pop (.store k out)) ∨
    ∃ out, c = .pop (.done (some out)) ∧ itemAt tr k = some out

/-- The counters and the slots. -/
structure Shared (cap : Capacity) (tr : List (Event ι α)) (s : State ι α) : Prop where
  write : s.writePos = (pushes tr).length
  read : s.readPos = (pops tr).length
  read_le : s.readPos ≤ s.writePos
  write_le : s.writePos ≤ s.readPos + cap.val
  seq_lt : ∀ x, (s.slots x).sequence < 2 ^ 64
  slot : ∀ p, cap.Current s.writePos p → SlotOk cap tr s p
  fresh : ∀ p, p < cap.val → s.writePos ≤ p → seqAt cap s p = p

structure Inv (cap : Capacity) (tr : List (Event ι α)) (s : State ι α) : Prop
    extends Shared cap tr s where
  call : ∀ i, CallOk cap tr s i (s.calls i)
  claimed : ∀ k i, (pops tr)[k]? = some i → Claimed tr k (s.calls i)

variable {cap : Capacity} {tr : List (Event ι α)} {s : State ι α} {i : ι} {item : α} {p q : Nat}

theorem seqAt_congr (h : cap.slot p = cap.slot q) : seqAt cap s p = seqAt cap s q := by
  simp [seqAt, h]

namespace Shared

/-- The slot of the next position to claim is free exactly when the pop of the previous lap has
stored its sequence. -/
theorem room (h : Shared cap tr s) (hseq : seqAt cap s s.writePos = s.writePos) :
    s.writePos < s.readPos + cap.val := by
  by_cases hw : s.writePos < cap.val
  · omega
  have hcap := cap.ge_two
  have hcur : cap.Current s.writePos (s.writePos - cap.val) := ⟨by omega, by omega⟩
  have hsl : cap.slot (s.writePos - cap.val) = cap.slot s.writePos := cap.slot_sub (by omega)
  rcases h.slot _ hcur with ⟨h1, -⟩ | ⟨h1, -⟩ | ⟨-, h1⟩
  · rw [seqAt_congr hsl] at h1; omega
  · rw [seqAt_congr hsl] at h1; omega
  · omega

/-- The next position to read can be claimed only when its push has published it. -/
theorem published (h : Shared cap tr s) (hseq : seqAt cap s s.readPos = s.readPos + 1) :
    cap.Current s.writePos s.readPos ∧ itemAt tr s.readPos = some (s.slots (cap.slot s.readPos)).data := by
  have hcap := cap.ge_two
  have hr := h.read_le
  have hw := h.write_le
  have hlt : s.readPos < s.writePos := by
    rcases Nat.lt_or_ge s.readPos s.writePos with hlt | hge
    · exact hlt
    have heq : s.readPos = s.writePos := Nat.le_antisymm hr hge
    rw [heq] at hseq
    by_cases hwc : s.writePos < cap.val
    · have := h.fresh _ hwc (Nat.le_refl _); omega
    have hcur : cap.Current s.writePos (s.writePos - cap.val) := ⟨by omega, by omega⟩
    have hsl : cap.slot (s.writePos - cap.val) = cap.slot s.writePos := cap.slot_sub (by omega)
    rcases h.slot _ hcur with ⟨h1, -⟩ | ⟨h1, -⟩ | ⟨h1, -⟩ <;> rw [seqAt_congr hsl] at h1 <;> omega
  have hcur : cap.Current s.writePos s.readPos := ⟨hlt, hw⟩
  rcases h.slot _ hcur with ⟨h1, -⟩ | ⟨-, h1⟩ | ⟨h1, -⟩
  · omega
  · exact ⟨hcur, h1⟩
  · omega

theorem popping_item (h : Shared cap tr s) (hcur : cap.Current s.writePos p) (hseq : seqAt cap s p = p + 1) :
    itemAt tr p = some (s.slots (cap.slot p)).data := by
  have hcap := cap.ge_two
  rcases h.slot _ hcur with ⟨h1, -⟩ | ⟨-, h1⟩ | ⟨h1, -⟩
  · omega
  · exact h1
  · omega

end Shared

/-! ### Frame lemmas -/

theorem itemAt_append {tr' : List (Event ι α)} {x : α} (h : itemAt tr p = some x) :
    itemAt (tr ++ tr') p = some x := by
  obtain ⟨y, hy, rfl⟩ := Option.map_eq_some_iff.1 h
  simp [itemAt, getElem?_append_of_some hy]

theorem Claimed.append {tr' : List (Event ι α)} {k : Nat} {c : Call α} (h : Claimed tr k c) :
    Claimed (tr ++ tr') k c := by
  rcases h with h | h | ⟨out, h, hk⟩
  · exact .inl h
  · exact .inr (.inl h)
  · exact .inr (.inr ⟨out, h, itemAt_append hk⟩)

/-- The call has made no exchange on `read_pos_`. -/
def Call.unclaimed : Call α → Bool
  | .pop (.copy _) | .pop (.store ..) | .pop (.done (some _)) => false
  | _ => true

theorem Claimed.unclaimed_eq {k : Nat} {c : Call α} (h : Claimed tr k c) : c.unclaimed = false := by
  rcases h with rfl | ⟨_, rfl⟩ | ⟨_, rfl, -⟩ <;> rfl

/-- A call that has made no exchange on `read_pos_` is not among the pops. -/
theorem Inv.claimed_of_unclaimed (h : Inv cap tr s) (hi : (s.calls i).unclaimed = true) {c : Call α}
    (k : Nat) (hk : (pops tr)[k]? = some i) : Claimed tr k c := by
  have := (h.claimed k i hk).unclaimed_eq
  rw [hi] at this
  cases this

theorem CallOk.congr {s' : State ι α} {c : Call α} (hw : s'.writePos = s.writePos)
    (hr : s'.readPos = s.readPos) (hs : s'.slots = s.slots) (h : CallOk cap tr s i c) :
    CallOk cap tr s' i c := by
  obtain ⟨w, r, sl, cl⟩ := s
  obtain ⟨w', r', sl', cl'⟩ := s'
  simp only at hw hr hs
  subst hw hr hs
  rcases c with _ | ⟨_, _ | _ | _ | _ | _ | _ | _⟩ | ⟨_ | _ | _ | _ | _ | _ | _⟩ | _ <;> exact h

/-- Call `i` is between its exchange and its sequence store at the current position `q`. -/
def Flying (cap : Capacity) (tr : List (Event ι α)) (s : State ι α) (i : ι) (q : Nat) : Prop :=
  cap.Current s.writePos q ∧ ((seqAt cap s q = q ∧ ∃ item, (pushes tr)[q]? = some (i, item)) ∨
    (seqAt cap s q = q + 1 ∧ q < s.readPos ∧ (pops tr)[q]? = some i))

theorem Flying.slot_ne {j : ι} (hi : Flying cap tr s i p) (hj : Flying cap tr s j q) (hne : j ≠ i) :
    cap.slot q ≠ cap.slot p := by
  intro h
  obtain rfl := hj.1.eq hi.1 h
  rcases hi.2 with ⟨h1, _, h2⟩ | ⟨h1, -, h2⟩ <;> rcases hj.2 with ⟨h3, _, h4⟩ | ⟨h3, -, h4⟩
  · rw [h2] at h4
    simp only [Option.some.injEq, Prod.mk.injEq] at h4
    exact hne h4.1.symm
  · omega
  · omega
  · rw [h2] at h4
    exact hne (Option.some.inj h4).symm

/-- What a step of another call may do to the shared state without disturbing `c`. -/
theorem CallOk.frame {o : List (Event ι α)} {s' : State ι α} {c : Call α}
    (hok : CallOk cap tr s i c) (hw : s.writePos ≤ s'.writePos) (hr : s.readPos ≤ s'.readPos)
    (hpush : s'.writePos = s.writePos → seqAt cap s s.writePos = s.writePos →
      seqAt cap s' s.writePos = s.writePos)
    (hpop : s'.readPos = s.readPos → seqAt cap s s.readPos = s.readPos + 1 →
      seqAt cap s' s.readPos = s.readPos + 1)
    (hfly : ∀ q, Flying cap tr s i q →
      cap.Current s'.writePos q ∧ s'.slots (cap.slot q) = s.slots (cap.slot q)) :
    CallOk cap (tr ++ o) s' i c := by
  rcases c with _ | ⟨item, _ | pos | pos | pos | pos | pos | _⟩ |
    ⟨_ | pos | pos | pos | pos | ⟨pos, out⟩ | _⟩ | _
  case push.loadSeq | push.reload => exact Nat.le_trans hok hw
  case pop.loadSeq | pop.reload => exact Nat.le_trans hok hr
  case push.cas =>
    obtain ⟨hle, hseq⟩ := hok
    refine ⟨Nat.le_trans hle hw, ?_⟩
    rintro rfl
    have heq : s'.writePos = s.writePos := Nat.le_antisymm hle hw
    rw [heq]
    exact hpush heq (heq ▸ hseq heq)
  case pop.cas =>
    obtain ⟨hle, hseq⟩ := hok
    refine ⟨Nat.le_trans hle hr, ?_⟩
    rintro rfl
    have heq : s'.readPos = s.readPos := Nat.le_antisymm hle hr
    rw [heq]
    exact hpop heq (heq ▸ hseq heq)
  case push.copy =>
    obtain ⟨hcur, hseq, hk⟩ := hok
    obtain ⟨hcur', hsl⟩ := hfly pos ⟨hcur, .inl ⟨hseq, item, hk⟩⟩
    exact ⟨hcur', by rw [seqAt, hsl]; exact hseq, by rw [pushes_append]; exact getElem?_append_of_some hk⟩
  case push.store =>
    obtain ⟨hcur, hseq, hk, hd⟩ := hok
    obtain ⟨hcur', hsl⟩ := hfly pos ⟨hcur, .inl ⟨hseq, item, hk⟩⟩
    exact ⟨hcur', by rw [seqAt, hsl]; exact hseq,
      by rw [pushes_append]; exact getElem?_append_of_some hk, by rw [hsl]; exact hd⟩
  case pop.copy =>
    obtain ⟨hcur, hlt, hseq, hk⟩ := hok
    obtain ⟨hcur', hsl⟩ := hfly pos ⟨hcur, .inr ⟨hseq, hlt, hk⟩⟩
    exact ⟨hcur', Nat.lt_of_lt_of_le hlt hr, by rw [seqAt, hsl]; exact hseq,
      by rw [pops_append]; exact getElem?_append_of_some hk⟩
  case pop.store =>
    obtain ⟨hcur, hlt, hseq, hk, hitem⟩ := hok
    obtain ⟨hcur', hsl⟩ := hfly pos ⟨hcur, .inr ⟨hseq, hlt, hk⟩⟩
    exact ⟨hcur', Nat.lt_of_lt_of_le hlt hr, by rw [seqAt, hsl]; exact hseq,
      by rw [pops_append]; exact getElem?_append_of_some hk, itemAt_append hitem⟩
  all_goals trivial

variable [DecidableEq ι]

/-- Assembling the invariant after a step of call `i`: the shared state is already the new one, and
`c` is where the step leaves the call. -/
theorem Inv.of_shared {c : Call α} (hs : Shared cap tr s) (hc : CallOk cap tr s i c)
    (hcs : ∀ j, j ≠ i → CallOk cap tr s j (s.calls j))
    (hcl : ∀ k, (pops tr)[k]? = some i → Claimed tr k c)
    (hcls : ∀ k j, j ≠ i → (pops tr)[k]? = some j → Claimed tr k (s.calls j)) :
    Inv cap tr (s.setCall i c) := by
  refine ⟨⟨hs.write, hs.read, hs.read_le, hs.write_le, hs.seq_lt, hs.slot, hs.fresh⟩, ?_, ?_⟩
  · intro j
    refine CallOk.congr rfl rfl rfl ?_
    exact (Function.forall_update_iff s.calls fun j c => CallOk cap tr s j c).2 ⟨hc, hcs⟩ j
  · intro k j
    exact (Function.forall_update_iff s.calls fun j c => (pops tr)[k]? = some j → Claimed tr k c).2
      ⟨hcl k, fun j hj => hcls k j hj⟩ j

theorem Inv.setCall {c : Call α} (h : Inv cap tr s) (hc : CallOk cap tr s i c)
    (hcl : ∀ k, (pops tr)[k]? = some i → Claimed tr k c) : Inv cap tr (s.setCall i c) :=
  .of_shared h.toShared hc (fun j _ => h.call j) hcl fun k j _ => h.claimed k j

theorem Inv.setCall_unclaimed {c : Call α} (h : Inv cap tr s) (hi : (s.calls i).unclaimed = true)
    (hc : CallOk cap tr s i c) : Inv cap tr (s.setCall i c) :=
  h.setCall hc (h.claimed_of_unclaimed hi)

/-! ### The steps that change shared state -/

theorem Inv.claimPush (h : Inv cap tr s) (hi : s.calls i = .push item (.cas s.writePos)) :
    Inv cap (tr ++ [.pushed i s.writePos item])
      (State.setCall { s with writePos := s.writePos + 1 } i (.push item (.copy s.writePos))) := by
  have hcap := cap.ge_two
  have hseq : seqAt cap s s.writePos = s.writePos := by
    have := h.call i; rw [hi] at this; exact this.2 rfl
  have hroom := h.room hseq
  -- a current position is not in the slot being claimed unless its lap is over
  have hcur : ∀ {p}, cap.Current s.writePos p → seqAt cap s p ≠ p + cap.val → s.writePos + 1 ≤ p + cap.val := by
    intro p hp hne
    rcases Nat.lt_or_ge s.writePos (p + cap.val) with hlt | hge
    · exact hlt
    have heq : s.writePos = p + cap.val := Nat.le_antisymm hp.2 hge
    rw [heq, seqAt_congr (cap.slot_add p)] at hseq
    exact absurd hseq hne
  refine .of_shared ⟨?_, ?_, ?_, ?_, h.seq_lt, ?_, ?_⟩ ?_ ?_ ?_ ?_
  · show s.writePos + 1 = _
    simp [h.write]
  · show s.readPos = _
    simp [h.read]
  · show s.readPos ≤ s.writePos + 1
    have := h.read_le; omega
  · show s.writePos + 1 ≤ s.readPos + cap.val
    omega
  · intro p hp
    have hp1 : p < s.writePos + 1 := hp.1
    have hp2 : s.writePos + 1 ≤ p + cap.val := hp.2
    rcases Nat.lt_or_eq_of_le (Nat.le_of_lt_succ hp1) with hlt | rfl
    · rcases h.slot p ⟨hlt, by omega⟩ with h1 | ⟨h1, h2⟩ | h1
      · exact .inl h1
      · exact .inr (.inl ⟨h1, itemAt_append h2⟩)
      · exact .inr (.inr h1)
    · exact .inl ⟨hseq, h.read_le⟩
  · intro p hp hw
    exact h.fresh p hp (Nat.le_of_succ_le hw)
  · refine ⟨⟨Nat.lt_succ_self _, by show s.writePos + 1 ≤ s.writePos + cap.val; omega⟩, hseq, ?_⟩
    simp [h.write]
  · intro j hj
    refine (h.call j).frame (Nat.le_succ _) (Nat.le_refl _) (fun h1 => ?_) (fun _ h1 => h1) ?_
    · exact absurd h1 (Nat.succ_ne_self _)
    · intro q hq
      refine ⟨⟨Nat.lt_succ_of_lt hq.1.1, hcur hq.1 ?_⟩, rfl⟩
      rcases hq.2 with ⟨h1, -⟩ | ⟨h1, -⟩ <;> omega
  · intro k hk
    rw [pops_append, pops_pushed, List.append_nil] at hk
    exact (h.claimed_of_unclaimed (by rw [hi]; rfl) k hk).append
  · intro k j _ hk
    rw [pops_append, pops_pushed, List.append_nil] at hk
    exact (h.claimed k j hk).append

theorem Inv.claimPop (h : Inv cap tr s) (hi : s.calls i = .pop (.cas s.readPos)) :
    Inv cap (tr ++ [.popped i s.readPos])
      (State.setCall { s with readPos := s.readPos + 1 } i (.pop (.copy s.readPos))) := by
  have hseq : seqAt cap s s.readPos = s.readPos + 1 := by
    have := h.call i; rw [hi] at this; exact this.2 rfl
  obtain ⟨hcur, hitem⟩ := h.published hseq
  refine .of_shared ⟨?_, ?_, ?_, ?_, h.seq_lt, ?_, h.fresh⟩ ?_ ?_ ?_ ?_
  · show s.writePos = _
    simp [h.write]
  · show s.readPos + 1 = _
    simp [h.read]
  · show s.readPos + 1 ≤ s.writePos
    exact hcur.1
  · show s.writePos ≤ s.readPos + 1 + cap.val
    have := h.write_le; omega
  · intro p hp
    rcases h.slot p hp with ⟨h1, h2⟩ | ⟨h1, h2⟩ | ⟨h1, h2⟩
    · refine .inl ⟨h1, Nat.lt_of_le_of_ne h2 ?_⟩
      rintro rfl; omega
    · exact .inr (.inl ⟨h1, itemAt_append h2⟩)
    · exact .inr (.inr ⟨h1, Nat.lt_succ_of_lt h2⟩)
  · refine ⟨hcur, Nat.lt_succ_self _, hseq, ?_⟩
    simp [h.read]
  · intro j _
    refine (h.call j).frame (Nat.le_refl _) (Nat.le_succ _) (fun _ h1 => h1) (fun h1 => ?_) ?_
    · exact absurd h1 (Nat.succ_ne_self _)
    · exact fun q hq => ⟨hq.1, rfl⟩
  · intro k hk
    rw [pops_append, pops_popped] at hk
    rcases Nat.lt_or_ge k (pops tr).length with hlt | hge
    · rw [List.getElem?_append_left hlt] at hk
      exact (h.claimed_of_unclaimed (by rw [hi]; rfl) k hk).append
    · have hlen := (List.getElem?_eq_some_iff.1 hk).1
      rw [List.length_append, List.length_singleton] at hlen
      refine .inl ?_
      rw [h.read, Nat.le_antisymm (Nat.le_of_lt_succ hlen) hge]
  · intro k j hj hk
    rw [pops_append, pops_popped] at hk
    rcases Nat.lt_or_ge k (pops tr).length with hlt | hge
    · rw [List.getElem?_append_left hlt] at hk
      exact (h.claimed k j hk).append
    · rw [List.getElem?_append_right hge] at hk
      have := List.mem_of_getElem? hk
      rw [List.mem_singleton] at this
      exact absurd this hj

/-- A write of call `i` into the slot of `p`, the position it is in flight at, leaves the other
slots and the calls in flight there as they were. -/
theorem Inv.writeSlot {c : Call α} {f : Slot α → Slot α} (h : Inv cap tr s)
    (hi : Flying cap tr s i p) (hlt : (f (s.slots (cap.slot p))).sequence < 2 ^ 64)
    (hok : SlotOk cap tr (s.setSlot (cap.slot p) f) p)
    (hc : CallOk cap tr (s.setSlot (cap.slot p) f) i c)
    (hcl : ∀ k, (pops tr)[k]? = some i → Claimed tr k c) :
    Inv cap tr ((s.setSlot (cap.slot p) f).setCall i c) := by
  have hcap := cap.ge_two
  have hkeep : ∀ {q}, cap.slot q ≠ cap.slot p →
      (s.setSlot (cap.slot p) f).slots (cap.slot q) = s.slots (cap.slot q) := by
    intro q hq; simp [Function.update_of_ne hq]
  have hseq : ∀ {q}, cap.slot q ≠ cap.slot p →
      seqAt cap (s.setSlot (cap.slot p) f) q = seqAt cap s q := by
    intro q hq; rw [seqAt, seqAt, hkeep hq]
  have hown : seqAt cap s p = p ∨ (seqAt cap s p = p + 1 ∧ p < s.readPos) := by
    rcases hi.2 with ⟨h1, -⟩ | ⟨h1, h2, -⟩
    · exact .inl h1
    · exact .inr ⟨h1, h2⟩
  refine .of_shared ⟨h.write, h.read, h.read_le, h.write_le, ?_, ?_, ?_⟩ hc ?_ hcl
    fun k j _ hk => h.claimed k j hk
  · intro x
    by_cases hx : x = cap.slot p
    · subst hx; simpa using hlt
    · simpa [Function.update_of_ne hx] using h.seq_lt x
  · intro q hq
    by_cases hqp : cap.slot q = cap.slot p
    · obtain rfl := Capacity.Current.eq hq hi.1 hqp
      exact hok
    · have := h.slot q hq
      simp only [SlotOk, hseq hqp, hkeep hqp]
      exact this
  · intro q hq hw
    have hqp : cap.slot q ≠ cap.slot p := by
      intro heq
      have hw' : s.writePos ≤ q := hw
      have := Capacity.add_le_of_slot_eq heq.symm (Nat.lt_of_lt_of_le hi.1.1 hw')
      omega
    rw [hseq hqp]
    exact h.fresh q hq hw
  · intro j hj
    show CallOk cap tr (s.setSlot (cap.slot p) f) j (s.calls j)
    rw [← List.append_nil tr]
    refine (h.call j).frame (Nat.le_refl _) (Nat.le_refl _) ?_ ?_ ?_
    · intro _ h1
      have hqp : cap.slot s.writePos ≠ cap.slot p := by
        intro heq
        have hadd := hi.1.add_eq heq.symm
        rw [seqAt_congr heq, hadd] at h1
        omega
      rw [hseq hqp]; exact h1
    · intro _ h1
      have hqp : cap.slot s.readPos ≠ cap.slot p := by
        intro heq
        rw [seqAt_congr heq] at h1
        rcases hown with h2 | ⟨h2, h3⟩
        · have h4 : s.readPos + 1 = p := by omega
          have h5 := Capacity.add_le_of_slot_eq heq (by omega)
          omega
        · omega
      rw [hseq hqp]; exact h1
    · intro q hq
      exact ⟨hq.1, hkeep (hi.slot_ne hq hj)⟩

/-! ### Runs -/

omit [DecidableEq ι] in
theorem Shared.lt_of_bound (h : Shared cap tr s) (hb : (pushes tr).length < 2 ^ 63) :
    s.writePos < 2 ^ 63 ∧ s.readPos < 2 ^ 63 := by
  have := h.read_le
  rw [h.write] at this ⊢
  exact ⟨hb, by omega⟩

theorem Inv.pushStep {pc : PushPc} {s' : State ι α} {o : List (Event ι α)} (h : Inv cap tr s)
    (hi : s.calls i = .push item pc) (hb : (pushes (tr ++ o)).length < 2 ^ 63)
    (hs : pushStep cap s i item pc = some (s', o)) : Inv cap (tr ++ o) s' := by
  have hb' : (pushes tr).length < 2 ^ 63 := by
    rw [pushes_append, List.length_append] at hb; omega
  have hlt := h.lt_of_bound hb'
  have hok := h.call i
  rw [hi] at hok
  have hun : (s.calls i).unclaimed = true := by rw [hi]; rfl
  cases pc with
  | loadPos | reload =>
    obtain ⟨rfl, rfl⟩ := Prod.mk.inj (Option.some.inj hs)
    rw [List.append_nil]
    exact h.setCall_unclaimed hun (Nat.le_refl _)
  | loadSeq pos =>
    have hle : pos ≤ s.writePos := hok
    simp only [MpmcRingBuffer.pushStep] at hs
    split_ifs at hs with h0 hneg <;> obtain ⟨rfl, rfl⟩ := Prod.mk.inj (Option.some.inj hs) <;>
      rw [List.append_nil]
    · refine h.setCall_unclaimed hun ⟨hle, fun _ => ?_⟩
      exact (s64_sub_eq_zero (h.seq_lt _) (by omega)).1 h0
    · exact h.setCall_unclaimed hun trivial
    · exact h.setCall_unclaimed hun hle
  | cas pos =>
    simp only [MpmcRingBuffer.pushStep] at hs
    split_ifs at hs with hw <;> obtain ⟨rfl, rfl⟩ := Prod.mk.inj (Option.some.inj hs)
    · subst hw
      rw [u64_of_lt (by omega)]
      exact h.claimPush hi
    · rw [List.append_nil]
      exact h.setCall_unclaimed hun (Nat.le_refl _)
  | copy pos =>
    obtain ⟨hcur, hseq, hk⟩ := hok
    obtain ⟨rfl, rfl⟩ := Prod.mk.inj (Option.some.inj hs)
    rw [List.append_nil]
    have hseq' : seqAt cap (s.setSlot (cap.slot pos) fun x => { x with data := item }) pos = pos := by
      simpa [seqAt] using hseq
    refine h.writeSlot ⟨hcur, .inl ⟨hseq, item, hk⟩⟩ (h.seq_lt _) (.inl ⟨hseq', ?_⟩)
      ⟨hcur, hseq', hk, by simp⟩ (h.claimed_of_unclaimed hun)
    rcases h.slot pos hcur with ⟨-, h1⟩ | ⟨h1, -⟩ | ⟨h1, -⟩
    · exact h1
    · omega
    · have := cap.pos; omega
  | store pos =>
    obtain ⟨hcur, hseq, hk, hd⟩ := hok
    obtain ⟨rfl, rfl⟩ := Prod.mk.inj (Option.some.inj hs)
    rw [List.append_nil, u64_of_lt (by have := hcur.1; omega)]
    refine h.writeSlot ⟨hcur, .inl ⟨hseq, item, hk⟩⟩ (by have := hcur.1; simp only; omega)
      (.inr (.inl ⟨by simp [seqAt], ?_⟩)) trivial
      (h.claimed_of_unclaimed hun)
    simp [itemAt, hk, hd]
  | done => cases hs

theorem Inv.popStep {pc : PopPc α} {s' : State ι α} {o : List (Event ι α)} (h : Inv cap tr s)
    (hi : s.calls i = .pop pc) (hb : (pushes (tr ++ o)).length < 2 ^ 63)
    (hs : popStep cap s i pc = some (s', o)) : Inv cap (tr ++ o) s' := by
  have hb' : (pushes tr).length < 2 ^ 63 := by
    rw [pushes_append, List.length_append] at hb; omega
  have hlt := h.lt_of_bound hb'
  have hok := h.call i
  rw [hi] at hok
  have hcl : ∀ {k}, (pops tr)[k]? = some i → Claimed tr k (.pop pc) := by
    intro k hk
    rw [← hi]; exact h.claimed k i hk
  cases pc with
  | loadPos | reload =>
    obtain ⟨rfl, rfl⟩ := Prod.mk.inj (Option.some.inj hs)
    rw [List.append_nil]
    exact h.setCall_unclaimed (by rw [hi]; rfl) (Nat.le_refl _)
  | loadSeq pos =>
    have hle : pos ≤ s.readPos := hok
    have hun : (s.calls i).unclaimed = true := by rw [hi]; rfl
    simp only [MpmcRingBuffer.popStep] at hs
    split_ifs at hs with h0 hneg <;> obtain ⟨rfl, rfl⟩ := Prod.mk.inj (Option.some.inj hs) <;>
      rw [List.append_nil]
    · refine h.setCall_unclaimed hun ⟨hle, fun _ => ?_⟩
      rw [u64_of_lt (by omega)] at h0
      exact (s64_sub_eq_zero (h.seq_lt _) (by omega)).1 h0
    · exact h.setCall_unclaimed hun trivial
    · exact h.setCall_unclaimed hun hle
  | cas pos =>
    simp only [MpmcRingBuffer.popStep] at hs
    split_ifs at hs with hr <;> obtain ⟨rfl, rfl⟩ := Prod.mk.inj (Option.some.inj hs)
    · subst hr
      rw [u64_of_lt (by omega)]
      exact h.claimPop hi
    · rw [List.append_nil]
      exact h.setCall_unclaimed (by rw [hi]; rfl) (Nat.le_refl _)
  | copy pos =>
    obtain ⟨hcur, hr, hseq, hk⟩ := hok
    obtain ⟨rfl, rfl⟩ := Prod.mk.inj (Option.some.inj hs)
    rw [List.append_nil]
    refine h.setCall ⟨hcur, hr, hseq, hk, h.popping_item hcur hseq⟩ fun k hk' => ?_
    rcases hcl hk' with h1 | ⟨_, h1⟩ | ⟨_, h1, -⟩ <;> cases h1
    exact .inr (.inl ⟨_, rfl⟩)
  | store pos out =>
    obtain ⟨hcur, hr, hseq, hk, hitem⟩ := hok
    obtain ⟨rfl, rfl⟩ := Prod.mk.inj (Option.some.inj hs)
    have hcap := cap.le
    rw [List.append_nil, u64_of_lt (by omega)]
    refine h.writeSlot ⟨hcur, .inr ⟨hseq, hr, hk⟩⟩ (by simp only; omega)
      (.inr (.inr ⟨by simp [seqAt], hr⟩)) trivial fun k hk' => ?_
    rcases hcl hk' with h1 | ⟨_, h1⟩ | ⟨_, h1, -⟩ <;> cases h1
    exact .inr (.inr ⟨out, rfl, hitem⟩)
  | done => cases hs

theorem Inv.step {a : Act ι α} {s' : State ι α} {o : List (Event ι α)} (h : Inv cap tr s)
    (hb : (pushes (tr ++ o)).length < 2 ^ 63) (hs : step cap s a = some (s', o)) :
    Inv cap (tr ++ o) s' := by
  cases a with
  | callPush i item | callPop i | callSize i =>
    simp only [MpmcRingBuffer.step] at hs
    split at hs
    · rename_i hi
      obtain ⟨rfl, rfl⟩ := Prod.mk.inj (Option.some.inj hs)
      rw [List.append_nil]
      exact h.setCall_unclaimed (by rw [hi]; rfl) trivial
    · cases hs
  | run i =>
    simp only [MpmcRingBuffer.step] at hs
    split at hs
    · cases hs
    · exact h.pushStep ‹_› hb hs
    · exact h.popStep ‹_› hb hs
    · rename_i pc hi
      cases pc <;> simp only [sizeStep, reduceCtorEq, Option.some.injEq, Prod.mk.injEq] at hs
      all_goals
        obtain ⟨rfl, rfl⟩ := hs
        rw [List.append_nil]
        exact h.setCall_unclaimed (by rw [hi]; rfl) trivial
  | spurious i =>
    simp only [MpmcRingBuffer.step] at hs
    split at hs
    · rename_i hi
      obtain ⟨rfl, rfl⟩ := Prod.mk.inj (Option.some.inj hs)
      rw [List.append_nil]
      exact h.setCall_unclaimed (by rw [hi]; rfl) (Nat.le_refl _)
    · rename_i hi
      obtain ⟨rfl, rfl⟩ := Prod.mk.inj (Option.some.inj hs)
      rw [List.append_nil]
      exact h.setCall_unclaimed (by rw [hi]; rfl) (Nat.le_refl _)
    · cases hs

variable [Inhabited α]

omit [DecidableEq ι] in
theorem inv_init : Inv cap [] (init : State ι α) where
  write := rfl
  read := rfl
  read_le := Nat.le_refl _
  write_le := Nat.zero_le _
  seq_lt x := Nat.mod_lt _ (by decide)
  slot p hp := absurd hp.1 (Nat.not_lt_zero p)
  fresh p hp _ := by
    have := cap.lt
    show u64 (cap.slot p) = p
    rw [cap.slot_of_lt hp, u64_of_lt (by omega)]
  call _ := trivial
  claimed k i hk := by simp [pops] at hk

theorem inv_of_runs (h : (machine cap).Runs Machine.free tr s) (hb : (pushes tr).length < 2 ^ 63) :
    Inv cap tr s := by
  refine h.invariant_of (B := fun tr => (pushes tr).length < 2 ^ 63) (fun tr o hb => ?_) inv_init
    (fun tr s a s' o hb hi _ hs => hi.step hb hs) hb
  rw [pushes_append, List.length_append] at hb
  omega

end Lwipc.MpmcRingBuffer
