import Lwipc.ChannelMoves

/-!
# The slot a cursor is fast-forwarded to

A `pop` whose cursor is more than `Capacity` positions behind puts it at `write_pos - Capacity`, the
oldest position the ring still holds, and the next position that the publisher claims takes this very
slot. Until the publisher marks it busy, the slot has the sequence that the `pop` expects: as long as
no such mark falls between the load of `write_pos` and the last load of the sequence
(`NotOverwritten`), a `pop` that has moved its cursor does not fail. `write_pos` may wrap on the way.
-/

namespace Lwipc.SpmcRing

variable {C : Type} {n : Nat} {W : Type} {cap : Capacity} {r r' : State Unit C n W} {pos : Nat}

/-- A `pop` after its load of `write_pos` and before its last load of the sequence. -/
def PopPc.reading : PopPc n → Bool
  | .loadSeq | .copy _ => true
  | _ => false

/-- With one producer: it is at the last position claimed, and the other current positions are
ready. -/
structure Written (cap : Capacity) (r : State Unit C n W) : Prop where
  write : r.writePos < 2 ^ 64
  last : ∀ pos ∈ (r.prod ()).position, pos < 2 ^ 64 ∧ r.writePos = u64 (pos + 1)
  ready : ∀ pos, cap.Current r.writePos pos → pos ∉ (r.prod ()).position →
    (r.slots (cap.slot pos)).sequence = expected pos

/-- The slot of `pos` is ready and not about to be written again. -/
def Held (cap : Capacity) (r : State Unit C n W) (pos : Nat) : Prop :=
  (r.slots (cap.slot pos)).sequence = expected pos ∧
    ∀ q item copied, r.prod () = .copy q item copied → cap.slot q ≠ cap.slot pos

theorem Written.current {q : Nat} (h : Written cap r) (hq : q ∈ (r.prod ()).position)
    (hw : 0 < r.writePos) : r.writePos = q + 1 ∧ cap.Current r.writePos q := by
  obtain ⟨hlt, heq⟩ := h.last q hq
  have hcap := cap.ge_two
  have hsucc : r.writePos = q + 1 := by
    unfold u64 at heq
    omega
  exact ⟨hsucc, by omega, by omega⟩

/-- A store of the producer leaves the slots of the other current positions alone. -/
theorem Written.slot_ne {q : Nat} (h : Written cap r) (hq : q ∈ (r.prod ()).position)
    (hpos : cap.Current r.writePos pos) (hne : pos ≠ q) : cap.slot pos ≠ cap.slot q := by
  obtain ⟨-, hcur⟩ := h.current hq (Nat.lt_of_le_of_lt (Nat.zero_le _) hpos.1)
  exact fun heq => hne (hpos.eq hcur heq)

/-- A store of a push into the slot it is in flight at, after which it is still in flight. -/
theorem Written.store {q : Nat} {pc : PushPc n W} {f : Slot n W → Slot n W} (h : Written cap r)
    (hq : (r.prod ()).position = some q) (hpc : pc.position = some q) :
    Written cap ((r.setSlot (cap.slot q) f).setProd () pc) := by
  refine ⟨h.write, fun pos hpos => ?_, fun pos hcur hpos => ?_⟩
  · rw [State.setProd_self, hpc, ← hq] at hpos
    exact h.last pos hpos
  · rw [State.setProd_self, hpc, ← hq] at hpos
    have hne : pos ≠ q := by
      rintro rfl
      exact hpos hq
    show (Function.update r.slots _ _ (cap.slot pos)).sequence = _
    rw [Function.update_of_ne (h.slot_ne hq hcur hne)]
    exact h.ready pos hcur hpos

theorem Written.push {b : PushAct n W} {o : List (Event Unit C n W)} (h : Written cap r)
    (hm : PushMove true cap r () b r' o) : Written cap r' := by
  cases hm with
  | claim item hp =>
    refine ⟨Nat.mod_lt _ (Nat.two_pow_pos 64), fun pos hpos => ?_, fun pos hcur hpos => ?_⟩
    · rw [State.setProd_self] at hpos
      obtain rfl : r.writePos = pos := by simpa [PushPc.position] using hpos
      exact ⟨h.write, rfl⟩
    · rw [State.setProd_self] at hpos
      have hne : r.writePos ≠ pos := by simpa [PushPc.position] using hpos
      -- when `write_pos` wraps to zero, no position is current any more
      obtain ⟨hlt, hle⟩ : pos < u64 (r.writePos + 1) ∧ u64 (r.writePos + 1) ≤ pos + cap.val := hcur
      have hw := h.write
      unfold u64 at hlt hle
      exact h.ready pos ⟨by omega, by omega⟩ (by rw [hp]; simp [PushPc.position])
  | mark q item hp => exact h.store (by rw [hp]; rfl) rfl
  | word q item copied i hp => exact h.store (by rw [hp]; rfl) rfl
  | ready q item copied hp hall =>
    have hq : q ∈ (r.prod ()).position := by rw [hp]; rfl
    refine ⟨h.write, fun pos hpos => ?_, fun pos hcur _ => ?_⟩
    · rw [State.setProd_self] at hpos
      simp [PushPc.position] at hpos
    · show (Function.update r.slots _ _ (cap.slot pos)).sequence = _
      by_cases hne : pos = q
      · subst hne
        rw [Function.update_self]
        rfl
      · rw [Function.update_of_ne (h.slot_ne hq hcur hne)]
        exact h.ready pos hcur (by rw [hp]; simpa [PushPc.position] using Ne.symm hne)
  | beat q now hp =>
    refine ⟨h.write, fun pos hpos => ?_, fun pos hcur _ => ?_⟩
    · rw [State.setProd_self] at hpos
      simp [PushPc.position] at hpos
    · exact h.ready pos hcur (by rw [hp]; simp [PushPc.position])

/-- The position a cursor is fast-forwarded to. -/
theorem Written.held (h : Written cap r) (hlt : cap.val < r.writePos) :
    Held cap r (r.writePos - cap.val) := by
  have hcap := cap.ge_two
  have hcur : cap.Current r.writePos (r.writePos - cap.val) := ⟨by omega, by omega⟩
  have hne : ∀ q ∈ (r.prod ()).position, r.writePos - cap.val ≠ q := by
    intro q hq
    have := (h.current hq (by omega)).1
    omega
  refine ⟨h.ready _ hcur fun hmem => hne _ hmem rfl, fun q item copied hp => ?_⟩
  have hq : q ∈ (r.prod ()).position := by rw [hp]; rfl
  exact (h.slot_ne hq hcur (hne q hq)).symm

/-- A store of a push into another slot. -/
theorem Held.store {q : Nat} {pc : PushPc n W} {f : Slot n W → Slot n W} (h : Held cap r pos)
    (hne : cap.slot q ≠ cap.slot pos) (hpc : ∀ q' item copied, pc = .copy q' item copied → q' = q) :
    Held cap ((r.setSlot (cap.slot q) f).setProd () pc) pos := by
  refine ⟨?_, fun q' item copied hq => ?_⟩
  · show (Function.update r.slots _ _ (cap.slot pos)).sequence = _
    rw [Function.update_of_ne hne.symm]
    exact h.1
  · rw [State.setProd_self] at hq
    rw [hpc q' item copied hq]
    exact hne

theorem Held.push {b : PushAct n W} {o : List (Event Unit C n W)} (h : Held cap r pos)
    (hb : b = .mark → ∀ q ∈ (r.prod ()).position, cap.slot q ≠ cap.slot pos)
    (hm : PushMove true cap r () b r' o) : Held cap r' pos := by
  cases hm with
  | claim item hp =>
    refine ⟨h.1, fun q item' copied hq => ?_⟩
    rw [State.setProd_self] at hq
    cases hq
  | mark q item hp =>
    refine h.store (hb rfl q (by rw [hp]; rfl)) fun q' item' copied heq => ?_
    cases heq
    rfl
  | word q item copied i hp =>
    refine h.store (h.2 q item copied hp) fun q' item' copied' heq => ?_
    cases heq
    rfl
  | ready q item copied hp hall =>
    refine h.store (h.2 q item copied hp) fun q' item' copied' heq => ?_
    cases heq
  | beat q now hp =>
    refine ⟨h.1, fun q' item' copied' hq => ?_⟩
    rw [State.setProd_self] at hq
    cases hq

end Lwipc.SpmcRing

namespace Lwipc.Channel

open LittleEndian SpmcRing

variable {ι L C S D : Type} {cfg : Config ι C S D} {s s' : State cfg.lay ι L C S D}
  {tr o : List (Event cfg.lay ι C)} {a : Act cfg.lay ι L C} {c : C}

/-- The call on `c` is between its load of `write_pos` and its last load of the sequence, and its
cursor is no longer where the call found it. -/
def Forwarded (s : State cfg.lay ι L C S D) (c : C) : Prop :=
  (s.ring.cons c).pc.reading = true ∧ (s.ring.cons c).pos ≠ (s.calls c).prePos

/-- The publisher marks no slot busy that a call has been fast-forwarded to. -/
def NotOverwritten (cfg : Config ι C S D) (_ : List (Event cfg.lay ι C)) (s : State cfg.lay ι L C S D) :
    Act cfg.lay ι L C → Prop
  | .push .mark => ∀ pos ∈ (s.ring.prod ()).position, ∀ c, Forwarded s c →
    cfg.cap.slot pos ≠ cfg.cap.slot (s.ring.cons c).pos
  | _ => True

instance [Fintype C] (cfg : Config ι C S D) (tr : List (Event cfg.lay ι C))
    (s : State cfg.lay ι L C S D) : DecidablePred (NotOverwritten cfg tr s)
  | .push .mark =>
    inferInstanceAs (Decidable (∀ pos ∈ (s.ring.prod ()).position, ∀ c,
      ((s.ring.cons c).pc.reading = true ∧ (s.ring.cons c).pos ≠ (s.calls c).prePos) →
        cfg.cap.slot pos ≠ cfg.cap.slot (s.ring.cons c).pos))
  | .push (.push _) | .push (.word _) | .push .ready | .push (.beat _) | .publish _ _ | .publishAt _ _
  | .publishLoan _ _ | .reset | .loans _ | .makeCursor _ | .tryReceive _ _ _ | .check _ | .read _ _
  | .recheck _ | .popped _ | .addDropped _ | .addReceived _ _ | .loadLatency _ | .storeLatency _ =>
    inferInstanceAs (Decidable True)

/-- What a call that has been fast-forwarded can rely on. -/
structure Kept (s : State cfg.lay ι L C S D) : Prop where
  written : Written cfg.cap s.ring
  held : ∀ c, Forwarded s c → Held cfg.cap s.ring (s.ring.cons c).pos

variable [DecidableEq ι] [DecidableEq L] [DecidableEq C] [DecidableEq S]

/-- A call is fast-forwarded when its load of `write_pos` finds the cursor more than `Capacity`
positions behind, and then to the slot of the next position to be claimed. -/
theorem forwarded_iff {h : IPCHeader} {p : cfg.lay.Item} (hs : step s (.tryReceive c h p) = some (s', o)) :
    (Forwarded s' c ↔ (s.ring.cons c).pos + cfg.cap.val < s.ring.writePos) ∧
      (Forwarded s' c → (s'.ring.cons c).pos + cfg.cap.val = s.ring.writePos) := by
  cases move_of_step hs with
  | publish _ _ _ _ _ ha | loans _ _ _ ha => cases ha
  | access _ _ _ _ ha => cases ha
  | tryReceive _ _ _ x o' hpc hx =>
    unfold Forwarded
    simp only [State.setCall, State.setCons_self, Function.update_self]
    generalize s.ring.cons c = y at hx
    cases hx with
    | nothingNew pos old out hle =>
      simp only [PopPc.reading, Bool.false_eq_true, false_and, false_iff, false_implies, and_true]
      omega
    | forward pos old out hlt =>
      simp only [PopPc.reading, true_and, fastForward]
      split <;> omega

omit [DecidableEq ι] [DecidableEq L] [DecidableEq C] [DecidableEq S] in
/-- The push keeps what the calls rely on. -/
theorem Kept.push {b : PushAct cfg.lay.slotSize Byte} {r : SpmcRing.State Unit C cfg.lay.slotSize Byte}
    {o' : List (SpmcRing.Event Unit C cfg.lay.slotSize Byte)} (h : Kept s)
    (hok : b = .mark → ∀ pos ∈ (s.ring.prod ()).position, ∀ c, Forwarded s c →
      cfg.cap.slot pos ≠ cfg.cap.slot (s.ring.cons c).pos) (hm : PushMove true cfg.cap s.ring () b r o')
    (hring : s'.ring = r) (hcalls : s'.calls = s.calls) : Kept s' := by
  have hcons : r.cons = s.ring.cons := by cases hm <;> rfl
  refine ⟨by rw [hring]; exact h.written.push hm, fun c hc => ?_⟩
  unfold Forwarded at hc
  rw [hring, hcons, hcalls] at hc
  rw [hring, hcons]
  exact (h.held c hc).push (fun hb q hq => hok hb q hq c hc) hm

omit [DecidableEq L] in
/-- The step of a call keeps what the calls rely on, when it does so on its own cursor. -/
theorem Kept.cursor (h : Kept s) (hm : Move s a s' o) (hcur : a.cursor = some c)
    (hwrite : s'.ring.writePos = s.ring.writePos) (hprod : s'.ring.prod = s.ring.prod)
    (hslots : s'.ring.slots = s.ring.slots)
    (hself : Forwarded s' c → Held cfg.cap s.ring (s'.ring.cons c).pos) : Kept s' := by
  have hheld : ∀ {pos}, Held cfg.cap s.ring pos → Held cfg.cap s'.ring pos := by
    intro pos hpos
    unfold Held
    rw [hslots, hprod]
    exact hpos
  refine ⟨⟨?_, ?_, ?_⟩, fun c' hc' => ?_⟩
  · rw [hwrite]; exact h.written.write
  · rw [hwrite, hprod]; exact h.written.last
  · rw [hwrite, hprod, hslots]; exact h.written.ready
  by_cases hne : c' = c
  · subst hne
    exact hheld (hself hc')
  · obtain ⟨hcons, hcalls⟩ := other_of_move (c := c') hm (by rw [hcur]; simpa using Ne.symm hne)
    unfold Forwarded at hc'
    rw [hcons, hcalls] at hc'
    rw [hcons]
    exact hheld (h.held c' hc')

theorem Kept.step (h : Kept s) (hok : NotOverwritten cfg tr s a) (hs : step s a = some (s', o)) :
    Kept s' := by
  cases move_of_step hs with
  | publish item ts l r o' ha hr => exact h.push (fun heq => by cases heq) hr rfl rfl
  | push b r o' hb hr =>
    refine h.push (fun hmark => ?_) hr rfl rfl
    rw [hmark] at hok
    exact hok
  | loans => exact ⟨h.written, h.held⟩
  | tryReceive c hdr p x o' hpc hx =>
    obtain ⟨hiff, hpos⟩ := forwarded_iff hs
    refine h.cursor (move_of_step hs) rfl rfl rfl rfl fun hf => ?_
    have hlt := hiff.1 hf
    have hheld := h.written.held (Nat.lt_of_le_of_lt (Nat.le_add_left _ _) hlt)
    rwa [← hpos hf, Nat.add_sub_cancel] at hheld
  | access c b x o' ha hx =>
    have hcur : a.cursor = some c := by cases ha <;> rfl
    refine h.cursor (move_of_step hs) hcur rfl rfl rfl fun hf => ?_
    -- a call that goes on reading was reading at this position before
    unfold Forwarded at hf
    simp only [State.setCons_self] at hf ⊢
    have hheld := h.held c
    unfold Forwarded at hheld
    generalize s.ring.cons c = y at hx hheld
    cases ha <;> cases hx <;> first | exact hheld ⟨rfl, hf.2⟩ | exact absurd hf.1 Bool.false_ne_true
  | makeCursor c | failed c | skipped c | next c =>
    refine h.cursor (move_of_step hs) rfl rfl rfl rfl fun hf => ?_
    have hpc := hf.1
    simp [State.setPc, State.assign, State.setCall, PopPc.reading] at hpc
  | addDropped c | received c | returned c | loadLatency c | storeLatency c =>
    refine h.cursor (move_of_step hs) rfl rfl rfl rfl fun hf => h.held c ⟨hf.1, ?_⟩
    simpa [State.setPc, State.assign, State.setCall, State.setStats] using hf.2

theorem kept_of_runs (h : (machine cfg).Runs (NotOverwritten cfg) tr s) : Kept s := by
  refine h.invariant (I := fun _ s => Kept s) ⟨⟨Nat.two_pow_pos 64, ?_, ?_⟩, ?_⟩ ?_
  · intro pos hpos
    simp [machine, init, SpmcRing.init, PushPc.position] at hpos
  · intro pos hcur
    exact absurd hcur.1 (Nat.not_lt_zero pos)
  · intro c hf
    exact absurd hf.1 Bool.false_ne_true
  · intro tr s a s' o h hok hs
    exact h.step hok hs

end Lwipc.Channel
