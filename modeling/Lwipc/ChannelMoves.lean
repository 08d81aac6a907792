import Lwipc.Channel

/-!
# What a step of the channel does

`Move` lists the ways through `step`, the ring's part of each given as a move of the ring, so that no
later proof unfolds `step`. Forgetting everything but the ring, the channel runs as `ShmRingBuffer`
does (`ring_of_runs`).
-/

namespace Lwipc.Channel

open LittleEndian SpmcRing

variable {ι L C S D : Type} [DecidableEq ι] [DecidableEq L] [DecidableEq C] [DecidableEq S]
  {cfg : Config ι C S D} {s s' : State cfg.lay ι L C S D} {tr o : List (Event cfg.lay ι C)}

/-- The cursor whose call takes the step, if it is not one of the publisher's. -/
def Act.cursor {lay : Layout} : Act lay ι L C → Option C
  | .makeCursor c | .tryReceive c _ _ | .check c | .read c _ | .recheck c | .popped c
  | .addDropped c | .addReceived c _ | .loadLatency c | .storeLatency c => some c
  | _ => none

/-- The accesses of `pop` in the middle of a call. -/
inductive Access {lay : Layout} : Act lay ι L C → C → PopAct lay.slotSize Byte → Prop
  | check (c : C) : Access (.check c) c .check
  | read (c : C) (i : Fin lay.slotSize) : Access (.read c i) c (.read i)
  | recheck (c : C) : Access (.recheck c) c .recheck

/-- The moves of the channel. -/
inductive Move (s : State cfg.lay ι L C S D) : Act cfg.lay ι L C → State cfg.lay ι L C S D →
    List (Event cfg.lay ι C) → Prop
  | publish {a : Act cfg.lay ι L C} (item : cfg.lay.Item) (ts : BitVec 64) (l : Option L)
      (r : SpmcRing.State Unit C cfg.lay.slotSize Byte)
      (o : List (SpmcRing.Event Unit C cfg.lay.slotSize Byte)) (ha : a.cursor = none)
      (hr : PushMove true cfg.cap s.ring ()
        (.push (slotOf cfg (u64 (s.loans.sequence cfg.me + 1)) item ts)) r o) :
    Move s a { s with ring := r, loans := LoanedSample.push s.loans cfg.me, resetting := l }
      (.publish item ts :: o.map .ring)
  | push (b : PushAct cfg.lay.slotSize Byte) (r : SpmcRing.State Unit C cfg.lay.slotSize Byte)
      (o : List (SpmcRing.Event Unit C cfg.lay.slotSize Byte)) (hb : ∀ item, b ≠ .push item)
      (hr : PushMove true cfg.cap s.ring () b r o) :
    Move s (.push b) { s with ring := r } (o.map .ring)
  | loans {a : Act cfg.lay ι L C} (x : LoanedSample.State ι L cfg.lay.Item) (l : Option L)
      (o : List (LoanedSample.Event ι cfg.lay.Item)) (ha : a.cursor = none)
      (hx : x.sequence cfg.me = s.loans.sequence cfg.me) :
    Move s a { s with loans := x, resetting := l } (o.map .loans)
  | makeCursor (c : C) (pos : Nat) (out : cfg.lay.Rep) (hc : s.ring.cons c = ⟨pos, out, .none⟩) :
    Move s (.makeCursor c) { s with ring := s.ring.setCons c ⟨s.ring.writePos, out, .idle⟩ }
      [.ring (.cursor c s.ring.writePos)]
  | tryReceive (c : C) (h : IPCHeader) (p : cfg.lay.Item) (x : Consumer cfg.lay.slotSize Byte)
      (o : List (SpmcRing.Event Unit C cfg.lay.slotSize Byte)) (hpc : (s.calls c).pc = .idle)
      (hx : PopMove cfg.cap s.ring.writePos s.ring.slots c (s.ring.cons c)
        (.pop (emptySlot cfg.lay)) x o) :
    Move s (.tryReceive c h p) (State.setCall { s with ring := s.ring.setCons c x } c
      ⟨(s.ring.cons c).pos, h, p, .popping⟩) (o.map .ring)
  | access {a : Act cfg.lay ι L C} (c : C) (b : PopAct cfg.lay.slotSize Byte) (x : Consumer cfg.lay.slotSize Byte)
      (o : List (SpmcRing.Event Unit C cfg.lay.slotSize Byte)) (ha : Access a c b)
      (hx : PopMove cfg.cap s.ring.writePos s.ring.slots c (s.ring.cons c) b x o) :
    Move s a { s with ring := s.ring.setCons c x } (o.map .ring)
  | failed (c : C) (pos : Nat) (out : cfg.lay.Rep) (hc : s.ring.cons c = ⟨pos, out, .ret false⟩) :
    Move s (.popped c) (State.setPc { s with ring := s.ring.setCons c ⟨pos, out, .idle⟩ } c .idle)
      [.ring (.ret c false pos out), s.returned c false]
  | skipped (c : C) (pos : Nat) (out : cfg.lay.Rep) (hc : s.ring.cons c = ⟨pos, out, .ret true⟩)
      (hgt : pos > u64 ((s.calls c).prePos + 1)) :
    Move s (.popped c)
      (State.setPc { s with ring := s.ring.setCons c ⟨pos, out, .idle⟩ } c .addDropped)
      [.ring (.ret c true pos out)]
  | next (c : C) (pos : Nat) (out : cfg.lay.Rep) (hc : s.ring.cons c = ⟨pos, out, .ret true⟩)
      (hle : pos ≤ u64 ((s.calls c).prePos + 1)) :
    Move s (.popped c) (State.assign { s with ring := s.ring.setCons c ⟨pos, out, .idle⟩ } c)
      [.ring (.ret c true pos out)]
  | addDropped (c : C) (hpc : (s.calls c).pc = .addDropped) :
    Move s (.addDropped c) ((s.setStats (cfg.owner c) { s.stats (cfg.owner c) with
      dropped := u64 ((s.stats (cfg.owner c)).dropped +
        ((s.ring.cons c).pos - (s.calls c).prePos - 1)) }).assign c) []
  | received (c : C) (now : BitVec 64) (lat : Nat) (hpc : (s.calls c).pc = .addReceived) :
    Move s (.addReceived c now) ((s.setStats (cfg.owner c) { s.stats (cfg.owner c) with
      received := u64 ((s.stats (cfg.owner c)).received + 1) }).setPc c (.loadLatency lat)) []
  | returned (c : C) (now : BitVec 64) (hpc : (s.calls c).pc = .addReceived) :
    Move s (.addReceived c now) ((s.setStats (cfg.owner c) { s.stats (cfg.owner c) with
      received := u64 ((s.stats (cfg.owner c)).received + 1) }).setPc c .idle) [s.returned c true]
  | loadLatency (c : C) (lat : Nat) (prev : D) (hpc : (s.calls c).pc = .loadLatency lat) :
    Move s (.loadLatency c) (s.setPc c (.storeLatency prev lat)) []
  | storeLatency (c : C) (prev : D) (lat : Nat) (avg : D)
      (hpc : (s.calls c).pc = .storeLatency prev lat) :
    Move s (.storeLatency c) ((s.setStats (cfg.owner c) { s.stats (cfg.owner c) with
      avgLatencyUs := avg }).setPc c .idle) [s.returned c true]

variable {a : Act cfg.lay ι L C}

omit [DecidableEq ι] [DecidableEq L] [DecidableEq S] in
theorem ringStep_prod {b : PushAct cfg.lay.slotSize Byte} (hs : ringStep s (.prod () b) = some (s', o)) :
    ∃ r o', PushMove true cfg.cap s.ring () b r o' ∧ s' = { s with ring := r } ∧ o = o'.map .ring := by
  unfold ringStep at hs
  obtain ⟨⟨r, o'⟩, hr, heq⟩ := Option.map_eq_some_iff.1 hs
  cases heq
  exact ⟨r, o', step_prod_eq_some.1 hr, rfl, rfl⟩

omit [DecidableEq ι] [DecidableEq L] [DecidableEq S] in
theorem ringStep_cons {c : C} {b : PopAct cfg.lay.slotSize Byte}
    (hs : ringStep s (.cons c b) = some (s', o)) :
    ∃ x o', PopMove cfg.cap s.ring.writePos s.ring.slots c (s.ring.cons c) b x o' ∧
      s' = { s with ring := s.ring.setCons c x } ∧ o = o'.map .ring := by
  unfold ringStep at hs
  obtain ⟨⟨r, o'⟩, hr, heq⟩ := Option.map_eq_some_iff.1 hs
  cases heq
  obtain ⟨x, hx, rfl⟩ := step_cons_eq_some.1 hr
  exact ⟨x, o', hx, rfl, rfl⟩

omit [DecidableEq L] in
theorem publish_of_item {item : cfg.lay.Item} {ts : BitVec 64} {l : Option L} (ha : a.cursor = none)
    (hs : publishItem s item ts l = some (s', o)) : Move s a s' o := by
  unfold publishItem at hs
  obtain ⟨-, hs⟩ := Option.ite_none_right_eq_some.1 hs
  obtain ⟨⟨s₁, o₁⟩, h1, heq⟩ := Option.map_eq_some_iff.1 hs
  obtain ⟨r, o', hr, rfl, rfl⟩ := ringStep_prod h1
  cases heq
  exact .publish item ts l r o' ha hr

theorem loans_of_step {b : LoanedSample.Act ι L cfg.lay.Item} (ha : a.cursor = none)
    (hb : ∀ i l, b = .publish i l → i ≠ cfg.me) (hs : loansStep s b = some (s', o)) : Move s a s' o := by
  unfold loansStep at hs
  obtain ⟨⟨x, o'⟩, hx, heq⟩ := Option.map_eq_some_iff.1 hs
  cases heq
  exact .loans x s.resetting o' ha (LoanedSample.sequence_of_step hb hx)

omit [DecidableEq L] in
theorem access_of_step {c : C} {b : PopAct cfg.lay.slotSize Byte} (ha : Access a c b)
    (hs : ringStep s (.cons c b) = some (s', o)) : Move s a s' o := by
  obtain ⟨x, o', hx, rfl, rfl⟩ := ringStep_cons hs
  exact .access c b x o' ha hx

theorem move_of_step (hs : step s a = some (s', o)) : Move s a s' o := by
  cases a with
  | publish item now => exact publish_of_item rfl hs
  | publishAt item ts => exact publish_of_item rfl hs
  | publishLoan l now =>
    simp only [step] at hs
    split at hs
    · cases hs
    · obtain ⟨-, hs⟩ := Option.ite_none_right_eq_some.1 hs
      cases hs
      exact .loans s.loans s.resetting [] rfl rfl
    · exact publish_of_item rfl hs
  | push b =>
    have hb : ∀ item, b ≠ .push item := by
      rintro item rfl
      cases hs
    have hr : ringStep s (.prod () b) = some (s', o) := by cases b <;> first | exact hs | cases hs
    obtain ⟨r, o', hmove, rfl, rfl⟩ := ringStep_prod hr
    exact .push b r o' hb hmove
  | reset =>
    simp only [step] at hs
    split at hs
    · obtain ⟨⟨s₁, o₁⟩, h1, heq⟩ := Option.map_eq_some_iff.1 hs
      unfold loansStep at h1
      obtain ⟨⟨x, o'⟩, hx, heq'⟩ := Option.map_eq_some_iff.1 h1
      cases heq'
      cases heq
      exact .loans x none o' rfl (LoanedSample.sequence_of_step (by simp) hx)
    · cases hs
  | loans b =>
    by_cases hb : ∃ i l, b = .publish i l
    · obtain ⟨i, l, rfl⟩ := hb
      obtain ⟨hg, hs⟩ := Option.ite_none_right_eq_some.1 hs
      exact loans_of_step rfl (by rintro j l' ⟨⟩; exact hg.2) hs
    · have hs : (if s.free then loansStep s b else none) = some (s', o) := by
        cases b <;> first | exact hs | exact absurd ⟨_, _, rfl⟩ hb
      obtain ⟨-, hs⟩ := Option.ite_none_right_eq_some.1 hs
      exact loans_of_step rfl (fun i l heq => absurd ⟨i, l, heq⟩ hb) hs
  | makeCursor c =>
    obtain ⟨x, o', hx, rfl, rfl⟩ := ringStep_cons hs
    generalize hc : s.ring.cons c = y at hx
    cases hx
    exact .makeCursor c _ _ hc
  | tryReceive c h p =>
    simp only [step] at hs
    split at hs
    · obtain ⟨⟨s₁, o₁⟩, h1, heq⟩ := Option.map_eq_some_iff.1 hs
      obtain ⟨x, o', hx, rfl, rfl⟩ := ringStep_cons h1
      cases heq
      exact .tryReceive c h p x o' ‹_› hx
    · cases hs
  | check c => exact access_of_step (.check c) hs
  | read c i => exact access_of_step (.read c i) hs
  | recheck c => exact access_of_step (.recheck c) hs
  | popped c =>
    simp only [step] at hs
    obtain ⟨⟨s₁, o₁⟩, h1, heq⟩ := Option.map_eq_some_iff.1 hs
    obtain ⟨x, o', hx, rfl, rfl⟩ := ringStep_cons h1
    generalize hc : s.ring.cons c = y at hx
    cases hx with
    | ret pos out ok =>
      cases ok with
      | false =>
        simp only [hc] at heq
        cases heq
        exact .failed c pos out hc
      | true =>
        simp only [hc] at heq
        split at heq <;> cases heq
        · exact .skipped c pos out hc ‹_›
        · exact .next c pos out hc (Nat.le_of_not_lt ‹_›)
  | addDropped c =>
    simp only [step] at hs
    split at hs <;> cases hs
    exact .addDropped c ‹_›
  | addReceived c now =>
    simp only [step] at hs
    split at hs
    · split at hs <;> cases hs
      · exact .received c now _ ‹_›
      · exact .returned c now ‹_›
    · cases hs
  | loadLatency c =>
    simp only [step] at hs
    split at hs <;> cases hs
    exact .loadLatency c _ _ ‹_›
  | storeLatency c =>
    simp only [step] at hs
    split at hs <;> cases hs
    exact .storeLatency c _ _ _ ‹_›

omit [DecidableEq ι] [DecidableEq L] [DecidableEq C] [DecidableEq S] in
theorem pc_of_access {c : C} {b : PopAct cfg.lay.slotSize Byte} {w : Nat}
    {slots : Nat → Slot cfg.lay.slotSize Byte} {x x' : Consumer cfg.lay.slotSize Byte}
    {o : List (SpmcRing.Event Unit C cfg.lay.slotSize Byte)} (ha : Access a c b)
    (hx : PopMove cfg.cap w slots c x b x' o) : x.pc ≠ .none ∧ x.pc ≠ .idle := by
  cases ha <;> cases hx <;> simp

omit [DecidableEq L] in
theorem other_of_move {c : C} (hm : Move s a s' o) (hc : a.cursor ≠ some c) :
    s'.ring.cons c = s.ring.cons c ∧ s'.calls c = s.calls c := by
  have hne : ∀ {c'}, some c' ≠ some c → c ≠ c' := fun h heq => h (congrArg some heq.symm)
  cases hm with
  | publish item ts l r o' ha hr | push b r o' hb hr => cases hr <;> exact ⟨rfl, rfl⟩
  | loans => exact ⟨rfl, rfl⟩
  | makeCursor => exact ⟨State.setCons_of_ne (hne hc), rfl⟩
  | access c' b x o' ha hx =>
    refine ⟨State.setCons_of_ne (hne ?_), rfl⟩
    cases ha <;> exact hc
  | tryReceive | failed | skipped | next =>
    exact ⟨State.setCons_of_ne (hne hc), Function.update_of_ne (hne hc) _ _⟩
  | addDropped | received | returned | loadLatency | storeLatency =>
    exact ⟨rfl, Function.update_of_ne (hne hc) _ _⟩

omit [DecidableEq L] in
theorem stats_of_move {σ : S} (hm : Move s a s' o)
    (hσ : ∀ c, a.cursor = some c → cfg.owner c ≠ σ) : s'.stats σ = s.stats σ := by
  cases hm with
  | addDropped c | received c | returned c | storeLatency c =>
    exact Function.update_of_ne (Ne.symm (hσ c rfl)) _ _
  | _ => rfl

/-! ### The ring of a channel -/

/-- What a history shows of the ring. -/
def ringEvents {lay : Layout} (tr : List (Event lay ι C)) :
    List (SpmcRing.Event Unit C lay.slotSize Byte) :=
  tr.filterMap fun | .ring e => some e | _ => none

section
variable {ι C : Type} {lay : Layout}

@[simp] theorem ringEvents_append (tr o : List (Event lay ι C)) :
    ringEvents (tr ++ o) = ringEvents tr ++ ringEvents o := List.filterMap_append

@[simp] theorem ringEvents_ring (o : List (SpmcRing.Event Unit C lay.slotSize Byte)) :
    ringEvents (o.map (Event.ring (ι := ι))) = o := by
  unfold ringEvents
  rw [List.filterMap_map]
  exact List.filterMap_some

@[simp] theorem ringEvents_loans (o : List (LoanedSample.Event ι lay.Item)) :
    ringEvents (C := C) (o.map .loans) = [] :=
  filterMap_map_eq_nil (fun _ => rfl) o

end

omit [DecidableEq L] in
theorem ring_step (hm : Move s a s' o) : (s'.ring = s.ring ∧ ringEvents o = []) ∨
    ∃ b, (ShmRingBuffer.machine cfg.cap).step s.ring b = some (s'.ring, ringEvents o) := by
  have hcons : ∀ {c b x o'},
      PopMove cfg.cap s.ring.writePos s.ring.slots c (s.ring.cons c) b x o' →
      (ShmRingBuffer.machine cfg.cap).step s.ring (.cons c b) = some (s.ring.setCons c x, o') :=
    fun hx => ShmRingBuffer.cons_step.2 ⟨_, hx, rfl⟩
  cases hm with
  | publish item ts l r o' ha hr =>
    have ho : ringEvents (ι := ι) (.publish item ts :: o'.map .ring) = o' := ringEvents_ring o'
    rw [ho]
    exact .inr ⟨_, ShmRingBuffer.prod_step.2 hr⟩
  | push b r o' hb hr =>
    rw [ringEvents_ring]
    exact .inr ⟨_, ShmRingBuffer.prod_step.2 hr⟩
  | loans x l o' ha hx => exact .inl ⟨rfl, ringEvents_loans o'⟩
  | makeCursor c pos out hc => exact .inr ⟨_, hcons (by rw [hc]; exact .makeCursor pos out)⟩
  | tryReceive c h p x o' hpc hx =>
    rw [ringEvents_ring]
    exact .inr ⟨_, hcons hx⟩
  | access c b x o' ha hx =>
    rw [ringEvents_ring]
    exact .inr ⟨_, hcons hx⟩
  | failed c pos out hc | skipped c pos out hc | next c pos out hc =>
    exact .inr ⟨_, hcons (by rw [hc]; exact .ret pos out _)⟩
  | addDropped | received | returned | loadLatency | storeLatency => exact .inl ⟨rfl, rfl⟩

theorem ring_of_runs {ok : List (Event cfg.lay ι C) → State cfg.lay ι L C S D → Act cfg.lay ι L C → Prop}
    (h : (machine cfg).Runs ok tr s) :
    (ShmRingBuffer.machine cfg.cap).Runs Machine.free (ringEvents tr) s.ring := by
  refine h.project (f := fun s => s.ring) (g := ringEvents) ?_ ?_ ringEvents_append ?_
  · rfl
  · rfl
  intro tr s a s' o _ _ hs
  rcases ring_step (move_of_step hs) with hstay | ⟨b, hb⟩
  · exact .inl hstay
  · exact .inr ⟨b, trivial, hb⟩

/-! ### A small channel -/

/-- One-byte payloads in a ring of two slots; one subscriber with one cursor. -/
def tiny : Config Unit Unit Unit Unit where
  cap := .two
  lay := ⟨1, by decide, 64, by decide, 65, by decide⟩
  msgType := 1
  sensorId := 2
  loans := ⟨fun _ => .publisher, fun _ => .two⟩
  me := ()
  owner _ := ()
  zero := ()
  smooth _ _ := ()

/-- The same with two cursors. -/
def tinyPair : Config Unit Bool Unit Unit := { tiny with owner := fun _ => () }

/-- What follows the `fetch_add` of a publish. -/
def tinyPush {C : Type} : List (Act tiny.lay Unit Unit C) :=
  [Act.push .mark] ++ (List.finRange 65).map (fun i => Act.push (.word i)) ++
    [Act.push .ready, .push (.beat 1)]

/-- All the steps of `publish(item, 0)`. -/
def tinyPublish {C : Type} (item : Byte) : List (Act tiny.lay Unit Unit C) :=
  .publishAt (fun _ => item) 0 :: tinyPush

/-- The steps of `try_receive` after its load of `write_pos`, up to a successful return of `pop`. -/
def tinyRead {C : Type} (c : C) : List (Act tiny.lay Unit Unit C) :=
  [Act.check c] ++ (List.finRange 65).map (fun i => Act.read c i) ++ [Act.recheck c, .popped c]

/-- The steps of `try_receive` up to a successful return of `pop`. -/
def tinyPop {C : Type} (c : C) : List (Act tiny.lay Unit Unit C) :=
  Act.tryReceive c .default (fun _ => 0) :: tinyRead c

end Lwipc.Channel
