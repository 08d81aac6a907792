import Lwipc.ChannelMoves

/-!
# What a subscriber receives

The publisher's `sequence_`, the ring's `write_pos` and the cursor are three counters of the same
thing: the `k`-th publish fills a header with sequence `k` and obtains position `k - 1`, so the slot
that `pop` returned at cursor `k` is the one of that publish. A call that returns false has written
nothing but its cursor.
-/

namespace Lwipc.Channel

open LittleEndian SpmcRing

variable {ι L C S D : Type} {cfg : Config ι C S D}

/-- The items that reached the ring, in order, with their timestamps. -/
def published {lay : Layout} (tr : List (Event lay ι C)) : List (lay.Item × BitVec 64) :=
  tr.filterMap fun | .publish item ts => some (item, ts) | _ => none

/-- The bytes of a payload, by offset, as a receiver passes them to the constructor of `IPCMessage`. -/
def bytesOf {lay : Layout} (item : lay.Item) (k : Nat) : Byte :=
  if hk : k < lay.size then item ⟨k, hk⟩ else 0

/-- The message that a receiver builds from what it received. -/
def messageOf {lay : Layout} (header : IPCHeader) (payload : lay.Item) : IPCMessage :=
  .new header (some (bytesOf payload)) (BitVec.ofNat 32 lay.size)

/-- Header and payload, received with the cursor at `pos`, are those of the publish whose number the
header gives. -/
structure Intact (cfg : Config ι C S D) (tr : List (Event cfg.lay ι C)) (pos : Nat) (header : IPCHeader)
    (payload : cfg.lay.Item) : Prop where
  sequence : header.sequence.toNat = pos
  positive : 0 < pos
  item : (published tr)[header.sequence.toNat - 1]? = some (payload, header.timestampNs)
  msgType : header.msgType = cfg.msgType
  sensorId : header.sensorId = cfg.sensorId
  valid : header.valid = true
  rebuilt : (messageOf header payload).header = header
  verified : (messageOf header payload).verifyChecksum = true

/-! ### The two ways to fill a header -/

theorem copied_bytesOf {lay : Layout} (item : lay.Item) :
    IPCMessage.copied (some (bytesOf item)) (BitVec.ofNat 32 lay.size) = List.ofFn item := by
  have hsize : (BitVec.ofNat 32 lay.size).toNat = lay.size := by
    rw [BitVec.toNat_ofNat, Nat.mod_eq_of_lt lay.size_lt]
  unfold IPCMessage.copied
  refine List.ext_getElem (by simp [hsize]) fun k h1 h2 => ?_
  rw [List.length_ofFn] at h2
  simp [bytesOf, h2]

/-- Over no bytes at all the CRC is zero, which is what `compute_checksum` returns then. -/
theorem computeChecksum_eq (data : List Byte) : IPCMessage.computeChecksum data = crc32Update 0 data := by
  unfold IPCMessage.computeChecksum
  split
  · rename_i hnil
    rw [hnil]
    decide
  · rfl

theorem intact_slot {tr : List (Event cfg.lay ι C)} {pos : Nat} {item : cfg.lay.Item} {ts : BitVec 64}
    (hpos : 0 < pos) (hlt : pos < 2 ^ 64) (hitem : (published tr)[pos - 1]? = some (item, ts)) :
    Intact cfg tr pos (Layout.header (slotOf cfg pos item ts)) (Layout.payload (slotOf cfg pos item ts)) := by
  have hsum : IPCMessage.computeChecksum
      (IPCMessage.copied (some (bytesOf item)) (BitVec.ofNat 32 cfg.lay.size)) =
        (headerOf cfg pos item ts).checksum := by
    rw [copied_bytesOf, computeChecksum_eq]
    rfl
  have hseq : (headerOf cfg pos item ts).sequence.toNat = pos := by
    show (BitVec.ofNat 64 pos).toNat = pos
    rw [BitVec.toNat_ofNat, Nat.mod_eq_of_lt hlt]
  unfold slotOf
  rw [Layout.header_encode, Layout.payload_encode]
  refine ⟨hseq, hpos, ?_, rfl, rfl, rfl, ?_, ?_⟩
  · rw [hseq]
    exact hitem
  · unfold messageOf IPCMessage.new
    rw [hsum]
    rfl
  · unfold messageOf IPCMessage.verifyChecksum IPCMessage.new
    simp

/-! ### The counters agree -/

/-- A call past `pop` has a slot of the ring, and past the assignments its members too. -/
def SlotOk {lay : Layout} (claims : List lay.Rep) (x : Consumer lay.slotSize Byte) (k : Call lay D) : Prop :=
  match k.pc with
  | .idle | .popping => True
  | .addDropped => x.pc = .idle ∧ 0 < x.pos ∧ claims[x.pos - 1]? = some x.out
  | _ => x.pc = .idle ∧ 0 < x.pos ∧ claims[x.pos - 1]? = some x.out ∧ k.header = Layout.header x.out ∧
      k.payload = Layout.payload x.out

structure Integrity (tr : List (Event cfg.lay ι C)) (s : State cfg.lay ι L C S D) : Prop where
  sequence : s.loans.sequence cfg.me = u64 (published tr).length
  claims : claims (ringEvents tr) = (published tr).mapIdx fun k x => slotOf cfg (u64 (k + 1)) x.1 x.2
  slot : ∀ c, SlotOk (SpmcRing.claims (ringEvents tr)) (s.ring.cons c) (s.calls c)

/-- The publishes have been counted and claimed in order. -/
structure Numbered (tr : List (Event cfg.lay ι C)) (s : State cfg.lay ι L C S D) : Prop where
  sequence : s.loans.sequence cfg.me = u64 (published tr).length
  claims : claims (ringEvents tr) = (published tr).mapIdx fun k x => slotOf cfg (u64 (k + 1)) x.1 x.2

variable {tr o : List (Event cfg.lay ι C)} {s s' : State cfg.lay ι L C S D}

theorem published_append : published (tr ++ o) = published tr ++ published o := List.filterMap_append

theorem Integrity.length_claims (h : Integrity tr s) :
    (SpmcRing.claims (ringEvents tr)).length = (published tr).length := by
  rw [h.claims, List.length_mapIdx]

theorem SlotOk.append {lay : Layout} {l l' : List lay.Rep} {x : Consumer lay.slotSize Byte}
    {k : Call lay D} (h : SlotOk l x k) : SlotOk (l ++ l') x k := by
  unfold SlotOk at h ⊢
  split at h
  · trivial
  · trivial
  · exact ⟨h.1, h.2.1, getElem?_append_of_some h.2.2⟩
  · exact ⟨h.1, h.2.1, getElem?_append_of_some h.2.2.1, h.2.2.2⟩

theorem Integrity.intact {pos : Nat} {out : cfg.lay.Rep} (h : Integrity tr s)
    (hb : (published tr).length < 2 ^ 63) (hpos : 0 < pos)
    (hout : (SpmcRing.claims (ringEvents tr))[pos - 1]? = some out) :
    Intact cfg tr pos (Layout.header out) (Layout.payload out) := by
  rw [h.claims, List.getElem?_mapIdx] at hout
  obtain ⟨⟨item, ts⟩, hitem, rfl⟩ := Option.map_eq_some_iff.1 hout
  have hlt := (List.getElem?_eq_some_iff.1 hitem).1
  rw [Nat.sub_add_cancel hpos, u64_of_lt (by omega)]
  exact intact_slot hpos (by omega) hitem

theorem Intact.append {pos : Nat} {header : IPCHeader} {payload : cfg.lay.Item}
    (h : Intact cfg tr pos header payload) : Intact cfg (tr ++ o) pos header payload :=
  ⟨h.sequence, h.positive, by rw [published_append]; exact getElem?_append_of_some h.item, h.msgType,
    h.sensorId, h.valid, h.rebuilt, h.verified⟩

/-- A call that is outside its cursor's `pop`, or has not come back from it, has no slot yet. -/
theorem SlotOk.of_ne_idle {lay : Layout} {l l' : List lay.Rep} {x x' : Consumer lay.slotSize Byte}
    {k : Call lay D} (h : SlotOk l x k) (hx : x.pc ≠ .idle) : SlotOk l' x' k := by
  unfold SlotOk at h ⊢
  split at h
  · trivial
  · trivial
  · exact absurd h.1 hx
  · exact absurd h.1 hx

theorem published_ring (o : List (SpmcRing.Event Unit C cfg.lay.slotSize Byte)) :
    published (o.map (Event.ring (ι := ι))) = [] :=
  filterMap_map_eq_nil (fun _ => rfl) o

theorem published_loans (o : List (LoanedSample.Event ι cfg.lay.Item)) :
    published (o.map (Event.loans (C := C))) = [] :=
  filterMap_map_eq_nil (fun _ => rfl) o

theorem Numbered.frame (h : Numbered tr s)
    (hseq : s'.loans.sequence cfg.me = s.loans.sequence cfg.me) (hpub : published o = [])
    (hcl : SpmcRing.claims (ringEvents o) = []) : Numbered (tr ++ o) s' := by
  have hp : published (tr ++ o) = published tr := by rw [published_append, hpub, List.append_nil]
  have hc : SpmcRing.claims (ringEvents (tr ++ o)) = SpmcRing.claims (ringEvents tr) := by
    rw [ringEvents_append, claims_append, hcl, List.append_nil]
  exact ⟨by rw [hseq, hp]; exact h.sequence, by rw [hc, hp]; exact h.claims⟩

variable [DecidableEq C]

theorem slot_update {c : C} {x' : Consumer cfg.lay.slotSize Byte} {k' : Call cfg.lay D}
    {l : List cfg.lay.Rep} (h : ∀ c, SlotOk l (s.ring.cons c) (s.calls c)) (hok : SlotOk l x' k') (c' : C) :
    SlotOk l (Function.update s.ring.cons c x' c') (Function.update s.calls c k' c') := by
  by_cases hne : c' = c
  · subst hne
    rw [Function.update_self, Function.update_self]
    exact hok
  · rw [Function.update_of_ne hne, Function.update_of_ne hne]
    exact h c'

theorem slot_ring {c : C} {x' : Consumer cfg.lay.slotSize Byte} {l : List cfg.lay.Rep}
    (h : ∀ c, SlotOk l (s.ring.cons c) (s.calls c)) (hpc : (s.ring.cons c).pc ≠ .idle) (c' : C) :
    SlotOk l (Function.update s.ring.cons c x' c') (s.calls c') := by
  by_cases hne : c' = c
  · subst hne
    rw [Function.update_self]
    exact (h c').of_ne_idle hpc
  · rw [Function.update_of_ne hne]
    exact h c'

theorem slot_call {c : C} {k' : Call cfg.lay D} {l : List cfg.lay.Rep}
    (h : ∀ c, SlotOk l (s.ring.cons c) (s.calls c)) (hok : SlotOk l (s.ring.cons c) k') (c' : C) :
    SlotOk l (s.ring.cons c') (Function.update s.calls c k' c') := by
  by_cases hne : c' = c
  · subst hne
    rw [Function.update_self]
    exact hok
  · rw [Function.update_of_ne hne]
    exact h c'

variable [DecidableEq ι] [DecidableEq L] [DecidableEq S]

theorem Numbered.step {a : Act cfg.lay ι L C} (h : Numbered tr s) (hs : step s a = some (s', o)) :
    Numbered (tr ++ o) s' := by
  cases move_of_step hs with
  | publish item ts l r o' ha hr =>
    cases hr
    have hp : published (tr ++ .publish item ts :: [.ring (.claim () s.ring.writePos
        (slotOf cfg (u64 (s.loans.sequence cfg.me + 1)) item ts))]) = published tr ++ [(item, ts)] :=
      published_append
    have hu : u64 (u64 (published tr).length + 1) = u64 ((published tr).length + 1) := by
      unfold u64
      omega
    refine ⟨?_, ?_⟩
    · show Function.update s.loans.sequence cfg.me (u64 (s.loans.sequence cfg.me + 1)) cfg.me = _
      rw [Function.update_self, List.map_singleton, hp, List.length_append, h.sequence, hu]
      rfl
    · rw [List.map_singleton, hp, ringEvents_append, claims_append, h.claims, List.mapIdx_append,
        h.sequence, hu]
      rw [show ringEvents _ = [.claim () s.ring.writePos _] from rfl]
      simp
  | push b r o' hb hr =>
    refine h.frame rfl (published_ring o') ?_
    rw [ringEvents_ring]
    cases hr with
    | claim item => exact absurd rfl (hb item)
    | mark | word | ready | beat => rfl
  | loans x l o' ha hx => exact h.frame hx (published_loans o') (by rw [ringEvents_loans]; rfl)
  | tryReceive c hdr p x o' hpc hx =>
    refine h.frame rfl (published_ring o') ?_
    rw [ringEvents_ring]
    exact hx.claims_eq
  | access c b x o' ha hx =>
    refine h.frame rfl (published_ring o') ?_
    rw [ringEvents_ring]
    exact hx.claims_eq
  | makeCursor | failed | skipped | next | addDropped | received | loadLatency | returned
  | storeLatency => exact h.frame rfl rfl rfl

theorem Integrity.step {a : Act cfg.lay ι L C} (h : Integrity tr s) (hi : Inv cfg.cap (ringEvents tr) s.ring)
    (hs : step s a = some (s', o)) : Integrity (tr ++ o) s' := by
  have hnum : Numbered (tr ++ o) s' := (⟨h.sequence, h.claims⟩ : Numbered tr s).step hs
  suffices hslot : ∀ c, SlotOk (SpmcRing.claims (ringEvents tr)) (s'.ring.cons c) (s'.calls c) by
    refine ⟨hnum.sequence, hnum.claims, fun c => ?_⟩
    rw [ringEvents_append, claims_append]
    exact (hslot c).append
  -- what `pop` has copied when it returns true
  have htrue : ∀ {c pos out}, s.ring.cons c = ⟨pos, out, .ret true⟩ →
      0 < pos ∧ (SpmcRing.claims (ringEvents tr))[pos - 1]? = some out := by
    intro c pos out hc
    have hok := (hi.cons c).2
    rw [hc] at hok
    exact hok
  cases move_of_step hs with
  | publish item ts l r o' ha hr | push b r o' hb hr =>
    have hcons : r.cons = s.ring.cons := by cases hr <;> rfl
    intro c
    rw [hcons]
    exact h.slot c
  | loans x l o' ha hx => exact h.slot
  | makeCursor c pos out hc => exact slot_ring h.slot (by rw [hc]; simp)
  | tryReceive c hdr p x o' hpc hx => exact slot_update h.slot trivial
  | access c b x o' ha hx => exact slot_ring h.slot (pc_of_access ha hx).2
  | failed c pos out hc => exact slot_update h.slot trivial
  | skipped c pos out hc hgt =>
    obtain ⟨hpos, hout⟩ := htrue hc
    exact slot_update h.slot ⟨rfl, hpos, hout⟩
  | next c pos out hc hle =>
    obtain ⟨hpos, hout⟩ := htrue hc
    have hself : (s.ring.setCons c ⟨pos, out, .idle⟩).cons c = ⟨pos, out, .idle⟩ := State.setCons_self _ _ _
    refine slot_update h.slot ⟨rfl, hpos, hout, ?_, ?_⟩
    all_goals simp only [hself]
  | addDropped c hpc =>
    have hok := h.slot c
    unfold SlotOk at hok
    rw [hpc] at hok
    obtain ⟨h1, h2, h3⟩ := hok
    exact slot_call h.slot ⟨h1, h2, h3, rfl, rfl⟩
  | received c now lat hpc | loadLatency c lat prev hpc =>
    have hok := h.slot c
    unfold SlotOk at hok
    rw [hpc] at hok
    exact slot_call h.slot hok
  | returned c now hpc | storeLatency c prev lat avg hpc => exact slot_call h.slot trivial

theorem numbered_of_runs
    {ok : List (Event cfg.lay ι C) → State cfg.lay ι L C S D → Act cfg.lay ι L C → Prop}
    (h : (machine cfg).Runs ok tr s) : Numbered tr s :=
  h.invariant (I := Numbered) ⟨rfl, rfl⟩ fun _ _ _ _ _ ih _ hs => ih.step hs

omit [DecidableEq C] [DecidableEq ι] [DecidableEq L] [DecidableEq S] in
theorem integrity_init : Integrity [] (init cfg : State cfg.lay ι L C S D) :=
  ⟨rfl, rfl, fun _ => trivial⟩

theorem integrity_of_runs
    {ok : List (Event cfg.lay ι C) → State cfg.lay ι L C S D → Act cfg.lay ι L C → Prop}
    (h : (machine cfg).Runs ok tr s) (hb : (published tr).length < 2 ^ 63) : Integrity tr s := by
  induction h with
  | init => exact integrity_init
  | @step tr s s' a o hr _ hs ih =>
    have hb' : (published tr).length < 2 ^ 63 := by
      rw [published_append, List.length_append] at hb; omega
    have hi := ih hb'
    exact hi.step (ShmRingBuffer.inv (ring_of_runs hr) (by rw [hi.length_claims]; exact hb')) hs

/-! ### Returns -/

omit [DecidableEq L] in
/-- A return of `try_receive` shows the objects of the call as they are, and whether it is true or
false depends on where the call stands. -/
theorem ret_of_move {a : Act cfg.lay ι L C} {c : C} {ok : Bool} {pos : Nat} {header : IPCHeader}
    {payload : cfg.lay.Item} (hm : Move s a s' o) (hr : .ret c ok pos header payload ∈ o) :
    (pos = (s.ring.cons c).pos ∧ header = (s.calls c).header ∧ payload = (s.calls c).payload) ∧
    s'.calls c = { s.calls c with pc := .idle } ∧
    (ok = true ∧ ((s.calls c).pc = .addReceived ∨ ∃ prev lat, (s.calls c).pc = .storeLatency prev lat) ∨
      ok = false ∧ (s.ring.cons c).pc = .ret false ∧ s'.stats = s.stats) := by
  have hself : ∀ k : Call cfg.lay D, Function.update s.calls c k c = k :=
    fun k => Function.update_self _ _ _
  cases hm with
  | publish | push | loans | tryReceive | access => simp at hr
  | makeCursor | skipped | next | addDropped | received | loadLatency => simp at hr
  | failed c' p out hc =>
    have heq : Event.ret c ok pos header payload = s.returned c' false := by simpa using hr
    cases heq
    exact ⟨⟨rfl, rfl, rfl⟩, hself _, .inr ⟨rfl, by rw [hc], rfl⟩⟩
  | returned c' now hpc =>
    cases List.mem_singleton.1 hr
    exact ⟨⟨rfl, rfl, rfl⟩, hself _, .inl ⟨rfl, .inl hpc⟩⟩
  | storeLatency c' prev lat avg hpc =>
    cases List.mem_singleton.1 hr
    exact ⟨⟨rfl, rfl, rfl⟩, hself _, .inl ⟨rfl, .inr ⟨prev, lat, hpc⟩⟩⟩

theorem intact_of_ret {c : C} {pos : Nat} {header : IPCHeader} {payload : cfg.lay.Item}
    (h : (machine cfg).Runs Machine.free tr s) (hb : (published tr).length < 2 ^ 63)
    (hr : .ret c true pos header payload ∈ tr) : Intact cfg tr pos header payload := by
  induction h with
  | init => cases hr
  | @step tr s s' a o hrun _ hs ih =>
    have hb' : (published tr).length < 2 ^ 63 := by
      rw [published_append, List.length_append] at hb; omega
    rcases List.mem_append.1 hr with hr | hr
    · exact (ih hb' hr).append
    · obtain ⟨⟨rfl, rfl, rfl⟩, -, ⟨-, hpc⟩ | ⟨hf, -⟩⟩ := ret_of_move (move_of_step hs) hr
      · have hi := integrity_of_runs hrun hb'
        have hok := hi.slot c
        unfold SlotOk at hok
        have hslot : 0 < (s.ring.cons c).pos ∧
            (SpmcRing.claims (ringEvents tr))[(s.ring.cons c).pos - 1]? = some (s.ring.cons c).out ∧
            (s.calls c).header = Layout.header (s.ring.cons c).out ∧
            (s.calls c).payload = Layout.payload (s.ring.cons c).out := by
          rcases hpc with hpc | ⟨prev, lat, hpc⟩ <;> rw [hpc] at hok <;> exact hok.2
        obtain ⟨hpos, hout, hh, hp⟩ := hslot
        rw [hh, hp]
        exact (hi.intact hb' hpos hout).append
      · cases hf

/-! ### Calls that return false -/

/-- The call on `c` has come back from `pop` with true and has not returned. -/
def Past (c : C) (s : State cfg.lay ι L C S D) : Prop :=
  (s.calls c).pc ≠ .idle ∧ (s.calls c).pc ≠ .popping ∧ (s.ring.cons c).pc = .idle

/-- While a call that started with these objects is going on: it is in `pop` and has not assigned them,
or it is past `pop`. -/
def Pending (c : C) (header : IPCHeader) (payload : cfg.lay.Item) (s : State cfg.lay ι L C S D) : Prop :=
  (s.calls c).pc = .popping ∧ (s.calls c).header = header ∧ (s.calls c).payload = payload ∨ Past c s

/-- None of those of the actions that are on `c` changes any statistics. -/
def KeepsStats (c : C) : State cfg.lay ι L C S D → List (Act cfg.lay ι L C) → Prop
  | _, [] => True
  | s, a :: acts => ∀ s' o, step s a = some (s', o) →
    (a.cursor = some c → s'.stats = s.stats) ∧ KeepsStats c s' acts

omit [DecidableEq L] in
theorem Past.move {a : Act cfg.lay ι L C} {c : C} (h : Past c s) (hm : Move s a s' o)
    (hr : ∀ ok pos hdr p, .ret c ok pos hdr p ∉ o) : Past c s' := by
  by_cases hc : a.cursor = some c
  · obtain ⟨hidle, hpop, hcons⟩ := h
    cases hm with
    | publish item ts l r o' hn | loans x l o' hn => rw [hn] at hc; cases hc
    | push => cases hc
    | makeCursor c' pos out hpc | failed c' pos out hpc | skipped c' pos out hpc | next c' pos out hpc =>
      cases hc
      rw [hpc] at hcons
      cases hcons
    | tryReceive c' hdr p x o' hpc =>
      cases hc
      exact absurd hpc hidle
    | access c' b x o' hacc hx =>
      obtain rfl : c' = c := by cases hacc <;> exact Option.some.inj hc
      exact absurd hcons (pc_of_access hacc hx).2
    | addDropped c' | received c' | loadLatency c' =>
      cases hc
      refine ⟨?_, ?_, hcons⟩ <;> simp [State.assign, State.setPc, State.setCall]
    | returned | storeLatency =>
      cases hc
      exact absurd (List.mem_singleton_self _) (hr true _ _ _)
  · obtain ⟨hcons, hcall⟩ := other_of_move hm hc
    unfold Past
    rw [hcons, hcall]
    exact h

omit [DecidableEq L] in
theorem Pending.move {a : Act cfg.lay ι L C} {c : C} {header : IPCHeader} {payload : cfg.lay.Item}
    (h : Pending c header payload s) (hm : Move s a s' o)
    (hr : ∀ ok pos hdr p, .ret c ok pos hdr p ∉ o) : Pending c header payload s' := by
  rcases h with h | h
  · by_cases hc : a.cursor = some c
    · cases hm with
      | publish item ts l r o' hn | loans x l o' hn => rw [hn] at hc; cases hc
      | push => cases hc
      | makeCursor | access => exact .inl h
      | failed c' pos out hpc =>
        cases hc
        exact absurd (by simp [State.returned]) (hr false (s.ring.cons c).pos (s.calls c).header
          (s.calls c).payload)
      | skipped c' | next c' =>
        cases hc
        refine .inr ⟨?_, ?_, ?_⟩ <;> simp [State.assign, State.setPc, State.setCall]
      | tryReceive c' hdr p x o' hpc | addDropped c' hpc | received c' now lat hpc
      | returned c' now hpc | loadLatency c' lat prev hpc | storeLatency c' prev lat avg hpc =>
        cases hc
        rw [h.1] at hpc
        cases hpc
    · obtain ⟨-, hcall⟩ := other_of_move hm hc
      unfold Pending
      rw [hcall]
      exact .inl h
  · exact .inr (h.move hm hr)

omit [DecidableEq L] in
theorem stats_of_popping {a : Act cfg.lay ι L C} {c : C} (hm : Move s a s' o) (hc : a.cursor = some c)
    (hpc : (s.calls c).pc = .popping) : s'.stats = s.stats := by
  cases hm with
  | addDropped c' h | received c' now lat h | returned c' now h | storeLatency c' prev lat avg h =>
    cases hc
    rw [hpc] at h
    cases h
  | _ => rfl

theorem exec_until_ret {I : State cfg.lay ι L C S D → Prop} {acts : List (Act cfg.lay ι L C)} {c : C}
    (hI : ∀ s a s' o, I s → Move s a s' o → (∀ ok pos hdr p, .ret c ok pos hdr p ∉ o) → I s')
    (h : I s) (he : (machine cfg).exec s acts = some (s', o))
    (hr : ∀ ok pos hdr p, .ret c ok pos hdr p ∉ o) : I s' := by
  induction acts generalizing s o with
  | nil =>
    cases he
    exact h
  | cons a acts ih =>
    obtain ⟨s₁, o₁, o₂, hs, he', rfl⟩ := Machine.exec_cons_eq_some.1 he
    simp only [List.mem_append, not_or] at hr
    exact ih (hI s a s₁ o₁ h (move_of_step hs) fun ok pos hdr p => (hr ok pos hdr p).1) he'
      fun ok pos hdr p => (hr ok pos hdr p).2

theorem keepsStats_of_failing {acts : List (Act cfg.lay ι L C)} {c : C} {header : IPCHeader}
    {payload : cfg.lay.Item} (h : Pending c header payload s)
    (he : (machine cfg).exec s acts = some (s', o)) (hr : ∀ ok pos hdr p, .ret c ok pos hdr p ∉ o)
    (hf : (s'.ring.cons c).pc = .ret false) : KeepsStats c s acts := by
  induction acts generalizing s o with
  | nil => trivial
  | cons a acts ih =>
    -- past `pop` the cursor would still be idle at the end
    have hpop : (s.calls c).pc = .popping := by
      rcases h with h | h
      · exact h.1
      · have hpast : Past c s' := exec_until_ret (fun _ _ _ _ h1 hm h2 => Past.move h1 hm h2) h he hr
        rw [hpast.2.2] at hf
        cases hf
    obtain ⟨s₁, o₁, o₂, hs, he', rfl⟩ := Machine.exec_cons_eq_some.1 he
    simp only [List.mem_append, not_or] at hr
    intro s₁' o₁' hs'
    cases hs.symm.trans hs'
    exact ⟨fun hc => stats_of_popping (move_of_step hs) hc hpop, ih (h.move (move_of_step hs)
      fun ok pos hdr p => (hr ok pos hdr p).1) he' fun ok pos hdr p => (hr ok pos hdr p).2⟩

theorem KeepsStats.append {acts acts' : List (Act cfg.lay ι L C)} {c : C} (h : KeepsStats c s acts)
    (he : (machine cfg).exec s acts = some (s', o)) (h' : KeepsStats c s' acts') :
    KeepsStats c s (acts ++ acts') := by
  induction acts generalizing s o with
  | nil =>
    cases he
    exact h'
  | cons a acts ih =>
    obtain ⟨s₁, o₁, o₂, hs, he', rfl⟩ := Machine.exec_cons_eq_some.1 he
    intro s₁' o₁' hs'
    cases hs.symm.trans hs'
    exact ⟨(h s₁ o₁ hs).1, ih (h s₁ o₁ hs).2 he'⟩

theorem KeepsStats.stats_eq {acts : List (Act cfg.lay ι L C)} {c : C} (h : KeepsStats c s acts)
    (halone : ∀ a ∈ acts, ∀ c', a.cursor = some c' → cfg.owner c' = cfg.owner c → c' = c)
    (he : (machine cfg).exec s acts = some (s', o)) :
    s'.stats (cfg.owner c) = s.stats (cfg.owner c) := by
  induction acts generalizing s o with
  | nil =>
    cases he
    rfl
  | cons a acts ih =>
    obtain ⟨s₁, o₁, o₂, hs, he', rfl⟩ := Machine.exec_cons_eq_some.1 he
    rw [ih (h s₁ o₁ hs).2 (fun b hb => halone b (List.mem_cons_of_mem _ hb)) he']
    by_cases hc : a.cursor = some c
    · rw [(h s₁ o₁ hs).1 hc]
    · exact stats_of_move (move_of_step hs) fun c' h2 h3 =>
        hc (by rw [h2, halone a List.mem_cons_self c' h2 h3])

/-- In every run of fewer than `2 ^ 63` publishes, what a `try_receive` that returned true gave is what
the publish with the number in its header published, with the publisher's type and sensor, and its
header is the one that the constructor of `IPCMessage` computes. In every run, a call that returns
false leaves `header` and `payload` as they were and changes no statistics; those of its subscriber
are what they were at its start unless another call on one of the subscriber's cursors ran meanwhile. -/
theorem end_to_end_integrity (cfg : Config ι C S D) (tr : List (Event cfg.lay ι C))
    (s : State cfg.lay ι L C S D) (h : (machine cfg).Runs Machine.free tr s) :
    ((published tr).length < 2 ^ 63 → ∀ c pos header payload, .ret c true pos header payload ∈ tr →
      Intact cfg tr pos header payload) ∧
    ∀ c header payload s₁ o₁, (machine cfg).step s (.tryReceive c header payload) = some (s₁, o₁) →
      ∀ acts s₂ o₂, (machine cfg).exec s₁ acts = some (s₂, o₂) →
        (∀ ok pos header' payload', .ret c ok pos header' payload' ∉ o₂) →
      ∀ a s₃ o₃ pos header' payload', (machine cfg).step s₂ a = some (s₃, o₃) →
        .ret c false pos header' payload' ∈ o₃ →
        (header' = header ∧ payload' = payload) ∧
        ((s₃.calls c).header = header ∧ (s₃.calls c).payload = payload) ∧
        KeepsStats c s (.tryReceive c header payload :: acts ++ [a]) ∧
        ((∀ b ∈ acts, ∀ c', b.cursor = some c' → cfg.owner c' = cfg.owner c → c' = c) →
          s₃.stats (cfg.owner c) = s.stats (cfg.owner c)) := by
  refine ⟨fun hb c pos header payload hr => intact_of_ret h hb hr, ?_⟩
  intro c header payload s₁ o₁ h1 acts s₂ o₂ he hno a s₃ o₃ pos header' payload' h3 hr
  obtain ⟨hstart, hstats₁⟩ : Pending c header payload s₁ ∧ s₁.stats = s.stats := by
    have hm : Move s (.tryReceive c header payload) s₁ o₁ := move_of_step h1
    generalize hb : Act.tryReceive c header payload = b at hm
    cases hm with
    | tryReceive c' hdr p x o' hpc hx =>
      cases hb
      exact ⟨.inl (by simp [State.setCall]), rfl⟩
    | publish item ts l r o' hn | loans x l o' hn => rw [← hb] at hn; cases hn
    | access c' b' x o' hacc => cases hacc <;> cases hb
    | _ => cases hb
  obtain ⟨⟨-, rfl, rfl⟩, hcalls, ⟨hf, -⟩ | ⟨-, hpc, hstats₃⟩⟩ := ret_of_move (move_of_step h3) hr
  · cases hf
  have hend : Pending c header payload s₂ :=
    exec_until_ret (fun _ _ _ _ h1 hm h2 => Pending.move h1 hm h2) hstart he hno
  obtain ⟨hh, hp⟩ : (s₂.calls c).header = header ∧ (s₂.calls c).payload = payload := by
    rcases hend with ⟨-, hh, hp⟩ | ⟨-, -, hidle⟩
    · exact ⟨hh, hp⟩
    · rw [hpc] at hidle
      cases hidle
  have hkeeps : KeepsStats c s₁ acts := keepsStats_of_failing hstart he hno hpc
  rw [hcalls]
  refine ⟨⟨hh, hp⟩, ⟨hh, hp⟩, ?_, fun halone => ?_⟩
  · intro s₁' o₁' hs'
    cases h1.symm.trans hs'
    refine ⟨fun _ => hstats₁, hkeeps.append he ?_⟩
    intro s₃' o₃' hs'
    cases h3.symm.trans hs'
    exact ⟨fun _ => hstats₃, trivial⟩
  · rw [hstats₃, hkeeps.stats_eq halone he, hstats₁]

/-- What the calls that returned true left: the cursor and the bytes of the payload. -/
def receipts {lay : Layout} (tr : List (Event lay ι C)) : List (Nat × List Byte) :=
  tr.filterMap fun | .ret _ true pos _ payload => some (pos, List.ofFn payload) | _ => none

omit [DecidableEq C] [DecidableEq ι] in
theorem ret_of_receipts {lay : Layout} {tr : List (Event lay ι C)} {pos : Nat} {b : List Byte}
    (h : (pos, b) ∈ receipts tr) :
    ∃ c header payload, .ret c true pos header payload ∈ tr ∧ List.ofFn payload = b := by
  obtain ⟨e, he, heq⟩ := List.mem_filterMap.1 h
  rcases e with _ | _ | _ | ⟨c, _ | _, pos', header, payload⟩ <;> simp at heq
  obtain ⟨rfl, rfl⟩ := heq
  exact ⟨c, header, payload, he, rfl⟩

set_option maxRecDepth 8000 in
/-- A `publish(item, 0)`, a `publish` of a loan at time 7, two calls that receive them and a third one
that finds nothing. -/
theorem end_to_end_integrity_loan :
    ∃ (tr : List (Event tiny.lay Unit Unit)) (s s₁ s₂ : State tiny.lay Unit Unit Unit Unit Unit)
      (o₁ o₂ : List (Event tiny.lay Unit Unit)) (header : IPCHeader) (payload : tiny.lay.Item),
      (machine tiny).Runs Machine.free tr s ∧ .ret () true 2 header payload ∈ tr ∧
      List.ofFn payload = [9] ∧ Intact tiny tr 2 header payload ∧
      (machine tiny).step s (.tryReceive () .default fun _ => 3) = some (s₁, o₁) ∧
      (machine tiny).step s₁ (.popped ()) = some (s₂, o₂) ∧
      (s₂.calls ()).header = .default ∧ (s₂.calls ()).payload = (fun _ => 3) ∧
      s₂.stats () = s.stats () := by
  let M : Machine (State tiny.lay Unit Unit Unit Unit Unit) (Act tiny.lay Unit Unit Unit)
    (Event tiny.lay Unit Unit) := machine tiny
  let acts : List (Act tiny.lay Unit Unit Unit) :=
    [Act.makeCursor ()] ++ tinyPublish 5 ++
      [Act.loans (.loan () ()), .loans (.fill () fun _ => 9), .publishLoan () 7] ++ tinyPush ++
      [Act.reset] ++ tinyPop () ++ [Act.addReceived () 8] ++ tinyPop () ++ [Act.addReceived () 6]
  have hexec : (M.exec M.init acts).map (fun r => (receipts r.2, (published r.2).length,
      (M.step r.1 (.tryReceive () .default fun _ => 3)).bind fun r₁ =>
        (M.step r₁.1 (.popped ())).map fun r₂ => r₂.2.getLast?)) =
      some ([(1, [5]), (2, [9])], 2, some (some (.ret () false 2 .default fun _ => 3))) := by
    decide +kernel
  obtain ⟨tr, s, hr, hend⟩ := Machine.Runs.exists_of_exec hexec
  simp only [Prod.mk.injEq] at hend
  obtain ⟨hrec, hlen, hfalse⟩ := hend
  obtain ⟨⟨s₁, o₁⟩, h1, hfalse⟩ := Option.bind_eq_some_iff.1 hfalse
  obtain ⟨⟨s₂, o₂⟩, h2, hlast⟩ := Option.map_eq_some_iff.1 hfalse
  obtain ⟨_, header, payload, hret, hbytes⟩ := ret_of_receipts (show (2, [9]) ∈ receipts tr by simp [hrec])
  obtain ⟨htrue, hunchanged⟩ := end_to_end_integrity tiny tr s hr
  obtain ⟨-, ⟨hh, hp⟩, -, hst⟩ := hunchanged () _ _ s₁ o₁ h1 [] s₁ [] rfl (by simp) _ s₂ o₂ 2 _ _ h2
    (List.mem_of_getLast? hlast)
  exact ⟨tr, s, s₁, s₂, o₁, o₂, header, payload, hr, hret, hbytes,
    htrue (by rw [hlen]; decide) () 2 _ _ hret, h1, h2, hh, hp, hst (by simp)⟩

/-! ### A reader that sleeps through `2 ^ 63` publishes -/

theorem step_ring {a : Act cfg.lay ι L C} {b : SpmcRing.Act Unit C cfg.lay.slotSize Byte}
    {r : SpmcRing.State Unit C cfg.lay.slotSize Byte}
    {o : List (SpmcRing.Event Unit C cfg.lay.slotSize Byte)} (hab : step s a = ringStep s b)
    (hs : (ShmRingBuffer.machine cfg.cap).step s.ring b = some (r, o)) :
    (machine cfg).step s a = some ({ s with ring := r }, o.map .ring) := by
  have hs : SpmcRing.step true cfg.cap s.ring b = some (r, o) := hs
  show step s a = _
  rw [hab]
  unfold ringStep
  rw [hs]
  rfl

theorem exec_ring {β : Type} {l : List β} {f : β → Act cfg.lay ι L C}
    {g : β → SpmcRing.Act Unit C cfg.lay.slotSize Byte}
    {r : SpmcRing.State Unit C cfg.lay.slotSize Byte}
    {o : List (SpmcRing.Event Unit C cfg.lay.slotSize Byte)}
    (hfg : ∀ x ∈ l, ∀ s : State cfg.lay ι L C S D, step s (f x) = ringStep s (g x))
    (he : (ShmRingBuffer.machine cfg.cap).exec s.ring (l.map g) = some (r, o)) :
    (machine cfg).exec s (l.map f) = some ({ s with ring := r }, o.map .ring) := by
  induction l generalizing s o with
  | nil =>
    obtain ⟨rfl, rfl⟩ : s.ring = r ∧ [] = o := by simpa using he
    rfl
  | cons x l ih =>
    obtain ⟨r₁, o₁, o₂, h1, h2, rfl⟩ := Machine.exec_cons_eq_some.1 he
    rw [List.map_cons, Machine.exec_cons (step_ring (hfg x (by simp) s) h1),
      ih (fun y hy => hfg y (by simp [hy])) h2]
    simp

/-- A publish, by whichever overload, whose thread is not interrupted. -/
theorem exec_item {a : Act cfg.lay ι L C} {l : Option L} {item : cfg.lay.Item} {ts : BitVec 64}
    (hr : s.resetting = none) (hp : s.ring.prod () = .idle) (ha : step s a = publishItem s item ts l) :
    ∃ s' o, (machine cfg).exec s (a :: (ShmRingBuffer.pushBody cfg.lay.slotSize Byte).map .push) =
        some (s', o) ∧ s'.resetting = l ∧ s'.ring.prod () = .idle ∧ s'.ring.cons = s.ring.cons ∧
      s'.calls = s.calls ∧ s'.loans = LoanedSample.push s.loans cfg.me ∧
      s'.ring.writePos = u64 (s.ring.writePos + 1) ∧
      s'.ring.slots (cfg.cap.slot s.ring.writePos) = ⟨u64 (s.ring.writePos * 2 + 1),
        slotOf cfg (u64 (s.loans.sequence cfg.me + 1)) item ts⟩ := by
  obtain ⟨r, o, hclaim, hmark, hcons, hw, hslots⟩ : ∃ r o, SpmcRing.step true cfg.cap s.ring (.prod ()
      (.push (slotOf cfg (u64 (s.loans.sequence cfg.me + 1)) item ts))) = some (r, o) ∧
      r.prod () = .mark s.ring.writePos (slotOf cfg (u64 (s.loans.sequence cfg.me + 1)) item ts) ∧
      r.cons = s.ring.cons ∧ r.writePos = u64 (s.ring.writePos + 1) ∧ r.slots = s.ring.slots :=
    ⟨_, _, step_prod_eq_some.2 (.claim _ hp), State.setProd_self _ _ _, rfl, rfl, rfl⟩
  obtain ⟨s₁, hs, hring, hcalls, hres, hloans⟩ : ∃ s₁, (machine cfg).step s a =
      some (s₁, .publish item ts :: o.map .ring) ∧ s₁.ring = r ∧ s₁.calls = s.calls ∧
      s₁.resetting = l ∧ s₁.loans = LoanedSample.push s.loans cfg.me := by
    refine ⟨{ s with ring := r, loans := LoanedSample.push s.loans cfg.me, resetting := l }, ?_,
      rfl, rfl, rfl, rfl⟩
    show step s a = _
    rw [ha]
    unfold publishItem ringStep
    rw [hr, hclaim]
    rfl
  rw [← hring] at hmark
  obtain ⟨r', o', he, hidle, hcons', hw', hslots'⟩ := ShmRingBuffer.exec_pushBody cfg.cap hmark
  have hpush : ∀ a ∈ ShmRingBuffer.pushBody cfg.lay.slotSize Byte,
      ∀ s : State cfg.lay ι L C S D, step s (.push a) = ringStep s (.prod () a) := by
    intro a ha s
    unfold ShmRingBuffer.pushBody at ha
    cases a with
    | push item => simp at ha
    | _ => rfl
  refine ⟨_, _, Machine.exec_cons_eq_some.2 ⟨_, _, _, hs, exec_ring hpush he, rfl⟩, hres, hidle, ?_,
    hcalls, hloans, ?_, ?_⟩
  · exact hcons'.trans (hring ▸ hcons)
  · exact hw'.trans (hring ▸ hw)
  · show r'.slots _ = _
    rw [hslots', Function.update_self]

/-- The `publish` with a timestamp. -/
theorem exec_publish (hr : s.resetting = none) (hp : s.ring.prod () = .idle) (item : cfg.lay.Item)
    (ts : BitVec 64) :
    ∃ acts s' o, (machine cfg).exec s acts = some (s', o) ∧ s'.resetting = none ∧
      s'.ring.prod () = .idle ∧ s'.ring.cons = s.ring.cons ∧ s'.calls = s.calls ∧
      s'.loans.sequence cfg.me = u64 (s.loans.sequence cfg.me + 1) ∧
      s'.ring.writePos = u64 (s.ring.writePos + 1) ∧
      s'.ring.slots (cfg.cap.slot s.ring.writePos) = ⟨u64 (s.ring.writePos * 2 + 1),
        slotOf cfg (u64 (s.loans.sequence cfg.me + 1)) item ts⟩ := by
  obtain ⟨s', o, he, hr', hp', hcons, hcalls, hloans, hw, hslot⟩ :=
    exec_item hr hp (a := .publishAt item ts) rfl
  refine ⟨_, s', o, he, hr', hp', hcons, hcalls, ?_, hw, hslot⟩
  rw [hloans]
  exact Function.update_self _ _ _

theorem exec_publishes (hr : s.resetting = none) (hp : s.ring.prod () = .idle) (item : cfg.lay.Item)
    (ts : BitVec 64) (hq : s.loans.sequence cfg.me < 2 ^ 64) (hw : s.ring.writePos < 2 ^ 64) (k : Nat) :
    ∃ acts s' o, (machine cfg).exec s acts = some (s', o) ∧ s'.resetting = none ∧
      s'.ring.prod () = .idle ∧ s'.ring.cons = s.ring.cons ∧ s'.calls = s.calls ∧
      s'.loans.sequence cfg.me = u64 (s.loans.sequence cfg.me + k) ∧
      s'.ring.writePos = u64 (s.ring.writePos + k) := by
  induction k with
  | zero => exact ⟨[], s, [], rfl, hr, hp, rfl, rfl, (u64_of_lt hq).symm, (u64_of_lt hw).symm⟩
  | succ k ih =>
    obtain ⟨acts, s₁, o₁, he₁, hr₁, hp₁, hc₁, hk₁, hq₁, hw₁⟩ := ih
    obtain ⟨acts', s₂, o₂, he₂, hr₂, hp₂, hc₂, hk₂, hq₂, hw₂, -⟩ := exec_publish hr₁ hp₁ item ts
    refine ⟨_, s₂, _, Machine.exec_append he₁ he₂, hr₂, hp₂, hc₂.trans hc₁, hk₂.trans hk₁, ?_, ?_⟩
    · rw [hq₂, hq₁]
      unfold u64
      omega
    · rw [hw₂, hw₁]
      unfold u64
      omega

/-- The end of a `try_receive` whose `pop` skipped nothing. -/
theorem exec_popped {c : C} {q : Nat} {data : cfg.lay.Rep} (hpre : (s.calls c).prePos = q)
    (hcons : s.ring.cons c = ⟨u64 (q + 1), data, .ret true⟩)
    (hts : (Layout.header data).timestampNs = 0) :
    ∃ s' o, (machine cfg).exec s [.popped c, .addReceived c 0] = some (s', o) ∧
      .ret c true (u64 (q + 1)) (Layout.header data) (Layout.payload data) ∈ o := by
  obtain ⟨s₁, o₁, h1, hcons₁, hcall₁⟩ : ∃ s₁ o₁, (machine cfg).step s (.popped c) = some (s₁, o₁) ∧
      s₁.ring.cons c = ⟨u64 (q + 1), data, .idle⟩ ∧
      s₁.calls c = ⟨q, Layout.header data, Layout.payload data, .addReceived⟩ := by
    have hret : SpmcRing.step true cfg.cap s.ring (.cons c .ret) = some (_, _) :=
      ShmRingBuffer.step_of_move hcons (.ret (u64 (q + 1)) data true)
    refine ⟨State.assign { s with ring := s.ring.setCons c ⟨u64 (q + 1), data, .idle⟩ } c,
      [.ring (.ret c true (u64 (q + 1)) data)], ?_, ?_, ?_⟩
    · show step s (.popped c) = _
      simp only [step, ringStep, hret, hcons, hpre, Option.map_some]
      rw [if_neg (by simp)]
      rfl
    · exact State.setCons_self _ _ _
    · simp [State.assign, State.setCall, hpre, State.setCons_self]
  obtain ⟨s₂, h2⟩ : ∃ s₂, (machine cfg).step s₁ (.addReceived c 0) = some (s₂, [s₁.returned c true]) := by
    show ∃ s₂, step s₁ (.addReceived c 0) = some (s₂, [s₁.returned c true])
    simp only [step, hcall₁, hts]
    rw [if_neg (by simp)]
    exact ⟨_, rfl⟩
  refine ⟨_, _, Machine.exec_cons_eq_some.2 ⟨_, _, _, h1, Machine.exec_cons_eq_some.2
    ⟨_, _, _, h2, Machine.exec_nil _, rfl⟩, rfl⟩, ?_⟩
  unfold State.returned
  rw [hcons₁, hcall₁]
  simp

/-- A `try_receive` that has loaded `write_pos`, found nothing to skip and is not interrupted from then
on, the slot being ready. -/
theorem exec_receive {c : C} {q : Nat} {out : cfg.lay.Rep} {h : IPCHeader} {p : cfg.lay.Item}
    {slot : Slot cfg.lay.slotSize Byte} (hcall : s.calls c = ⟨q, h, p, .popping⟩)
    (hcons : s.ring.cons c = ⟨q, out, .loadSeq⟩) (hslot : s.ring.slots (cfg.cap.slot q) = slot)
    (hseq : slot.sequence = expected q) (hts : (Layout.header slot.data).timestampNs = 0) :
    ∃ acts s' o, (machine cfg).exec s acts = some (s', o) ∧
      .ret c true (u64 (q + 1)) (Layout.header slot.data) (Layout.payload slot.data) ∈ o := by
  obtain ⟨s₁, h1, hcons₁, hslots₁, hcalls₁⟩ : ∃ s₁, (machine cfg).step s (.check c) = some (s₁, []) ∧
      s₁.ring.cons c = ⟨q, out, .copy fun _ => false⟩ ∧ s₁.ring.slots = s.ring.slots ∧
      s₁.calls = s.calls :=
    ⟨_, step_ring rfl (ShmRingBuffer.step_of_move hcons (.isReady q out (by rw [hslot]; exact hseq))),
      State.setCons_self _ _ _, rfl, rfl⟩
  obtain ⟨copied, hreads, hall, -⟩ :=
    ShmRingBuffer.exec_reads cfg.cap (List.finRange cfg.lay.slotSize) hcons₁
  simp only [List.mem_finRange, if_true, hslots₁, hslot] at hreads
  obtain ⟨s₂, h2, hcons₂, hslots₂, hcalls₂⟩ : ∃ s₂, (machine cfg).exec s₁
      ((List.finRange cfg.lay.slotSize).map fun i => .read c i) = some (s₂, []) ∧
      s₂.ring.cons c = ⟨q, slot.data, .copy copied⟩ ∧ s₂.ring.slots = s.ring.slots ∧ s₂.calls = s.calls :=
    ⟨_, exec_ring (fun _ _ _ => rfl) hreads, State.setCons_self _ _ _, hslots₁, hcalls₁⟩
  obtain ⟨s₃, h3, hcons₃, hcalls₃⟩ : ∃ s₃, (machine cfg).step s₂ (.recheck c) = some (s₃, []) ∧
      s₃.ring.cons c = ⟨u64 (q + 1), slot.data, .ret true⟩ ∧ s₃.calls = s.calls :=
    ⟨_, step_ring rfl (ShmRingBuffer.step_of_move hcons₂ (.taken q _ copied
      (fun i => hall i (List.mem_finRange i)) (by rw [hslots₂, hslot]; exact hseq))),
      State.setCons_self _ _ _, hcalls₂⟩
  obtain ⟨s₄, o, h4, hret⟩ := exec_popped (by rw [hcalls₃, hcall]) hcons₃ hts
  have htail := Machine.exec_append h2 (Machine.exec_cons_eq_some.2 ⟨_, _, _, h3, h4, rfl⟩)
  exact ⟨_, s₄, _, Machine.exec_cons_eq_some.2 ⟨_, _, _, h1, htail, rfl⟩, by simpa using hret⟩

/-- A reader is suspended after it found position 0 published, and wakes up when position `2 ^ 63` has
been published in the same slot: the sequence number of the slot has come round to the one expected
for position 0. -/
theorem stale_reader_after_wrap :
    ∃ (tr : List (Event tiny.lay Unit Unit)) (s : State tiny.lay Unit Unit Unit Unit Unit) (pos : Nat)
      (header : IPCHeader) (payload : tiny.lay.Item), (machine tiny).Runs Machine.free tr s ∧
      .ret () true pos header payload ∈ tr ∧ header.sequence.toNat ≠ pos := by
  obtain ⟨s₁, o₁, h1, hr₁, hp₁, hseq₁, hw₁, hcons₁, hcalls₁⟩ :
      ∃ (s₁ : State tiny.lay Unit Unit Unit Unit Unit) (o₁ : _),
        (machine tiny).step (machine tiny).init (.makeCursor ()) = some (s₁, o₁) ∧ s₁.resetting = none ∧
        s₁.ring.prod () = .idle ∧ s₁.loans.sequence () = 0 ∧ s₁.ring.writePos = 0 ∧
        (∃ out, s₁.ring.cons () = ⟨0, out, .idle⟩) ∧ (s₁.calls ()).pc = .idle :=
    ⟨_, _, rfl, rfl, rfl, rfl, rfl, ⟨_, rfl⟩, rfl⟩
  obtain ⟨acts₂, s₂, o₂, h2, hr₂, hp₂, hcons₂, hcalls₂, hseq₂, hw₂, -⟩ :=
    exec_publish hr₁ hp₁ (fun _ => 5) 0
  rw [hseq₁] at hseq₂
  rw [hw₁] at hw₂
  obtain ⟨out, hcons₁⟩ := hcons₁
  obtain ⟨s₃, h3, hr₃, hp₃, hseq₃, hw₃, hcons₃, hcalls₃⟩ :
      ∃ s₃, (machine tiny).step s₂ (.tryReceive () .default fun _ => 0) = some (s₃, []) ∧
        s₃.resetting = none ∧ s₃.ring.prod () = .idle ∧ s₃.loans.sequence () = 1 ∧
        s₃.ring.writePos = 1 ∧ s₃.ring.cons () = ⟨0, emptySlot tiny.lay, .loadSeq⟩ ∧
        s₃.calls () = ⟨0, .default, fun _ => 0, .popping⟩ := by
    have hpop : SpmcRing.step true tiny.cap s₂.ring (.cons () (.pop (emptySlot tiny.lay))) = some (_, _) :=
      ShmRingBuffer.step_of_move (hcons₂ ▸ hcons₁)
        (.forward 0 out (emptySlot tiny.lay) (by rw [hw₂]; decide))
    refine ⟨State.setCall { s₂ with ring := s₂.ring.setCons () ⟨0, emptySlot tiny.lay, .loadSeq⟩ } ()
      ⟨0, .default, fun _ => 0, .popping⟩, ?_, hr₂, hp₂, hseq₂, hw₂, rfl, rfl⟩
    show step s₂ (.tryReceive () .default fun _ => 0) = _
    simp only [step, ringStep, hcalls₂, hcalls₁, hpop, hcons₂, hcons₁, hw₂]
    rfl
  obtain ⟨acts₄, s₄, o₄, h4, hr₄, hp₄, hcons₄, hcalls₄, hseq₄, hw₄⟩ :=
    exec_publishes hr₃ hp₃ (fun _ => 5) 0 (by rw [hseq₃]; decide) (by rw [hw₃]; decide) (2 ^ 63 - 1)
  obtain ⟨acts₅, s₅, o₅, h5, -, -, hcons₅, hcalls₅, -, -, hslot⟩ := exec_publish hr₄ hp₄ (fun _ => 6) 0
  have hw : s₄.ring.writePos = 2 ^ 63 := by
    rw [hw₄, hw₃]
    decide
  have hseq : s₄.loans.sequence tiny.me = 2 ^ 63 := by
    rw [hseq₄, show s₃.loans.sequence tiny.me = 1 from hseq₃]
    decide
  have hsame : tiny.cap.slot (2 ^ 63) = tiny.cap.slot 0 := by
    rw [Capacity.slot_eq_mod, Capacity.slot_eq_mod]
    decide
  have hstale : s₅.ring.slots (tiny.cap.slot 0) = ⟨1, slotOf tiny (2 ^ 63 + 1) (fun _ => 6) 0⟩ := by
    rw [hw, hseq, hsame] at hslot
    exact hslot
  have hheader : Layout.header (slotOf tiny (2 ^ 63 + 1) (fun _ => 6) 0) =
      headerOf tiny (2 ^ 63 + 1) (fun _ => 6) 0 := Layout.header_encode _ _
  obtain ⟨acts₆, s₆, o₆, h6, hret⟩ := exec_receive (hcalls₅ ▸ hcalls₄ ▸ hcalls₃)
    (hcons₅ ▸ hcons₄ ▸ hcons₃) hstale rfl (by rw [hheader]; rfl)
  have hr := (((Machine.Runs.init.exec (Machine.exec_cons_eq_some.2 ⟨_, _, _, h1, h2, rfl⟩)).exec
    (Machine.exec_cons_eq_some.2 ⟨_, _, _, h3, h4, rfl⟩)).exec h5).exec h6
  refine ⟨_, s₆, _, _, _, hr, List.mem_append_right _ hret, ?_⟩
  rw [hheader]
  decide

end Lwipc.Channel
