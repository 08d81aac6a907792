import Lwipc.MpmcFailure
import Lwipc.Lib.Linearizable

/-!
# `MpmcRingBuffer` is a linearizable bounded queue

The queue that the clients see holds the items of the claimed positions that no pop has claimed. A `push`
or `pop` that succeeds takes effect at its exchange, although the item may not be in its slot yet; one that
gives up does so at its last load of a sequence. There the ring is full (empty), or the slot is still in the
hands of a `pop` (`push`) that has made its exchange and not returned. `approx_size` takes effect at its
second load: it may miss pushes since the first one, but never counts an item that is not there.
-/

namespace Lwipc.MpmcRingBuffer

variable {ι α : Type}

/-- A call of the interface. -/
inductive Op (α : Type)
  | push (item : α)
  | pop
  | approxSize
  deriving DecidableEq

/-- What a call returns; `popped none` is `return false`. -/
inductive Res (α : Type)
  | pushed (ok : Bool)
  | popped (out : Option α)
  | size (n : Nat)
  deriving DecidableEq

/-- A queue of at most `cap` items. -/
def boundedQueue (cap : Capacity) : Object (List α) (Op α) (Res α) where
  init := []
  Outcome v op r q :=
    match op, r with
    | .push x, .pushed true => v.now.length < cap.val ∧ q = v.now ++ [x]
    | .push _, .pushed false => q = v.now ∧ (v.now.length = cap.val ∨ v.busy .pop)
    | .pop, .popped (some x) => v.now = x :: q
    | .pop, .popped none => q = v.now ∧ (v.now = [] ∨ ∃ x, v.busy (.push x))
    | .approxSize, .size n => q = v.now ∧ n ≤ v.now.length ∧ (v.quiet → n = v.now.length)
    | _, _ => False

/-- What a client sees of a step of call `i`: its call, or its return. -/
def Call.shows (i : ι) : Call α → Call α → List (Hist ι (Op α) (Res α))
  | .idle, .push item _ => [.call i (.push item)]
  | .idle, .pop _ => [.call i .pop]
  | .idle, .size _ => [.call i .approxSize]
  | _, .push _ (.done ok) => [.ret i (.pushed ok)]
  | _, .pop (.done out) => [.ret i (.popped out)]
  | _, .size (.done n) => [.ret i (.size n)]
  | _, _ => []

/-- The calls and returns of a step. -/
def history (s : State ι α) (a : Act ι α) (s' : State ι α) : List (Hist ι (Op α) (Res α)) :=
  Call.shows a.call (s.calls a.call) (s'.calls a.call)

/-! ### The simulation -/

/-- The items of the positions that are claimed by a push and not by a pop. -/
def queue (tr : List (Event ι α)) (s : State ι α) : List α := ((pushes tr).map Prod.snd).drop s.readPos

/-- How far the queue has got with a call. -/
def StatusOk (tr : List (Event ι α)) (s : State ι α) : Call α → Status (Op α) (Res α) → Prop
  | .idle, st | .push _ (.done _), st | .pop (.done _), st | .size (.done _), st => st = .idle
  | .push item (.copy _), st | .push item (.store _), st => st = .done (.push item) (.pushed true)
  | .push item _, st => ∃ q, st = .pending (.push item) q
  | .pop (.copy p), st => ∃ x, itemAt tr p = some x ∧ st = .done .pop (.popped (some x))
  | .pop (.store _ out), st => st = .done .pop (.popped (some out))
  | .pop _, st => ∃ q, st = .pending .pop q
  | .size .loadWrite, st => ∃ q, st = .pending .approxSize q
  | .size (.loadRead w), st =>
    ∃ q, st = .pending .approxSize q ∧ w ≤ s.writePos ∧ (q → w = s.writePos)

/-- The ring `s` stands for the queue `c`. -/
structure Sim (tr : List (Event ι α)) (s : State ι α) (c : Object.State ι (List α) (Op α) (Res α)) :
    Prop where
  now : c.now = queue tr s
  status : ∀ i, StatusOk tr s (s.calls i) (c.status i)

variable {cap : Capacity} {tr o : List (Event ι α)} {s s' : State ι α} {i : ι}
  {c : Object.State ι (List α) (Op α) (Res α)}

theorem Shared.length_queue (h : Shared cap tr s) : (queue tr s).length = s.writePos - s.readPos := by
  simp [queue, h.write]

theorem Shared.queue_eq_cons (h : Shared cap tr s) (hlt : s.readPos < s.writePos) :
    ∃ x, itemAt tr s.readPos = some x ∧
      queue tr s = x :: ((pushes tr).map Prod.snd).drop (s.readPos + 1) := by
  have hlen : s.readPos < ((pushes tr).map Prod.snd).length := by
    rw [List.length_map, ← h.write]
    exact hlt
  refine ⟨_, ?_, List.drop_eq_getElem_cons hlen⟩
  rw [itemAt, ← List.getElem?_map, List.getElem?_eq_getElem hlen]

/-- Another call moves on: the state may have changed under this one. -/
theorem StatusOk.after {k : Call α} {st : Status (Op α) (Res α)} {same : Prop} (h : StatusOk tr s k st)
    (hle : s.writePos ≤ s'.writePos) (hsame : same → s'.writePos = s.writePos) :
    StatusOk (tr ++ o) s' k (st.after same) := by
  rcases k with _ | ⟨item, _ | pos | pos | pos | pos | pos | _⟩ |
    ⟨_ | pos | pos | pos | pos | ⟨pos, out⟩ | _⟩ | ⟨_ | w | n⟩
  case pop.copy =>
    obtain ⟨x, hx, rfl⟩ := h
    exact ⟨x, itemAt_append hx, rfl⟩
  case size.loadRead =>
    obtain ⟨q, rfl, hw, hq⟩ := h
    refine ⟨_, rfl, Nat.le_trans hw hle, ?_⟩
    rintro ⟨h1, h2⟩
    rw [hq h1, hsame h2]
  case push.loadPos | push.loadSeq | push.cas | push.reload | pop.loadPos | pop.loadSeq | pop.cas |
      pop.reload | size.loadWrite =>
    obtain ⟨q, rfl⟩ := h
    exact ⟨_, rfl⟩
  all_goals
    obtain rfl := h
    rfl

variable [DecidableEq ι]

/-- A step of `i` that leaves the queue as it is. -/
theorem Sim.setCall {k : Call α} {st : Status (Op α) (Res α)} (h : Sim tr s c)
    (hw : s'.writePos = s.writePos) (hr : s'.readPos = s.readPos)
    (hcalls : s'.calls = Function.update s.calls i k) (hst : StatusOk tr s' k st) :
    Sim tr s' (c.set i st) := by
  refine ⟨by rw [Object.State.set_now, h.now, queue, queue, hr], fun j => ?_⟩
  rw [hcalls]
  by_cases hj : j = i
  · subst hj
    rw [Function.update_self, Object.State.set_status_self]
    exact hst
  · rw [Function.update_of_ne hj, Object.State.set_status_of_ne c st hj]
    have hok : StatusOk (tr ++ []) s' (s.calls j) ((c.status j).after True) :=
      (h.status j).after (Nat.le_of_eq hw.symm) fun _ => hw
    rwa [List.append_nil, Status.after_of trivial] at hok

/-- A successful exchange of `i`. -/
theorem Sim.effect {k : Call α} {op : Op α} {r : Res α} {x : List α} (h : Sim tr s c)
    (hx : x = queue (tr ++ o) s') (hle : s.writePos ≤ s'.writePos)
    (hsame : x = c.now → s'.writePos = s.writePos) (hcalls : s'.calls = Function.update s.calls i k)
    (hst : StatusOk (tr ++ o) s' k (.done op r)) : Sim (tr ++ o) s' (c.effect i op r x) := by
  refine ⟨hx, fun j => ?_⟩
  rw [hcalls]
  by_cases hj : j = i
  · subst hj
    rw [Function.update_self, Object.State.effect_status_self]
    exact hst
  · rw [Function.update_of_ne hj, Object.State.effect_status_of_ne c op r x hj]
    exact (h.status j).after hle hsame

/-! ### Giving up -/

section
variable [Inhabited α]

/-- A `push` that finds the slot of the next position taken: the ring is full, or a `pop` still has the
slot. -/
theorem Sim.full (h : Sim tr s c) (hrun : (machine cap).Runs Machine.free tr s)
    (hb : (pushes tr).length < 2 ^ 63) (hd : diff (seqAt cap s s.writePos) s.writePos < 0) :
    c.now.length = cap.val ∨ ∃ j r, (∃ pc, s.calls j = .pop pc) ∧ c.status j = .done .pop r := by
  have hinv := inv_of_runs hrun hb
  have hcap := cap.pos
  rw [hinv.diff_next hb] at hd
  obtain heq | ⟨hge, hlap, -, hlt⟩ := hinv.seq_of_next
  · omega
  rcases Nat.lt_or_ge (s.writePos - cap.val) s.readPos with hp | hp
  · obtain ⟨j, he⟩ := exists_popped hrun hb hp
    have hst := h.status j
    refine .inr ⟨j, ?_⟩
    rcases ((ledger_of_runs hrun hb).popped j _ he).2 with hc | ⟨out, hc⟩ | ⟨-, hseq⟩
    · rw [hc] at hst
      obtain ⟨x, -, hx⟩ := hst
      exact ⟨_, ⟨_, hc⟩, hx⟩
    · rw [hc] at hst
      exact ⟨_, ⟨_, hc⟩, hst⟩
    · have := hseq ⟨by omega, by omega⟩
      omega
  · have hw := hinv.write_le
    rw [h.now, hinv.length_queue]
    exact .inl (by omega)

/-- A `pop` that finds the next position unpublished: the ring is empty, or the `push` of the position is
still at it. -/
theorem Sim.empty (h : Sim tr s c) (hrun : (machine cap).Runs Machine.free tr s)
    (hb : (pushes tr).length < 2 ^ 63) (hd : diff (seqAt cap s s.readPos) (u64 (s.readPos + 1)) < 0) :
    c.now = [] ∨ ∃ j x r, (∃ pc, s.calls j = .push x pc) ∧ c.status j = .done (.push x) r := by
  have hinv := inv_of_runs hrun hb
  have hcap := cap.ge_two
  rw [hinv.diff_read hb] at hd
  rcases Nat.lt_or_eq_of_le hinv.read_le with hlt | heq
  · obtain ⟨j, x, he⟩ := exists_pushed hrun hb hlt
    have hcur : cap.Current s.writePos s.readPos := ⟨hlt, hinv.write_le⟩
    have hst := h.status j
    refine .inr ⟨j, x, ?_⟩
    rcases ((ledger_of_runs hrun hb).pushed j _ x he).2 with hc | hc | ⟨-, hseq⟩
    · rw [hc] at hst
      exact ⟨_, ⟨_, hc⟩, hst⟩
    · rw [hc] at hst
      exact ⟨_, ⟨_, hc⟩, hst⟩
    · have hne := hseq hcur
      rcases hinv.slot _ hcur with ⟨h1, -⟩ | ⟨h1, -⟩ | ⟨-, h1⟩ <;> omega
  · refine .inl (List.eq_nil_of_length_eq_zero ?_)
    rw [h.now, hinv.length_queue]
    omega

end

/-! ### Steps -/

variable {H : List (Hist ι (Op α) (Res α))}

/-- The queue does nothing. -/
theorem Sim.silent {k : Call α} (h : Sim tr s c) (hw : s'.writePos = s.writePos)
    (hr : s'.readPos = s.readPos) (hcalls : s'.calls = Function.update s.calls i k)
    (hst : StatusOk tr s' k (c.status i)) : Sim tr s' c := by
  rw [← Object.State.set_of_status (c := c) (i := i) rfl]
  exact h.setCall hw hr hcalls hst

/-- A call that takes effect at its last access and leaves the queue alone. -/
theorem Sim.observe {k : Call α} {op : Op α} {q : Prop} {r : Res α} (h : Sim tr s c)
    (hrun : (boundedQueue cap).Runs H c) (hi : c.status i = .pending op q)
    (ho : (boundedQueue cap).Outcome (c.scene i q) op r c.now) (hst : StatusOk tr (s.setCall i k) k .idle) :
    (boundedQueue cap).Runs (H ++ [.ret i r]) (c.set i .idle) ∧ Sim tr (s.setCall i k) (c.set i .idle) := by
  have hset := Object.State.set_of_status hi
  rw [← hset] at hrun ho
  have hret := (hrun.observe ho).ret (c.set_status_self i _)
  rw [Object.State.set_set] at hret
  exact ⟨hret, h.setCall rfl rfl rfl hst⟩

variable [Inhabited α]

theorem Sim.here {k₀ k : Call α} (h : Sim tr s c) (hb : (pushes tr).length + cap.val ≤ 2 ^ 63)
    (hrun : (machine cap).Runs Machine.free tr s) (hc : (boundedQueue cap).Runs H c)
    (hi : s.calls i = k₀) (hl : Local cap s k₀ k) :
    ∃ c', (boundedQueue cap).Runs (H ++ Call.shows i k₀ k) c' ∧ Sim tr (s.setCall i k) c' := by
  have hcap := cap.pos
  have hb' : (pushes tr).length < 2 ^ 63 := by omega
  have hinv := inv_of_runs hrun hb'
  have hok := hinv.call i
  have hst := h.status i
  rw [hi] at hok hst
  have hsilent (hk : StatusOk tr (s.setCall i k) k (c.status i)) (hv : Call.shows i k₀ k = []) :
      ∃ c', (boundedQueue cap).Runs (H ++ Call.shows i k₀ k) c' ∧ Sim tr (s.setCall i k) c' := by
    rw [hv, List.append_nil]
    exact ⟨c, hc, h.silent rfl rfl rfl hk⟩
  cases hl with
  | callPush item => exact ⟨_, hc.call i (Op.push item) hst, h.setCall rfl rfl rfl ⟨_, rfl⟩⟩
  | callPop => exact ⟨_, hc.call i Op.pop hst, h.setCall rfl rfl rfl ⟨_, rfl⟩⟩
  | callSize => exact ⟨_, hc.call i Op.approxSize hst, h.setCall rfl rfl rfl ⟨_, rfl⟩⟩
  | pushFull item pos hd =>
    obtain ⟨q, hq⟩ := hst
    obtain rfl := hinv.eq_of_pushFull hb hok hd
    refine ⟨_, h.observe hc hq ⟨rfl, ?_⟩ rfl⟩
    refine (h.full hrun hb' hd).imp_right ?_
    rintro ⟨j, r, ⟨pc, hj⟩, hr⟩
    refine ⟨j, r, ?_, hr⟩
    rintro rfl
    rw [hi] at hj
    cases hj
  | popEmpty pos hd =>
    obtain ⟨q, hq⟩ := hst
    obtain rfl := hinv.eq_of_popEmpty hb' hok hd
    refine ⟨_, h.observe hc hq ⟨rfl, ?_⟩ rfl⟩
    refine (h.empty hrun hb' hd).imp_right ?_
    rintro ⟨j, x, r, ⟨pc, hj⟩, hr⟩
    refine ⟨x, j, r, ?_, hr⟩
    rintro rfl
    rw [hi] at hj
    cases hj
  | sizeRead w =>
    obtain ⟨q, hq, hle, heq⟩ := hst
    have hlen : c.now.length = s.writePos - s.readPos := by rw [h.now, hinv.length_queue]
    refine ⟨_, h.observe hc hq ⟨rfl, ?_, ?_⟩ rfl⟩
    · show _ ≤ c.now.length
      split <;> omega
    · intro hquiet
      have hw := heq hquiet
      have hr := hinv.read_le
      show _ = c.now.length
      rw [if_pos (by omega)]
      omega
  | popCopy pos =>
    obtain ⟨x, hx, hd⟩ := hst
    have hitem := hinv.popping_item hok.1 hok.2.2.1
    rw [hx] at hitem
    refine hsilent ?_ rfl
    rw [← Option.some.inj hitem]
    exact hd
  | sizeWrite =>
    obtain ⟨q, hq⟩ := hst
    exact hsilent ⟨q, hq, Nat.le_refl _, fun _ => rfl⟩ rfl
  | pushStart | pushReload | pushLost | pushFree | pushAhead | popStart | popReload | popLost | popReady |
      popAhead => exact hsilent hst rfl

theorem Sim.move (h : Sim tr s c) (hb : (pushes tr).length + cap.val ≤ 2 ^ 63)
    (hrun : (machine cap).Runs Machine.free tr s) (hc : (boundedQueue cap).Runs H c)
    (hm : Move cap s i s' o) :
    ∃ c', (boundedQueue cap).Runs (H ++ Call.shows i (s.calls i) (s'.calls i)) c' ∧
      Sim (tr ++ o) s' c' := by
  have hcap := cap.pos
  have hb' : (pushes tr).length < 2 ^ 63 := by omega
  have hinv := inv_of_runs hrun hb'
  have hlt := hinv.lt_of_bound hb'
  have hok := hinv.call i
  have hst := h.status i
  cases hm with
  | @here k hl =>
    rw [List.append_nil, State.setCall_calls, Function.update_self]
    exact h.here hb hrun hc rfl hl
  | @claimPush item hi =>
    rw [hi] at hok hst
    obtain ⟨q, hq⟩ := hst
    have hroom := hinv.room (hok.2 rfl)
    have hlen : c.now.length = s.writePos - s.readPos := by rw [h.now, hinv.length_queue]
    have hw : u64 (s.writePos + 1) = s.writePos + 1 := u64_of_lt (by omega)
    have heff := hc.effect (Res.pushed true) (c.now ++ [item]) hq
      ⟨show c.now.length < _ by omega, rfl⟩
    rw [hi, hw, State.setCall_calls, Function.update_self]
    refine ⟨_, by simpa [Call.shows] using heff, h.effect ?_ (Nat.le_succ _) ?_ rfl rfl⟩
    · have hle : s.readPos ≤ ((pushes tr).map Prod.snd).length := by
        rw [List.length_map, ← hinv.write]
        exact hinv.read_le
      rw [h.now]
      simp [queue, List.drop_append_of_le_length hle]
    · intro hsame
      simp at hsame
  | @claimPop hi =>
    rw [hi] at hok hst
    obtain ⟨q, hq⟩ := hst
    obtain ⟨hcur, -⟩ := hinv.published (hok.2 rfl)
    obtain ⟨x, hx, hqueue⟩ := hinv.queue_eq_cons hcur.1
    have hr : u64 (s.readPos + 1) = s.readPos + 1 := u64_of_lt (by omega)
    have heff := hc.effect (Res.popped (some x)) (((pushes tr).map Prod.snd).drop (s.readPos + 1)) hq
      (show c.now = _ by rw [h.now, hqueue])
    rw [hi, hr, State.setCall_calls, Function.update_self]
    refine ⟨_, by simpa [Call.shows] using heff, h.effect ?_ (Nat.le_refl _) (fun _ => rfl) rfl ?_⟩
    · simp [queue]
    · exact ⟨x, itemAt_append hx, rfl⟩
  | @write item pos hi =>
    rw [hi] at hst
    rw [hi, List.append_nil, State.setCall_calls, Function.update_self]
    exact ⟨c, by simpa [Call.shows] using hc, h.silent rfl rfl rfl hst⟩
  | @publish item pos hi =>
    rw [hi] at hst
    rw [hi, List.append_nil, State.setCall_calls, Function.update_self]
    exact ⟨_, hc.ret hst, h.setCall rfl rfl rfl rfl⟩
  | @release pos out hi =>
    rw [hi] at hst
    rw [hi, List.append_nil, State.setCall_calls, Function.update_self]
    exact ⟨_, hc.ret hst, h.setCall rfl rfl rfl rfl⟩

/-- In every run of any number of overlapping calls, with at most `2 ^ 63` positions claimed or in the ring:
the calls and returns are those of a queue of at most `Capacity` items on which every call takes effect at
one instant between its call and its return. -/
theorem linearizable_boundedQueue (cap : Capacity) (tr : List (Event ι α)) (H : List (Hist ι (Op α) (Res α)))
    (s : State ι α) (h : (machine cap).Observed Machine.free history tr H s)
    (hb : (pushes tr).length + cap.val ≤ 2 ^ 63) : (boundedQueue cap).Linearizable H := by
  have hsim : ∃ c, (boundedQueue cap).Runs H c ∧ Sim tr s c := by
    refine h.simulation (R := Sim) (B := fun tr => (pushes tr).length + cap.val ≤ 2 ^ 63) ?_ ?_ ?_ hb
    · intro tr o hb
      rw [pushes_append, List.length_append] at hb
      omega
    · exact ⟨rfl, fun _ => rfl⟩
    · intro tr H s a s' o c hb hrun _ hs hc hsim
      rw [pushes_append, List.length_append] at hb
      exact hsim.move (by omega) hrun hc (.of_step hs)
  obtain ⟨c, hc, -⟩ := hsim
  exact ⟨c, hc⟩

/-- On a ring of two slots a `push` gives up although one item is in the queue: the `pop` of the other has
not returned. -/
theorem linearizable_boundedQueue_pop_in_flight :
    ∃ H : List (Hist Nat (Op Nat) (Res Nat)), (boundedQueue .two).Linearizable H ∧
      H = [.call 0 (.push 7), .ret 0 (.pushed true), .call 1 (.push 8), .ret 1 (.pushed true), .call 2 .pop,
        .call 3 (.push 9), .ret 3 (.pushed false), .ret 2 (.popped (some 7)), .call 4 .approxSize,
        .ret 4 (.size 1)] := by
  let M : Machine (State Nat Nat) (Act Nat Nat) (Event Nat Nat) := machine .two
  let acts : List (Act Nat Nat) := [.callPush 0 7, .run 0, .run 0, .run 0, .run 0, .run 0, .callPush 1 8,
    .run 1, .run 1, .run 1, .run 1, .run 1, .callPop 2, .run 2, .run 2, .run 2, .callPush 3 9, .run 3, .run 3,
    .run 2, .run 2, .callSize 4, .run 4, .run 4]
  have hexec : (M.watch history M.init acts).map (fun r => (pushes r.1, r.2.1)) =
      some ([(0, 7), (1, 8)], [.call 0 (.push 7), .ret 0 (.pushed true), .call 1 (.push 8),
        .ret 1 (.pushed true), .call 2 .pop, .call 3 (.push 9), .ret 3 (.pushed false),
        .ret 2 (.popped (some 7)), .call 4 .approxSize, .ret 4 (.size 1)]) := by decide +kernel
  obtain ⟨tr, H, s, hr, hend⟩ := Machine.exists_of_watch hexec
  obtain ⟨h1, h2⟩ := Prod.mk.inj hend
  exact ⟨H, linearizable_boundedQueue .two tr H s hr (by rw [h1]; decide), h2⟩

end Lwipc.MpmcRingBuffer
