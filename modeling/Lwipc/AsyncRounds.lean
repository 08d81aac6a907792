import Lwipc.AsyncLifecycle

/-!
# What a subscriber delivers over all rounds

Each worker has a cursor of its own, created where the ring's counter stands then. No worker goes past the
counter, so no cursor is created below what an earlier worker has passed to the callback: over all rounds no
message is delivered twice, and none out of order (`delivered_over_rounds`).
-/

namespace Lwipc.AsyncLifecycle

open SpmcRing AsyncSubscriber

variable {n : Nat} {W : Type}

/-- Where the cursors of the workers were created, in order. -/
def cursors (tr : List (AsyncSubscriber.Event n W)) : List Nat :=
  tr.filterMap fun | .ring (.cursor _ start) => some start | _ => none

/-- What is delivered from now on is not below this position. -/
def reached (s : AsyncSubscriber.State n W) : Nat :=
  if (s.ring.cons ()).pc = .none then s.ring.writePos else next (s.ring.cons ()) s.worker

/-- What the workers have passed to the callback, in all rounds. -/
structure Rounds (cap : Capacity) (tr : List (AsyncSubscriber.Event n W)) (s : AsyncSubscriber.State n W) :
    Prop where
  worker : WorkerOk (s.ring.cons ()) s.worker
  ring : SpmcRing.Inv cap (ringTrace tr) s.ring
  claimed : ∀ p, p < s.ring.writePos → ∃ item, .ring (.claim () p item) ∈ tr
  sorted : (positions tr).Pairwise (· < ·)
  below : ∀ p ∈ positions tr, p < reached s
  items : ∀ p item, .callback p item ∈ tr → (claims (ringTrace tr))[p]? = some item
  waiting : s.worker = .callback →
    (claims (ringTrace tr))[(s.ring.cons ()).pos - 1]? = some (s.ring.cons ()).out
  covered : ∀ start p q, (cursors tr).getLast? = some start → start ≤ p → p < q → q ∈ positions tr →
    p ∈ positions tr ∨ Overwritten cap tr p
  passed : (s.ring.cons ()).pc ≠ .none → ∀ start p, (cursors tr).getLast? = some start → start ≤ p →
    p < next (s.ring.cons ()) s.worker → p ∈ positions tr ∨ Overwritten cap tr p

section
variable {cap : Capacity} {x x' : AsyncSubscriber.State n W} {tr o : List (AsyncSubscriber.Event n W)}

theorem cursors_append : cursors (tr ++ o) = cursors tr ++ cursors o :=
  List.filterMap_append

theorem cursors_eq_nil (h : ∀ start, .ring (.cursor () start) ∉ o) : cursors o = [] := by
  refine List.filterMap_eq_nil_iff.2 fun e he => ?_
  rcases e with (_ | _ | ⟨⟨⟩, start⟩ | _) | _ | _ | _ | _
  · rfl
  · rfl
  · exact absurd he (h start)
  · rfl
  · rfl
  · rfl
  · rfl
  · rfl

/-- A worker that has a cursor has not gone past the ring's counter. -/
theorem next_le_writePos (hx : ConsOk cap (ringTrace tr) x.ring (x.ring.cons ())) :
    next (x.ring.cons ()) x.worker ≤ x.ring.writePos := by
  have hle := hx.1
  have hnext : next (x.ring.cons ()) x.worker ≤ (x.ring.cons ()).pos := by
    unfold next ShmRingBuffer.next
    split
    · omega
    · split <;> omega
  omega

/-- A step without callback and without a new cursor, which moves past nothing but overwritten
positions. -/
theorem Rounds.quiet (h : Rounds cap tr x) (hworker : WorkerOk (x'.ring.cons ()) x'.worker)
    (hring : SpmcRing.Inv cap (ringTrace (tr ++ o)) x'.ring)
    (hclaimed : ∀ p, p < x'.ring.writePos → p < x.ring.writePos ∨ ∃ item, .ring (.claim () p item) ∈ o)
    (hpos : positions o = []) (hcur : ∀ start, .ring (.cursor () start) ∉ o)
    (hreached : reached x ≤ reached x')
    (hwaiting : x'.worker = .callback →
      (claims (ringTrace (tr ++ o)))[(x'.ring.cons ()).pos - 1]? = some (x'.ring.cons ()).out)
    (hnew : (x'.ring.cons ()).pc ≠ .none → (x.ring.cons ()).pc ≠ .none ∧
      ∀ p, next (x.ring.cons ()) x.worker ≤ p → p < next (x'.ring.cons ()) x'.worker →
        Overwritten cap (tr ++ o) p) : Rounds cap (tr ++ o) x' := by
  have hposs : positions (tr ++ o) = positions tr := by rw [positions_append, hpos, List.append_nil]
  have hcurs : cursors (tr ++ o) = cursors tr := by
    rw [cursors_append, cursors_eq_nil hcur, List.append_nil]
  refine ⟨hworker, hring, fun p hp => ?_, hposs ▸ h.sorted, fun p hp => ?_, fun p item hmem => ?_, hwaiting,
    fun start p q hst h1 h2 hq => ?_, fun hpc start p hst h1 h2 => ?_⟩
  · rcases hclaimed p hp with hlt | ⟨item, hmem⟩
    · obtain ⟨item, hmem⟩ := h.claimed p hlt
      exact ⟨item, List.mem_append_left _ hmem⟩
    · exact ⟨item, List.mem_append_right _ hmem⟩
  · exact Nat.lt_of_lt_of_le (h.below p (hposs ▸ hp)) hreached
  · rcases List.mem_append.1 hmem with hmem | hmem
    · rw [ringTrace_append, claims_append]
      exact getElem?_append_of_some (h.items p item hmem)
    · have hp := mem_positions.2 ⟨item, hmem⟩
      rw [hpos] at hp
      cases hp
  · rw [hposs] at hq ⊢
    exact (h.covered start p q (hcurs ▸ hst) h1 h2 hq).imp_right fun hover => hover.append o
  · rw [hposs]
    obtain ⟨hpc', hover⟩ := hnew hpc
    rcases Nat.lt_or_ge p (next (x.ring.cons ()) x.worker) with hlt | hge
    · exact (h.passed hpc' start p (hcurs ▸ hst) h1 hlt).imp_right fun hover => hover.append o
    · exact .inr (hover p hge h2)

/-- A step that touches neither the ring nor the cursor. -/
theorem Rounds.keep (h : Rounds cap tr x) (hring : x'.ring = x.ring)
    (hworker : WorkerOk (x.ring.cons ()) x'.worker) (hcall : x'.worker = .callback → x.worker = .callback)
    (hnext : next (x.ring.cons ()) x'.worker = next (x.ring.cons ()) x.worker)
    (ho : ringTrace o = []) (hpos : positions o = []) : Rounds cap (tr ++ o) x' := by
  have htr : ringTrace (tr ++ o) = ringTrace tr := by rw [ringTrace_append, ho, List.append_nil]
  refine h.quiet ?_ ?_ ?_ hpos ?_ ?_ ?_ ?_
  · rwa [hring]
  · rw [htr, hring]
    exact h.ring
  · intro p hp
    rw [hring] at hp
    exact .inl hp
  · intro start hmem
    rw [← mem_ringTrace, ho] at hmem
    cases hmem
  · unfold reached
    rw [hring, hnext]
  · intro hw
    rw [htr, hring]
    exact h.waiting (hcall hw)
  · intro hpc
    rw [hring] at hpc ⊢
    refine ⟨hpc, fun p h1 h2 => ?_⟩
    rw [hnext] at h2
    exact absurd h2 (Nat.not_lt.2 h1)

theorem Rounds.launch (h : Rounds cap tr x) : Rounds cap tr (AsyncLifecycle.launch x) := by
  have hself : ((AsyncLifecycle.launch x).ring.cons ()).pc = .none := by
    show ((x.ring.setCons () _).cons ()).pc = _
    rw [State.setCons_self]
  have hring : SpmcRing.Inv cap (ringTrace tr) (AsyncLifecycle.launch x).ring := by
    have hset := h.ring.toRing.setCons (c := ()) (o := []) (x := { x.ring.cons () with pc := .none }) rfl rfl
    rw [List.append_nil] at hset
    refine ⟨hset, fun c => ?_⟩
    show ConsOk _ _ _ ((x.ring.setCons () _).cons ())
    rw [State.setCons_self]
    exact ⟨(h.ring.cons ()).1, trivial⟩
  have hreached : reached x ≤ reached (AsyncLifecycle.launch x) := by
    rw [reached, reached, if_pos hself]
    split
    · exact le_rfl
    · exact next_le_writePos (h.ring.cons ())
  have hkeep : Rounds cap (tr ++ []) (AsyncLifecycle.launch x) := h.quiet hself (by rwa [List.append_nil])
    (fun p hp => .inl hp) rfl (by simp) hreached (fun hw => SpinPc.noConfusion hw) (fun hpc => absurd hself hpc)
  rwa [List.append_nil] at hkeep

/-- The cursor of a new worker is not below anything an earlier one has passed on. -/
theorem Rounds.makeCursor {y : Consumer n W} {e : List (SpmcRing.Event Unit Unit n W)} (h : Rounds cap tr x)
    (hring : SpmcRing.Inv cap (ringTrace (tr ++ e.map .ring)) (x.ring.setCons () y))
    (hm : PopMove cap x.ring.writePos x.ring.slots () (x.ring.cons ()) .makeCursor y e) :
    Rounds cap (tr ++ e.map .ring) { x with ring := x.ring.setCons () y, worker := .test } := by
  obtain ⟨hworker, -, hclaimed, hsorted, hbelow, hitems, -, -, -⟩ := h
  unfold reached at hbelow
  generalize hz : x.ring.cons () = z at *
  cases hm with
  | makeCursor pos out =>
    have hposs : positions (tr ++ [.ring (.cursor () x.ring.writePos)]) = positions tr := by simp [positions]
    have hlast : (cursors (tr ++ [.ring (.cursor () x.ring.writePos)])).getLast? = some x.ring.writePos := by
      simp [cursors]
    have hnext : next ((x.ring.setCons () (⟨x.ring.writePos, out, .idle⟩ : Consumer n W)).cons ()) .test =
        x.ring.writePos := by
      rw [State.setCons_self]
      rfl
    refine ⟨?_, hring, fun p hp => ?_, hposs.symm ▸ hsorted, fun p hp => ?_, fun p item hmem => ?_,
      fun hw => SpinPc.noConfusion hw, fun start p q hst h1 h2 hq => ?_, fun hpc start p hst h1 h2 => ?_⟩
    · rw [State.setCons_self]
      rfl
    · obtain ⟨item, hmem⟩ := hclaimed p hp
      exact ⟨item, List.mem_append_left _ hmem⟩
    · rw [List.map_singleton, hposs] at hp
      have hlt : p < x.ring.writePos := by simpa using hbelow p hp
      rw [reached, if_neg (by rw [State.setCons_self]; simp), hnext]
      exact hlt
    · rw [ringTrace_append, claims_append]
      exact getElem?_append_of_some (hitems p item (by simpa using hmem))
    · rw [List.map_singleton, hposs] at hq
      rw [List.map_singleton, hlast] at hst
      have hlt : q < x.ring.writePos := by simpa using hbelow q hq
      cases hst
      omega
    · rw [List.map_singleton, hlast] at hst
      rw [hnext] at h2
      cases hst
      omega

theorem Rounds.callback (h : Rounds cap tr x) (hw : x.worker = .callback) :
    Rounds cap (tr ++ [.callback ((x.ring.cons ()).pos - 1) (x.ring.cons ()).out]) { x with worker := .test } := by
  obtain ⟨hworker, hring, hclaimed, hsorted, hbelow, hitems, hwaiting, hcovered, hpassed⟩ := h
  rw [hw] at hworker hpassed
  obtain ⟨hpc, hpos⟩ := hworker
  have hpc' : (x.ring.cons ()).pc ≠ .none := by simp [hpc]
  have hnext : next (x.ring.cons ()) .test = (x.ring.cons ()).pos := by
    simp [next, ShmRingBuffer.next, hpc]
  have hreached : reached x = (x.ring.cons ()).pos - 1 := by
    rw [reached, if_neg hpc', hw]
    rfl
  have hposs : positions (tr ++ [.callback ((x.ring.cons ()).pos - 1) (x.ring.cons ()).out]) =
      positions tr ++ [(x.ring.cons ()).pos - 1] := positions_append
  have hcurs : cursors (tr ++ [.callback ((x.ring.cons ()).pos - 1) (x.ring.cons ()).out]) = cursors tr := by
    simp [cursors]
  have htr : ringTrace (tr ++ [.callback ((x.ring.cons ()).pos - 1) (x.ring.cons ()).out]) = ringTrace tr := by
    simp [ringTrace]
  -- what is below the position passed on is delivered or overwritten
  have hpast : ∀ start p, (cursors tr).getLast? = some start → start ≤ p → p < (x.ring.cons ()).pos - 1 →
      p ∈ positions tr ++ [(x.ring.cons ()).pos - 1] ∨
        Overwritten cap (tr ++ [.callback ((x.ring.cons ()).pos - 1) (x.ring.cons ()).out]) p := by
    intro start p hst h1 h2
    exact (hpassed hpc' start p hst h1 h2).imp (List.mem_append_left _) fun hover => hover.append _
  refine ⟨hpc, by rwa [htr], fun p hp => ?_, ?_, fun p hp => ?_, fun p item hmem => ?_,
    fun hw => SpinPc.noConfusion hw, fun start p q hst h1 h2 hq => ?_, fun _ start p hst h1 h2 => ?_⟩
  · obtain ⟨item, hmem⟩ := hclaimed p hp
    exact ⟨item, List.mem_append_left _ hmem⟩
  · rw [hposs, List.pairwise_append]
    refine ⟨hsorted, List.pairwise_singleton _ _, fun p hp q hq => ?_⟩
    rw [List.mem_singleton.1 hq, ← hreached]
    exact hbelow p hp
  · rw [reached, if_neg hpc', hnext]
    rw [hposs] at hp
    rcases List.mem_append.1 hp with hp | hp
    · have := hbelow p hp
      omega
    · rw [List.mem_singleton.1 hp]
      omega
  · rw [htr]
    rcases List.mem_append.1 hmem with hmem | hmem
    · exact hitems p item hmem
    · obtain ⟨rfl, rfl⟩ : p = (x.ring.cons ()).pos - 1 ∧ item = (x.ring.cons ()).out := by simpa using hmem
      exact hwaiting hw
  · rw [hcurs] at hst
    rw [hposs] at hq ⊢
    rcases List.mem_append.1 hq with hq | hq
    · exact (hcovered start p q hst h1 h2 hq).imp (List.mem_append_left _) fun hover => hover.append _
    · rw [List.mem_singleton.1 hq] at h2
      exact hpast start p hst h1 h2
  · rw [hcurs] at hst
    rw [hnext] at h2
    rw [hposs]
    rcases Nat.lt_or_ge p ((x.ring.cons ()).pos - 1) with hlt | hge
    · exact hpast start p hst h1 hlt
    · exact .inl (List.mem_append_right _ (List.mem_singleton.2 (by omega)))

variable {beats : Bool}

theorem Rounds.push {b : PushAct n W} {r : SpmcRing.State Unit Unit n W}
    {e : List (SpmcRing.Event Unit Unit n W)} (h : Rounds cap tr x)
    (hring : SpmcRing.Inv cap (ringTrace (tr ++ e.map .ring)) r)
    (hm : PushMove beats cap x.ring () b r e) : Rounds cap (tr ++ e.map .ring) { x with ring := r } := by
  have hcons : r.cons = x.ring.cons := by cases hm <;> rfl
  have hcur : ∀ start, .cursor () start ∉ e := by cases hm <;> simp
  -- the counter goes on by the one position that is claimed
  have hwrite : r.writePos = x.ring.writePos + (claims e).length := by
    rw [hring.write, h.ring.write, ringTrace_append, ringTrace_map, claims_append, List.length_append]
  have hclaimed : ∀ p, p < r.writePos → p < x.ring.writePos ∨ ∃ item, .claim () p item ∈ e := by
    intro p hp
    cases hm with
    | claim item =>
      have hone : p < x.ring.writePos + 1 := hwrite ▸ hp
      rcases Nat.lt_or_ge p x.ring.writePos with hlt | hge
      · exact .inl hlt
      · obtain rfl : p = x.ring.writePos := by omega
        exact .inr ⟨item, by simp⟩
    | _ => exact .inl hp
  refine h.quiet (by rw [hcons]; exact h.worker) hring ?_ (positions_map e) ?_ ?_ ?_ ?_
  · intro p hp
    rcases hclaimed p hp with hlt | ⟨item, hmem⟩
    · exact .inl hlt
    · exact .inr ⟨item, List.mem_map_of_mem hmem⟩
  · intro start hmem
    rw [← mem_ringTrace, ringTrace_map] at hmem
    exact hcur start hmem
  · rw [reached, reached, hcons]
    split
    · exact hwrite.symm ▸ Nat.le_add_right _ _
    · exact le_rfl
  · intro hw
    rw [hcons, ringTrace_append, claims_append]
    exact getElem?_append_of_some (h.waiting hw)
  · intro hpc
    rw [hcons] at hpc ⊢
    exact ⟨hpc, fun p h1 h2 => absurd h2 (Nat.not_lt.2 h1)⟩

variable [Inhabited W]

theorem Rounds.receive {b : ReceiveAct n} {y : Consumer n W} {e : List (SpmcRing.Event Unit Unit n W)}
    (h : Rounds cap tr x) (hsmall : x.ring.writePos < 2 ^ 64) (hw : x.worker = .receive)
    (hring : SpmcRing.Inv cap (ringTrace (tr ++ (e.map .ring ++ moves (x.ring.cons ()).pos y.pos)))
      (x.ring.setCons () y))
    (hm : PopMove cap x.ring.writePos x.ring.slots () (x.ring.cons ()) b.access y e) :
    Rounds cap (tr ++ (e.map .ring ++ moves (x.ring.cons ()).pos y.pos))
      { x with ring := x.ring.setCons () y, worker := received (x.ring.cons ()).pc } := by
  have hx : Receiving (x.ring.cons ()) := by simpa [hw, WorkerOk] using h.worker
  have hself : (x.ring.setCons () y).cons () = y := State.setCons_self _ _ _
  have hpc : (x.ring.cons ()).pc ≠ .none := h.worker.pc_ne (by simp [hw]) (by simp [hw])
  obtain ⟨hok, hcur, hle, hnew⟩ := receive_move hx hsmall hm
  obtain ⟨hne, hne'⟩ := received_ne (x.ring.cons ()).pc
  have hpc' : y.pc ≠ .none := hok.pc_ne hne hne'
  refine h.quiet (by rwa [hself]) hring (fun p hp => .inl hp) (positions_access _ _ _) ?_ ?_ ?_ ?_
  · intro start hst
    rw [← mem_ringTrace, ringTrace_append, ringTrace_map, ringTrace_moves, List.append_nil] at hst
    exact hcur start hst
  · rw [reached, reached, if_neg hpc, if_neg (by rwa [hself]), hself, hw]
    exact hle
  · intro hcall
    -- a `pop` that returns true has left the item of its position
    have hret : (x.ring.cons ()).pc = .ret true := by
      dsimp only at hcall
      unfold received at hcall
      split at hcall
      · assumption
      · cases hcall
      · cases hcall
    have hcons := h.ring.cons ()
    generalize hz : x.ring.cons () = z at *
    generalize (b.access : PopAct n W) = c at hm
    cases hm with
    | ret pos out ok =>
      cases hret
      rw [hself, ringTrace_append, claims_append]
      exact getElem?_append_of_some hcons.2.2
    | _ => cases hret
  · intro _
    refine ⟨hpc, fun p h1 h2 => ?_⟩
    rw [hw] at h1
    rw [hself] at h2
    obtain ⟨hge, hlt, hlap⟩ := hnew p h1 h2
    obtain ⟨item, hmem⟩ := h.claimed _ hlap
    refine ⟨tr ++ e.map .ring, _, _, [], item, ?_, hge, hlt, List.mem_append_left _ hmem⟩
    rw [moves, if_neg (by omega), List.append_assoc]

theorem Rounds.step {s s' : State n W} {a : AsyncSubscriber.Act n W} (h : Rounds cap tr s.sub) (hinv : Inv s.sub)
    (hb : (claims (ringTrace (tr ++ o))).length < 2 ^ 63)
    (hs : (machine beats cap).step s a = some (s', o)) : Rounds cap (tr ++ o) s'.sub := by
  have hworker := h.worker
  rcases step_cases hs with ⟨-, rfl, rfl⟩ | ⟨-, rfl, -, rfl | rfl⟩ | ⟨hs, -, -, ha⟩
  · exact h.keep rfl hworker id rfl rfl rfl
  · rw [List.append_nil]
    exact h.launch
  · exact h.keep rfl hworker id rfl rfl rfl
  · obtain ⟨x', term⟩ := s'
    have hs : AsyncSubscriber.step beats cap s.sub a = some (x', o) := hs
    have hring : SpmcRing.Inv cap (ringTrace (tr ++ o)) x'.ring := by
      rcases step_ring hs with ⟨hr, ho⟩ | ⟨b, hb'⟩
      · rw [ringTrace_append, ho, List.append_nil, hr]
        exact h.ring
      · rw [ringTrace_append] at hb ⊢
        exact h.ring.step hb (ShmRingBuffer.noLap_of_step hb') hb'
    cases move_of_step hs with
    | push b hm => exact h.push hring hm
    | startAsync | started | stop | join => exact h.keep rfl hworker id rfl rfl rfl
    | launch => exact absurd rfl ha
    | makeCursor hw hm => exact h.makeCursor hring hm
    | loadStop hw =>
      rw [hw] at hworker
      have hidle : (s.sub.ring.cons ()).pc = .idle := hworker
      cases s.sub.stopFlag with
      | true => exact h.keep rfl hidle (fun hd => SpinPc.noConfusion hd) (by rw [hw]; rfl) rfl rfl
      | false =>
        have hrecv : Receiving (s.sub.ring.cons ()) := by simp only [Receiving, hidle]
        exact h.keep rfl hrecv (fun hd => SpinPc.noConfusion hd) (by rw [hw]; rfl) rfl rfl
    | receive b hw hm => exact h.receive hinv.small hw hring hm
    | callback hw => exact h.callback hw
    | wake hw =>
      rw [hw] at hworker
      exact h.keep rfl hworker (fun hd => SpinPc.noConfusion hd) (by rw [hw]; rfl) rfl rfl

theorem rounds_init : Rounds cap [] (machine beats cap : Machine (State n W) _ _).init.sub where
  worker := rfl
  ring := inv_init
  claimed := fun p hp => absurd hp (Nat.not_lt_zero p)
  sorted := List.Pairwise.nil
  below := fun _ h => by cases h
  items := fun _ _ h => by cases h
  waiting := fun h => by cases h
  covered := fun _ _ _ h => by cases h
  passed := fun _ _ _ h => by cases h

theorem rounds_of_runs {s : State n W} (h : (machine beats cap).Runs Machine.free tr s)
    (hb : (claims (ringTrace tr)).length < 2 ^ 63) : Inv s.sub ∧ Rounds cap tr s.sub := by
  refine h.invariant_of (B := fun tr => (claims (ringTrace tr)).length < 2 ^ 63)
    (I := fun tr s => Inv s.sub ∧ Rounds cap tr s.sub) (fun tr o hb => ?_)
    ⟨inv_start, rounds_init⟩ ?_ hb
  · rw [ringTrace_append, claims_append, List.length_append] at hb
    omega
  · intro tr s a s' o hb hi _ hs
    exact ⟨hi.1.step hs, hi.2.step hi.1 hb hs⟩

/-- The creation of a cursor shows nothing else. -/
theorem step_cursors {s s' : State n W} {a : AsyncSubscriber.Act n W} (hinv : Inv s.sub)
    (hs : (machine beats cap).step s a = some (s', o)) :
    cursors o = [] ∨ ∃ start, o = [.ring (.cursor () start)] := by
  rcases step_cases hs with ⟨-, rfl, -⟩ | ⟨-, rfl, -⟩ | ⟨hs, -⟩
  · exact .inl rfl
  · exact .inl rfl
  · generalize s'.sub = x' at hs
    cases move_of_step hs with
    | push b hm => cases hm <;> exact .inl rfl
    | startAsync | launch | started | stop | join | loadStop | callback | wake => exact .inl rfl
    | makeCursor hw hm =>
      generalize s.sub.ring.cons () = y at hm
      cases hm
      exact .inr ⟨_, rfl⟩
    | receive b hw hm =>
      have hrecv : Receiving (s.sub.ring.cons ()) := by simpa [hw, WorkerOk] using hinv.worker
      have hno := (receive_move hrecv hinv.small hm).2.1
      refine .inl (cursors_eq_nil fun start hmem => ?_)
      rw [← mem_ringTrace, ringTrace_append, ringTrace_map, ringTrace_moves, List.append_nil] at hmem
      exact hno start hmem

/-- In every round, not only in the last. -/
theorem covered_of_runs {s : State n W} (h : (machine beats cap).Runs Machine.free tr s)
    (hb : (claims (ringTrace tr)).length < 2 ^ 63) {tr₁ tr₂ tr₃ : List (AsyncSubscriber.Event n W)}
    {start p q : Nat} (heq : tr = tr₁ ++ .ring (.cursor () start) :: tr₂ ++ tr₃) (hnone : cursors tr₂ = [])
    (h1 : start ≤ p) (h2 : p < q) (hq : q ∈ positions tr₂) : p ∈ positions tr ∨ Overwritten cap tr p := by
  induction h generalizing tr₃ with
  | init => simp at heq
  | @step tr s s' a o hr hok hs ih =>
    have hb' : (claims (ringTrace tr)).length < 2 ^ 63 := by
      rw [ringTrace_append, claims_append, List.length_append] at hb
      omega
    have hold : ∀ l, tr = tr₁ ++ .ring (.cursor () start) :: tr₂ ++ l →
        p ∈ positions (tr ++ o) ∨ Overwritten cap (tr ++ o) p := by
      intro l htr
      rw [positions_append]
      exact (ih hb' htr).imp (List.mem_append_left _) fun hover => hover.append o
    rcases List.append_eq_append_iff.1 heq with ⟨l, hl, ho⟩ | ⟨l, htr, -⟩
    · cases l with
      | nil => exact hold [] (by rw [hl, List.append_nil, List.append_nil])
      | cons e l =>
        -- the round goes on in this step, which creates no cursor behind `e`
        have hlast : cursors tr₃ = [] := by
          rcases step_cursors (Inv.of_runs hr).1 hs with hnil | ⟨start', hone⟩
          · rw [ho, cursors_append] at hnil
            exact (List.append_eq_nil_iff.1 hnil).2
          · obtain ⟨-, -, rfl⟩ : .ring (.cursor () start') = e ∧ l = [] ∧ tr₃ = [] := by
              simpa using hone.symm.trans ho
            rfl
        have hcurs : cursors (tr ++ o) = cursors tr₁ ++ start :: cursors tr₂ := by
          rw [heq, cursors_append, hlast, List.append_nil, cursors_append]
          rfl
        refine (rounds_of_runs (hr.step hok hs) hb).2.covered start p q ?_ h1 h2 ?_
        · rw [hcurs, hnone, List.getLast?_append, List.getLast?_singleton, Option.some_or]
        · rw [heq, List.append_assoc, positions_append]
          refine List.mem_append_right _ ?_
          rw [List.cons_append, ← List.singleton_append, positions_append, positions_append]
          exact List.mem_append_right _ (List.mem_append_left _ hq)
    · exact hold l htr

/-- In every run of fewer than `2 ^ 63` pushes and any number of rounds of `start_async` and `stop`: the
messages passed to the callback have strictly increasing positions over all rounds, so none is delivered
twice; each is the item of the push that obtained its position; and of the positions from a worker's cursor
on, up to one that it delivered, it has delivered all that were not overwritten. -/
theorem delivered_over_rounds (beats : Bool) (cap : Capacity) (tr : List (AsyncSubscriber.Event n W))
    (s : State n W) (h : (machine beats cap).Runs Machine.free tr s)
    (hb : (claims (ringTrace tr)).length < 2 ^ 63) :
    (positions tr).Pairwise (· < ·) ∧
    (∀ p item, .callback p item ∈ tr → (claims (ringTrace tr))[p]? = some item) ∧
    ∀ tr₁ start tr₂ tr₃, tr = tr₁ ++ .ring (.cursor () start) :: tr₂ ++ tr₃ → cursors tr₂ = [] →
      ∀ p q, start ≤ p → p < q → q ∈ positions tr₂ → p ∈ positions tr ∨ Overwritten cap tr p := by
  obtain ⟨-, hr⟩ := rounds_of_runs h hb
  refine ⟨hr.sorted, hr.items, fun tr₁ start tr₂ tr₃ heq hnone p q h1 h2 hq => ?_⟩
  exact covered_of_runs h hb heq hnone h1 h2 hq

end

/-- Two rounds; the message published between them is in none. -/
def twoRounds : State 1 Nat × List (AsyncSubscriber.Event 1 Nat) :=
  let round (k : Nat) : List (AsyncSubscriber.Act 1 Nat) :=
    [.owner .startAsync, .owner .launch, .spin .makeCursor, .owner .started] ++ publishActs true k ++
      deliverActs ++ [.owner .stop, .spin .loadStop, .owner .join]
  (machine true .two).after (round 7 ++ publishActs true 8 ++ round 9)

theorem delivered_over_rounds_two : positions twoRounds.2 = [0, 2] ∧ .callback 2 (fun _ => 9) ∈ twoRounds.2 ∧
    (positions twoRounds.2).Pairwise (· < ·) := by
  have hrun : (machine true .two).Runs Machine.free twoRounds.2 twoRounds.1 := Machine.Runs.after rfl
  obtain ⟨hsorted, hitems, -⟩ := delivered_over_rounds true .two _ _ hrun (by decide)
  have hpos : positions twoRounds.2 = [0, 2] := rfl
  obtain ⟨item, hcall⟩ := mem_positions.1 (hpos ▸ by simp : 2 ∈ positions twoRounds.2)
  obtain rfl : (fun _ => 9) = item := Option.some.inj (hitems 2 item hcall)
  exact ⟨hpos, hcall, hsorted⟩

end Lwipc.AsyncLifecycle
