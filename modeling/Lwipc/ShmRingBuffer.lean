import Lwipc.SpmcCalls

/-!
# `ShmRingBuffer`: one producer, any number of cursors

With a single producer thread nobody can claim a position while a push is in flight, so every run is
one in which no push laps another and the slot invariant holds throughout. What follows from it here:
reads are never torn or misplaced (`no_torn_read`), and a message is lost, or a `pop` refused, only
for a reason (`lost_only_by_overwriting`).
-/

namespace Lwipc.ShmRingBuffer

open SpmcRing

variable {C : Type} {n : Nat} {W : Type} {cap : Capacity} {tr o : List (Event Unit C n W)}
  {s s' : State Unit C n W} {c : C} {pos : Nat}

/-- The ring with its one producer thread. -/
def machine [DecidableEq C] [Inhabited W] (cap : Capacity) :
    Machine (State Unit C n W) (Act Unit C n W) (Event Unit C n W) :=
  SpmcRing.machine true cap

section
variable [DecidableEq C]

/-- A lone producer never laps itself: it is idle when it calls `push`. -/
theorem noLap_of_step {beats : Bool} {a : Act Unit C n W} (hs : step beats cap s a = some (s', o)) :
    NoLap cap tr s a := by
  rcases a with ⟨p, item | _ | _ | _ | _⟩ | _ <;> try trivial
  intro q pos hfl
  cases step_prod_eq_some.1 hs with
  | claim _ hp => rw [hp] at hfl; exact hfl.elim

variable [Inhabited W]

theorem prod_step {p : Unit} {a : PushAct n W} :
    (machine cap).step s (.prod p a) = some (s', o) ↔ PushMove true cap s p a s' o :=
  SpmcRing.prod_step

theorem cons_step {a : PopAct n W} : (machine cap).step s (.cons c a) = some (s', o) ↔
    ∃ x, PopMove cap s.writePos s.slots c (s.cons c) a x o ∧ s' = s.setCons c x :=
  SpmcRing.cons_step

theorem runs_noLap (h : (machine cap).Runs Machine.free tr s) :
    (SpmcRing.machine true cap).Runs (NoLap cap) tr s :=
  Machine.Runs.mono h fun _ _ _ _ _ _ hs => noLap_of_step hs

theorem inv (h : (machine cap).Runs Machine.free tr s) (hb : (claims tr).length < 2 ^ 63) :
    Inv cap tr s :=
  inv_of_runs (runs_noLap h) hb

end

/-! ### What a cursor delivers -/

/-- The lowest position the consumer can still deliver. -/
def next (x : Consumer n W) : Nat :=
  match x.pc with
  | .none => 0
  | .ret true => x.pos - 1
  | _ => x.pos

/-- A consumer's move never goes back, and a successful return delivers the position it stands at. -/
theorem next_move {x x' : Consumer n W} {a : PopAct n W} (hx : ConsOk cap tr s x)
    (hw : s.writePos < 2 ^ 63) (hm : PopMove cap s.writePos s.slots c x a x' o) :
    (next x ≤ next x' ∧ ∀ pos out, .ret c true pos out ∉ o) ∨
      ∃ out, x = ⟨next x + 1, out, .ret true⟩ ∧ x' = ⟨next x + 1, out, .idle⟩ ∧
        o = [.ret c true (next x + 1) out] := by
  obtain ⟨-, hpc⟩ := hx
  cases hm with
  | makeCursor | makeCursorFromStart => exact .inl ⟨Nat.zero_le _, by simp⟩
  | nothingNew | notReady | isReady | read | torn => exact .inl ⟨Nat.le_refl _, by simp⟩
  | forward pos old out hlt =>
    exact .inl ⟨le_fastForward cap s.writePos pos, by simp⟩
  | taken pos out copied hall heq =>
    have hlt : pos < s.writePos := hpc.1
    refine .inl ⟨?_, by simp⟩
    rw [u64_of_lt (by omega)]
    exact Nat.le_refl _
  | ret pos out ok =>
    cases ok with
    | false => exact .inl ⟨Nat.le_refl _, by simp⟩
    | true =>
      have hpos : 0 < pos := hpc.1
      have hn : next (⟨pos, out, .ret true⟩ : Consumer n W) + 1 = pos := Nat.sub_add_cancel hpos
      exact .inr ⟨out, by rw [hn], by rw [hn], by rw [hn]⟩

section
variable [DecidableEq C]

theorem delivered_append (c : C) (tr o : List (Event Unit C n W)) :
    delivered c (tr ++ o) = delivered c tr ++ delivered c o := by
  unfold delivered returns
  rw [List.filterMap_append, List.map_append]

theorem exists_ret_of_delivered {p : Nat} (h : p ∈ delivered c tr) :
    ∃ pos out, .ret c true pos out ∈ tr ∧ pos - 1 = p := by
  obtain ⟨⟨pos, out⟩, hmem, hp⟩ := List.mem_map.1 h
  exact ⟨pos, out, mem_returns.1 hmem, hp⟩

theorem delivered_eq_nil (h : ∀ pos out, .ret c true pos out ∉ o) : delivered c o = [] := by
  refine List.eq_nil_iff_forall_not_mem.2 fun p hp => ?_
  obtain ⟨pos, out, hmem, -⟩ := exists_ret_of_delivered hp
  exact h pos out hmem

/-- What cursor `c` has delivered: increasing positions below `next`. -/
structure Delivered (c : C) (tr : List (Event Unit C n W)) (s : State Unit C n W) : Prop where
  sorted : (delivered c tr).Pairwise (· < ·)
  below : ∀ p ∈ delivered c tr, p < next (s.cons c)

theorem Delivered.step {beats : Bool} {a : Act Unit C n W} (h : Delivered c tr s)
    (hi : Inv cap tr s) (hw : s.writePos < 2 ^ 63) (hs : step beats cap s a = some (s', o)) :
    Delivered c (tr ++ o) s' := by
  obtain ⟨hsorted, hbelow⟩ := h
  -- a step that is not a successful return of `c` leaves the list as it is
  have hquiet : (∀ pos out, .ret c true pos out ∉ o) → next (s.cons c) ≤ next (s'.cons c) →
      Delivered c (tr ++ o) s' := by
    intro hno hle
    have heq : delivered c (tr ++ o) = delivered c tr := by
      rw [delivered_append, delivered_eq_nil hno, List.append_nil]
    exact ⟨heq ▸ hsorted, fun p hp => Nat.lt_of_lt_of_le (hbelow p (heq ▸ hp)) hle⟩
  cases a with
  | prod p a =>
    have hcons : s'.cons = s.cons := by cases step_prod_eq_some.1 hs <;> rfl
    refine hquiet ?_ (by rw [hcons])
    cases step_prod_eq_some.1 hs <;> simp
  | cons c' a =>
    obtain ⟨x, hx, rfl⟩ := step_cons_eq_some.1 hs
    by_cases hc : c' = c
    · subst hc
      rcases next_move (hi.cons c') hw hx with ⟨hle, hno⟩ | ⟨out, -, hx', rfl⟩
      · exact hquiet hno (by rwa [State.setCons_self])
      · have hd : delivered c' (tr ++ [.ret c' true (next (s.cons c') + 1) out]) =
            delivered c' tr ++ [next (s.cons c')] := by
          rw [delivered_append]; simp [delivered, returns]
        refine ⟨?_, fun p hp => ?_⟩
        · rw [hd, List.pairwise_append]
          refine ⟨hsorted, List.pairwise_singleton _ _, fun p hp q hq => ?_⟩
          rw [List.mem_singleton.1 hq]
          exact hbelow p hp
        · rw [State.setCons_self, hx']
          show p < next (s.cons c') + 1
          rw [hd] at hp
          rcases List.mem_append.1 hp with hp | hp
          · exact Nat.lt_succ_of_lt (hbelow p hp)
          · exact Nat.lt_succ_of_le (Nat.le_of_eq (List.mem_singleton.1 hp))
    · refine hquiet ?_ (by rw [State.setCons_of_ne (Ne.symm hc)])
      intro pos out hmem
      generalize s.cons c' = y at hx
      cases hx <;> simp at hmem
      exact hc hmem.1.symm

variable [Inhabited W]

theorem delivered_of_runs (h : (machine cap).Runs Machine.free tr s)
    (hb : (claims tr).length < 2 ^ 63) (c : C) : Delivered c tr s := by
  induction h with
  | init => exact ⟨List.Pairwise.nil, fun _ hp => by cases hp⟩
  | @step tr s s' a o hr _ hs ih =>
    have hb' : (claims tr).length < 2 ^ 63 := by
      rw [claims_append, List.length_append] at hb; omega
    have hi := inv hr hb'
    exact (ih hb').step hi (hi.write ▸ hb') hs

end

/-! ### Overtaken readers -/

/-- A call of `pop` at `q` that cannot succeed any more: it is copying out of a slot that already
serves a later position, or has failed. -/
def Overtaken (cap : Capacity) (q : Nat) (s : State Unit C n W) (x : Consumer n W) : Prop :=
  x.pos = q ∧ ((∃ copied, x.pc = .copy copied) ∧ q * 2 + 1 < (s.slots (cap.slot q)).sequence ∨
    x.pc = .ret false)

section
variable [DecidableEq C] {q : Nat}

theorem Overtaken.step {beats : Bool} {a : Act Unit C n W} (h : Overtaken cap q s (s.cons c))
    (hi : Inv cap tr s) (hb : (claims (tr ++ o)).length < 2 ^ 63) (ha : a ≠ .cons c .ret)
    (hs : step beats cap s a = some (s', o)) : Overtaken cap q s' (s'.cons c) := by
  obtain ⟨hpos, hpc⟩ := h
  cases a with
  | prod p a =>
    obtain ⟨-, -, hcons, hseq⟩ := hi.toRing.pushMove hb (noLap_of_step hs) (step_prod_eq_some.1 hs)
    rw [hcons]
    exact ⟨hpos, hpc.imp_left fun h1 => ⟨h1.1, Nat.lt_of_lt_of_le h1.2 (hseq _)⟩⟩
  | cons c' a =>
    obtain ⟨x, hx, rfl⟩ := step_cons_eq_some.1 hs
    by_cases hc : c' = c
    · subst hc
      have hok := hi.cons c'
      have hw : s.writePos < 2 ^ 63 := by
        rw [claims_append, List.length_append] at hb; rw [hi.write]; omega
      have hle := hok.1
      rw [State.setCons_self]
      generalize s.cons c' = y at hx hpos hpc hle
      -- only the accesses of the copy phase and the return remain
      cases hx with
      | makeCursor | makeCursorFromStart | nothingNew | forward | notReady | isReady =>
        simp at hpc
      | read pos out copied i =>
        obtain rfl : pos = q := hpos
        exact ⟨rfl, hpc.imp (fun h1 => ⟨⟨_, rfl⟩, h1.2⟩) (fun h1 => by cases h1)⟩
      | torn pos out copied hall hne => exact ⟨hpos, .inr rfl⟩
      | taken pos out copied hall heq =>
        obtain rfl : pos = q := hpos
        simp only at hle
        rw [expected_of_lt (by omega)] at heq
        rcases hpc with ⟨-, h1⟩ | h1
        · exact absurd heq (Nat.ne_of_gt h1)
        · cases h1
      | ret pos out ok => exact absurd rfl ha
    · rw [State.setCons_of_ne (Ne.symm hc)]
      exact ⟨hpos, hpc⟩

omit [DecidableEq C] in
/-- A reader that finds the producer writing its slot in the middle of its copy does not succeed. -/
theorem overtaken_of_copy {pos' : Nat} {item : Fin n → W} {copied copied' : Fin n → Bool}
    (hi : Inv cap tr s) (hc : (s.cons c).pc = .copy copied)
    (hp : s.prod () = .copy pos' item copied') (hsl : cap.slot pos' = cap.slot (s.cons c).pos) :
    Overtaken cap (s.cons c).pos s (s.cons c) := by
  obtain ⟨-, hok⟩ := hi.cons c
  rw [hc] at hok
  have hprod := hi.prod ()
  rw [hp] at hprod
  have hseq := hprod.2.1
  rw [hsl] at hseq
  have hge := hok.2.1
  exact ⟨rfl, .inl ⟨⟨copied, hc⟩, by omega⟩⟩

variable [Inhabited W]

theorem overtaken_exec {acts : List (Act Unit C n W)} (hr : (machine cap).Runs Machine.free tr s)
    (h : Overtaken cap q s (s.cons c)) (hacts : .cons c .ret ∉ acts)
    (he : (machine cap).exec s acts = some (s', o)) (hb : (claims (tr ++ o)).length < 2 ^ 63) :
    Overtaken cap q s' (s'.cons c) := by
  refine (Machine.exec_invariant (P := fun a => a ≠ .cons c .ret)
    (I := fun tr s => (machine cap).Runs Machine.free tr s ∧
      ((claims tr).length < 2 ^ 63 → Overtaken cap q s (s.cons c))) ?_ ⟨hr, fun _ => h⟩
    (fun a ha => ?_) he).2 hb
  rotate_left
  · rintro rfl
    exact hacts ha
  rintro tr s a s' o ⟨hr, ih⟩ ha hs
  refine ⟨hr.step trivial hs, fun hb => ?_⟩
  have hb' : (claims tr).length < 2 ^ 63 := by
    rw [claims_append, List.length_append] at hb; omega
  exact (ih hb').step (inv hr hb') hb ha hs

/-- In every run of fewer than `2 ^ 63` pushes: a `pop` that returned true gave the item of the push
that obtained the position before its cursor; the positions a cursor delivers increase; a cursor is
never ahead of `write_pos`; and a reader in whose slot the producer is writing in the middle of its
copy does not return true. -/
theorem no_torn_read (cap : Capacity) (tr : List (Event Unit C n W)) (s : State Unit C n W)
    (h : (machine cap).Runs Machine.free tr s) (hb : (claims tr).length < 2 ^ 63) :
    (∀ c pos out, .ret c true pos out ∈ tr → 0 < pos ∧ itemAt tr (pos - 1) = some out) ∧
    (∀ c, (delivered c tr).Pairwise (· < ·)) ∧
    (∀ c, (s.cons c).pos ≤ s.writePos) ∧
    ∀ c pos' item copied copied', (s.cons c).pc = .copy copied →
      s.prod () = .copy pos' item copied' → cap.slot pos' = cap.slot (s.cons c).pos →
      ∀ acts s' o, .cons c .ret ∉ acts → (machine cap).exec s acts = some (s', o) →
        (claims (tr ++ o)).length < 2 ^ 63 → (s'.cons c).pc ≠ .ret true := by
  have hi := inv h hb
  refine ⟨fun c pos out hr => item_of_ret (runs_noLap h) hb hr, fun c => (delivered_of_runs h hb c).sorted,
    fun c => (hi.cons c).1, ?_⟩
  intro c pos' item copied copied' hc hp hsl acts s' o hacts he hb'
  obtain ⟨-, ⟨⟨copied'', h1⟩, -⟩ | h1⟩ :=
    overtaken_exec h (overtaken_of_copy hi hc hp hsl) hacts he hb'
  · rw [h1]; simp
  · rw [h1]; simp

/-- Two words, two slots: the reader gets item 0 and is overtaken in its copy of item 1. -/
theorem no_torn_read_two_slots :
    ∃ (tr : List (Event Unit Unit 2 Nat)) (s : State Unit Unit 2 Nat),
      .ret () true 1 (fun _ => 7) ∈ tr ∧ itemAt tr 0 = some (fun _ => 7) ∧
      (s.cons ()).pc = .copy (Function.update (fun _ => false) 0 true) ∧
      ∀ acts s' o, .cons () .ret ∉ acts → (machine .two).exec s acts = some (s', o) →
        (claims (tr ++ o)).length < 2 ^ 63 → (s'.cons ()).pc ≠ .ret true := by
  let M : Machine (State Unit Unit 2 Nat) (Act Unit Unit 2 Nat) (Event Unit Unit 2 Nat) :=
    machine .two
  let one : Fin 2 → Bool := Function.update (fun _ => false) 0 true
  let push (k : Nat) : List (Act Unit Unit 2 Nat) :=
    [.prod () (.push fun _ => k), .prod () .mark, .prod () (.word 0), .prod () (.word 1),
      .prod () .ready, .prod () (.beat 1)]
  let acts : List (Act Unit Unit 2 Nat) :=
    [Act.cons () .makeCursorFromStart] ++ push 7 ++ push 8 ++
    [Act.cons () (.pop fun _ => 0), .cons () .check, .cons () (.read 1), .cons () (.read 0),
      .cons () .recheck, .cons () .ret, .cons () (.pop fun _ => 0), .cons () .check,
      .cons () (.read 0)] ++ push 9 ++ (push 10).take 3
  have hexec : (M.exec M.init acts).map (fun r => (((r.1.cons ()).pc, (r.1.cons ()).pos, r.1.prod ()),
      (delivered () r.2, itemAt r.2 0, (claims r.2).length))) =
      some ((.copy one, 1, .copy 3 (fun _ => 10) one), ([0], some (fun _ => 7), 4)) := by decide +kernel
  obtain ⟨tr, s, hr, hend⟩ := Machine.Runs.exists_of_exec hexec
  simp only [Prod.mk.injEq] at hend
  obtain ⟨⟨hpc, hpos, hprod⟩, hdel, hitem, hlen⟩ := hend
  obtain ⟨h1, -, -, h4⟩ := no_torn_read .two tr s hr (by rw [hlen]; decide)
  obtain ⟨pos, out, hret, hzero⟩ := exists_ret_of_delivered (by rw [hdel]; exact List.mem_singleton_self 0)
  obtain ⟨hpos', hout⟩ := h1 () pos out hret
  obtain rfl : pos = 1 := by omega
  rw [hitem] at hout
  obtain rfl : (fun _ => 7) = out := Option.some.inj hout
  refine ⟨tr, s, hret, hitem, hpc, h4 () 3 _ _ _ hpc hprod ?_⟩
  rw [hpos]; decide

end

/-! ### Lost messages and refused calls -/

/-- A move past `p` delivers `p`, or `p` is a lap behind what has been claimed. -/
theorem move_past {x x' : Consumer n W} {a : PopAct n W} {p : Nat} (hx : ConsOk cap tr s x)
    (hw : s.writePos < 2 ^ 63) (hne : x.pc ≠ .none) (hm : PopMove cap s.writePos s.slots c x a x' o)
    (h1 : x.pos ≤ p) (h2 : p < x'.pos) :
    p + cap.val < s.writePos ∨ x'.pc = .ret true ∧ p + 1 = x'.pos := by
  obtain ⟨-, hpc⟩ := hx
  cases hm with
  | makeCursor | makeCursorFromStart => exact absurd rfl hne
  | nothingNew | notReady | isReady | read | torn | ret => exact absurd h2 (Nat.not_lt.2 h1)
  | forward pos old out hlt =>
    left
    simp only [fastForward] at h1 h2
    split at h2 <;> omega
  | taken pos out copied hall heq =>
    have hlt : pos < s.writePos := hpc.1
    simp only [u64_of_lt (show pos + 1 < 2 ^ 64 by omega)] at h1 h2 ⊢
    exact .inr ⟨trivial, by omega⟩

/-- A move to `return false` found nothing new, a slot not yet ready, or one overwritten. -/
theorem move_to_false {x x' : Consumer n W} {a : PopAct n W} (h : Ring cap tr s)
    (hx : ConsOk cap tr s x) (hw : s.writePos < 2 ^ 63)
    (hm : PopMove cap s.writePos s.slots c x a x' o) (hf : x'.pc = .ret false) :
    (∃ out, a = .pop out) ∧ s.writePos ≤ x.pos ∨
      x'.pos ∉ readied tr ∨ x'.pos + cap.val < s.writePos := by
  obtain ⟨-, hpc⟩ := hx
  cases hm with
  | makeCursor | makeCursorFromStart | forward | isReady | read | taken | ret => simp at hf
  | nothingNew pos old out hle => exact .inl ⟨⟨out, rfl⟩, hle⟩
  | notReady pos out hne =>
    have hlt : pos < s.writePos := hpc
    rw [expected_of_lt (by omega)] at hne
    rcases h.sequence_cases hlt with ⟨h1, -⟩ | ⟨-, p, h1⟩ | ⟨-, h1⟩
    · exact absurd h1 hne
    · exact .inr (.inl fun hr => ((h.readied pos).1 hr).2 p h1)
    · exact .inr (.inr h1)
  | torn pos out copied hall hne =>
    obtain ⟨hlt, hge, -⟩ := hpc
    simp only at hlt hge
    rw [expected_of_lt (by omega)] at hne
    rcases h.sequence_cases hlt with ⟨h1, -⟩ | ⟨h1, -⟩ | ⟨-, h1⟩
    · exact absurd h1 hne
    · omega
    · exact .inr (.inr h1)

/-! ### A `pop` that the producer leaves alone -/

/-- The consumer stands in a `pop` at `q`, or has come through it. -/
def Passing (q : Nat) (x : Consumer n W) : Prop :=
  x.pos = q ∧ (x.pc = .loadSeq ∨ ∃ copied, x.pc = .copy copied) ∨ x.pc = .ret true

theorem Passing.move {q w : Nat} {slots : Nat → Slot n W} {x x' : Consumer n W} {a : PopAct n W}
    (h : Passing q x) (hseq : (slots (cap.slot q)).sequence = expected q) (ha : a ≠ .ret)
    (hm : PopMove cap w slots c x a x' o) : Passing q x' := by
  cases hm with
  | makeCursor | makeCursorFromStart | nothingNew | forward => simp [Passing] at h
  | notReady pos out hne =>
    obtain rfl : pos = q := by simpa [Passing] using h
    exact absurd hseq hne
  | isReady pos out heq =>
    obtain rfl : pos = q := by simpa [Passing] using h
    exact .inl ⟨rfl, .inr ⟨_, rfl⟩⟩
  | read pos out copied i =>
    obtain rfl : pos = q := by simpa [Passing] using h
    exact .inl ⟨rfl, .inr ⟨_, rfl⟩⟩
  | torn pos out copied hall hne =>
    obtain rfl : pos = q := by simpa [Passing] using h
    exact absurd hseq hne
  | taken => exact .inr rfl
  | ret => exact absurd rfl ha

section
variable [DecidableEq C] [Inhabited W]

/-- An action that is neither the producer's nor the return of `c`. -/
def Quiet (c : C) (a : Act Unit C n W) : Prop := a ≠ .cons c .ret ∧ ∀ b, a ≠ .prod () b

/-- What the moves of `c` before its return preserve, the producer standing still. -/
theorem quiet_exec {J : Consumer n W → Prop} {acts : List (Act Unit C n W)}
    (hJ : ∀ {x x' : Consumer n W} {a} {o : List (Event Unit C n W)}, a ≠ .ret → J x →
      PopMove cap s.writePos s.slots c x a x' o → J x')
    (hq : ∀ a ∈ acts, Quiet c a) (he : (machine cap).exec s acts = some (s', o))
    (h : J (s.cons c)) : J (s'.cons c) := by
  refine (Machine.exec_preserves (P := Quiet c)
    (I := fun t => t.writePos = s.writePos ∧ t.slots = s.slots ∧ J (t.cons c)) ?_ ⟨rfl, rfl, h⟩
    hq he).2.2
  rintro t a t' o ⟨hw, hsl, ht⟩ ⟨hret, hprod⟩ hs
  cases a with
  | prod p a => exact absurd rfl (hprod a)
  | cons c' a =>
    obtain ⟨x, hx, rfl⟩ := cons_step.1 hs
    refine ⟨hw, hsl, ?_⟩
    by_cases hc : c' = c
    · subst hc
      rw [hw, hsl] at hx
      rw [State.setCons_self]
      exact hJ (fun h1 => hret (by rw [h1])) ht hx
    · rw [State.setCons_of_ne (Ne.symm hc)]
      exact ht

theorem step_of_move {x x' : Consumer n W} {a : PopAct n W} (hc : s.cons c = x)
    (hm : PopMove cap s.writePos s.slots c x a x' o) :
    (machine cap).step s (.cons c a) = some (s.setCons c x', o) :=
  SpmcRing.step_of_move hc hm

/-- The call of `c` can come to its return, the producer standing still. -/
def CanReturn (cap : Capacity) (c : C) (s : State Unit C n W) : Prop :=
  ∃ acts, (∀ a ∈ acts, Quiet c a) ∧
    ∃ s' o ok, (machine cap).exec s acts = some (s', o) ∧ (s'.cons c).pc = .ret ok

theorem canReturn_of_reaches (h : ReachesReturn true cap c s) : CanReturn cap c s := by
  obtain ⟨acts, hacts, s', o, ok, he, hr⟩ := h
  refine ⟨acts.map (.cons c), fun a ha => ?_, s', o, ok, he, hr⟩
  obtain ⟨b, hb, rfl⟩ := List.mem_map.1 ha
  exact ⟨by simpa using (hacts b hb).1, by simp⟩

/-! ### Whole calls -/

/-- What follows the `fetch_add` of a push. -/
def pushBody (n : Nat) (W : Type) : List (PushAct n W) :=
  [PushAct.mark] ++ (List.finRange n).map PushAct.word ++ [PushAct.ready, .beat 0]

/-- A push whose producer is not interrupted. -/
theorem exec_pushBody (cap : Capacity) {item : Fin n → W} (hp : s.prod () = .mark pos item) :
    ∃ s' o, (machine cap).exec s ((pushBody n W).map (.prod ())) = some (s', o) ∧
      s'.prod () = .idle ∧ s'.cons = s.cons ∧ s'.writePos = s.writePos ∧
      s'.slots = Function.update s.slots (cap.slot pos) ⟨u64 (pos * 2 + 1), item⟩ := by
  obtain ⟨s₁, o, he, hp₁, hc, hw, hsl⟩ := exec_stores true cap hp
  have hbeat : (machine cap).step s₁ (.prod () (.beat 0)) = some (_, _) :=
    prod_step.2 (.beat pos 0 hp₁)
  have hexec := Machine.exec_append he
    (Machine.exec_cons_eq_some.2 ⟨_, _, _, hbeat, Machine.exec_nil _, rfl⟩)
  have hacts : (pushBody n W).map (Act.prod () : _ → Act Unit C n W) =
      (stores n W).map (.prod ()) ++ [.prod () (.beat 0)] := by
    unfold pushBody stores
    simp
  rw [← hacts] at hexec
  exact ⟨_, _, hexec, State.setProd_self _ _ _, hc, hw, hsl⟩

theorem exec_reads (cap : Capacity) {q : Nat} {out : Fin n → W} {copied : Fin n → Bool} (l : List (Fin n))
    (hc : s.cons c = ⟨q, out, .copy copied⟩) :
    ∃ copied', (machine cap).exec s (l.map fun i => .cons c (.read i)) =
        some (s.setCons c ⟨q, fun i => if i ∈ l then (s.slots (cap.slot q)).data i else out i,
          .copy copied'⟩, []) ∧
      (∀ i, i ∈ l → copied' i = true) ∧ ∀ i, copied i = true → copied' i = true := by
  induction l generalizing s out copied with
  | nil =>
    refine ⟨copied, ?_, by simp, fun _ h => h⟩
    have hsame : s.setCons c ⟨q, out, .copy copied⟩ = s := by
      rw [← hc]
      exact congrArg (fun f => { s with cons := f }) (Function.update_eq_self c s.cons)
    simp [hsame]
  | cons i l ih =>
    have hs : (machine cap).step s (.cons c (.read i)) = some (_, _) :=
      step_of_move hc (.read q out copied i)
    obtain ⟨copied', he, h1, h2⟩ := ih (s := s.setCons c
      ⟨q, Function.update out i ((s.slots (cap.slot q)).data i), .copy (Function.update copied i true)⟩)
      (State.setCons_self _ _ _)
    refine ⟨copied', ?_, ?_, ?_⟩
    · rw [List.map_cons, Machine.exec_cons hs, he]
      simp only [Option.map_some, List.append_nil, State.setCons, Function.update_idem]
      congr 6
      funext j
      by_cases hj : j ∈ l
      · simp [hj]
      · by_cases hji : j = i
        · subst hji; simp
        · simp [hj, hji]
    · intro j hj
      rcases List.mem_cons.1 hj with rfl | hj
      · exact h2 j (Function.update_self _ _ _)
      · exact h1 j hj
    · intro j hj
      refine h2 j ?_
      by_cases hji : j = i
      · subst hji; exact Function.update_self _ _ _
      · rwa [Function.update_of_ne hji]

/-- In every run of fewer than `2 ^ 63` pushes: a cursor moves past a position it does not deliver
only when the position a lap later has been claimed; a `pop` comes to `return false` only when
`write_pos` was not ahead of its cursor, or the position was not ready yet, or the position a lap
later had been claimed; and a `pop` that starts with the producer outside `push` and during which the
producer takes no step can always return, and returns true exactly when `write_pos` is ahead. -/
theorem lost_only_by_overwriting (cap : Capacity) (tr : List (Event Unit C n W))
    (s : State Unit C n W) (h : (machine cap).Runs Machine.free tr s)
    (hb : (claims tr).length < 2 ^ 63) :
    (∀ c a s' o p, (machine cap).step s a = some (s', o) → (s.cons c).pc ≠ .none →
      (s.cons c).pos ≤ p → p < (s'.cons c).pos →
        p + cap.val < (claims tr).length ∨ (s'.cons c).pc = .ret true ∧ p + 1 = (s'.cons c).pos) ∧
    (∀ c a s' o, (machine cap).step s (.cons c a) = some (s', o) → (s'.cons c).pc = .ret false →
      (∃ out, a = .pop out) ∧ s.writePos ≤ (s.cons c).pos ∨
        (s'.cons c).pos ∉ readied tr ∨ (s'.cons c).pos + cap.val < (claims tr).length) ∧
    (s.prod () = .idle → ∀ c out s₁ o₁, (s.cons c).pc = .idle →
      (machine cap).step s (.cons c (.pop out)) = some (s₁, o₁) →
        CanReturn cap c s₁ ∧ ∀ acts s' o ok, (∀ a ∈ acts, Quiet c a) →
          (machine cap).exec s₁ acts = some (s', o) → (s'.cons c).pc = .ret ok →
            (ok = true ↔ (s.cons c).pos < s.writePos)) := by
  have hi := inv h hb
  have hw : s.writePos < 2 ^ 63 := hi.write ▸ hb
  rw [← hi.write]
  refine ⟨?_, ?_, ?_⟩
  · intro c a s' o p hs hne h1 h2
    cases a with
    | prod q a =>
      have hcons : s'.cons = s.cons := by cases prod_step.1 hs <;> rfl
      rw [hcons] at h2
      exact absurd h2 (Nat.not_lt.2 h1)
    | cons c' a =>
      obtain ⟨x, hx, rfl⟩ := cons_step.1 hs
      by_cases hc : c' = c
      · subst hc
        rw [State.setCons_self] at h2 ⊢
        exact move_past (hi.cons c') hw hne hx h1 h2
      · rw [State.setCons_of_ne (Ne.symm hc)] at h2
        exact absurd h2 (Nat.not_lt.2 h1)
  · intro c a s' o hs hf
    obtain ⟨x, hx, rfl⟩ := cons_step.1 hs
    rw [State.setCons_self] at hf ⊢
    exact move_to_false hi.toRing (hi.cons c) hw hx hf
  · intro hp c out s₁ o₁ hc hs
    obtain ⟨x, hx, rfl⟩ := cons_step.1 hs
    have hself : (s.setCons c x).cons c = x := State.setCons_self s c x
    generalize hy : s.cons c = y at hx hc
    cases hx with
    | nothingNew pos old out hle =>
      refine ⟨canReturn_of_reaches (reachesReturn_of_ret (by rw [hself])), fun acts s' o ok hq he hr => ?_⟩
      -- the call has already failed, and stays so until it returns
      have hfail : (s'.cons c).pc = .ret false := by
        refine quiet_exec (J := fun x => x.pc = .ret false) ?_ hq he (by rw [hself])
        intro x x' a o ha hx hm
        cases hm <;> simp_all
      rw [hfail] at hr
      cases hr
      exact ⟨Bool.noConfusion, fun h1 => absurd hle (Nat.not_le.2 h1)⟩
    | forward pos old out hlt =>
      refine ⟨canReturn_of_reaches (reachesReturn_loadSeq hself), fun acts s' o ok hq he hr => ?_⟩
      have hseq := (hi.toRing.ready (fun _ => hp) hw hlt).1
      have hpass : Passing (fastForward cap s.writePos pos) (s'.cons c) := by
        refine quiet_exec (J := Passing _) (fun ha hx hm => ?_) hq he ?_
        · exact hx.move hseq ha hm
        · rw [hself]
          exact .inl ⟨rfl, .inl rfl⟩
      obtain rfl : ok = true := by simpa [Passing, hr] using hpass
      exact ⟨fun _ => hlt, fun _ => rfl⟩

/-- Three pushes into two slots: a cursor from the start skips position 0 and reads position 1. -/
theorem lost_only_by_overwriting_two_slots :
    ∃ (tr : List (Event Unit Unit 1 Nat)) (s s₁ : State Unit Unit 1 Nat),
      (machine .two).step s (.cons () (.pop fun _ => 0)) = some (s₁, []) ∧
      (s.cons ()).pos = 0 ∧ (s₁.cons ()).pos = 1 ∧ 0 + Capacity.two.val < (claims tr).length ∧
      CanReturn .two () s₁ ∧
      ∀ acts s' o ok, (∀ a ∈ acts, Quiet () a) → (machine .two).exec s₁ acts = some (s', o) →
        (s'.cons ()).pc = .ret ok → ok = true := by
  let M : Machine (State Unit Unit 1 Nat) (Act Unit Unit 1 Nat) (Event Unit Unit 1 Nat) :=
    machine .two
  let push (k : Nat) : List (Act Unit Unit 1 Nat) :=
    [.prod () (.push fun _ => k), .prod () .mark, .prod () (.word 0), .prod () .ready,
      .prod () (.beat 1)]
  let acts : List (Act Unit Unit 1 Nat) :=
    [Act.cons () .makeCursorFromStart] ++ push 7 ++ push 8 ++ push 9
  have hexec : (M.exec M.init acts).map (fun r => ((r.1.cons ()).pc, (r.1.cons ()).pos, r.1.prod (),
      r.1.writePos, (claims r.2).length)) = some (.idle, 0, .idle, 3, 3) := by decide +kernel
  obtain ⟨tr, s, hr, hend⟩ := Machine.Runs.exists_of_exec hexec
  simp only [Prod.mk.injEq] at hend
  obtain ⟨hpc, hpos, hprod, hw, hlen⟩ := hend
  have hx : s.cons () = ⟨0, (s.cons ()).out, .idle⟩ := by rw [← hpc, ← hpos]
  have hs : M.step s (.cons () (.pop fun _ => 0)) =
      some (s.setCons () ⟨fastForward .two s.writePos 0, fun _ => 0, .loadSeq⟩, []) :=
    step_of_move hx (.forward 0 (s.cons ()).out (fun _ => 0) (by rw [hw]; decide))
  obtain ⟨h1, -, h3⟩ := lost_only_by_overwriting .two tr s hr (by rw [hlen]; decide)
  have hnext : ((s.setCons () ⟨fastForward .two s.writePos 0, fun _ => 0, .loadSeq⟩).cons ()).pos = 1 := by
    rw [State.setCons_self, hw]
    rfl
  obtain ⟨hcan, hall⟩ := h3 hprod () (fun _ => 0) _ _ hpc hs
  refine ⟨tr, s, _, hs, hpos, hnext, ?_, hcan, fun acts s' o ok hq he' hret => ?_⟩
  · rcases h1 () _ _ _ 0 hs (by rw [hpc]; simp) (by rw [hpos]) (by rw [hnext]; decide) with h | ⟨h, -⟩
    · exact h
    · rw [State.setCons_self] at h
      cases h
  · exact (hall acts s' o ok hq he' hret).2 (by rw [hpos, hw]; decide)

end

end Lwipc.ShmRingBuffer
