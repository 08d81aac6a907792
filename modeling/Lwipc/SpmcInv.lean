import Lwipc.SpmcRing

/-!
# The slot invariant of the overwriting ring

A push in flight at `pos` is alone in its slot as long as no position is claimed whose slot a push
is still writing (`NoLap`); with one producer this is always so. Under it the sequence of a slot
only grows: `pos * 2` while `pos` is being written, `pos * 2 + 1` from then until the next lap. A
reader that sees `pos * 2 + 1` before and after its copy therefore saw it all along, and in between
the slot held the item of `pos`.
-/

namespace Lwipc.SpmcRing

variable {P C : Type} {n : Nat} {W : Type} {cap : Capacity} {tr o : List (Event P C n W)}
  {s s' : State P C n W} {p : P} {pos : Nat} {item : Fin n → W}

section
variable (tr o : List (Event P C n W)) (p : P) (c : C) (ok : Bool) (pos : Nat) (item : Fin n → W)

@[simp] theorem claims_append : claims (tr ++ o) = claims tr ++ claims o := List.filterMap_append
@[simp] theorem readied_append : readied (tr ++ o) = readied tr ++ readied o := List.filterMap_append
theorem itemAt_append : itemAt (tr ++ o) pos = (itemAt tr pos).or (itemAt o pos) :=
  List.findSome?_append

@[simp] theorem claims_nil : claims ([] : List (Event P C n W)) = [] := rfl
@[simp] theorem readied_nil : readied ([] : List (Event P C n W)) = [] := rfl
@[simp] theorem claims_claim : claims [(.claim p pos item : Event P C n W)] = [item] := rfl
@[simp] theorem claims_ready : claims [(.ready p pos : Event P C n W)] = [] := rfl
@[simp] theorem claims_cursor : claims [(.cursor c pos : Event P C n W)] = [] := rfl
@[simp] theorem claims_ret : claims [(.ret c ok pos item : Event P C n W)] = [] := rfl
@[simp] theorem readied_claim : readied [(.claim p pos item : Event P C n W)] = [] := rfl
@[simp] theorem readied_ready : readied [(.ready p pos : Event P C n W)] = [pos] := rfl
@[simp] theorem readied_cursor : readied [(.cursor c pos : Event P C n W)] = [] := rfl
@[simp] theorem readied_ret : readied [(.ret c ok pos item : Event P C n W)] = [] := rfl

end

/-- A reader claims no position. -/
theorem PopMove.claims_eq {c : C} {x x' : Consumer n W} {a : PopAct n W} {w : Nat} {slots : Nat → Slot n W}
    (hm : PopMove cap w slots c x a x' o) : claims o = [] := by
  cases hm <;> rfl

/-- The push has claimed `pos` and not yet done its ready store. -/
def PushPc.InFlight : PushPc n W → Nat → Prop
  | .mark pos' _, pos | .copy pos' _ _, pos => pos' = pos
  | _, _ => False

/-- The position a push in flight has claimed. -/
def PushPc.position : PushPc n W → Option Nat
  | .mark pos _ | .copy pos _ _ => some pos
  | _ => none

theorem PushPc.inFlight_iff {pc : PushPc n W} : pc.InFlight pos ↔ pos ∈ pc.position := by
  cases pc <;> simp [InFlight, position]

/-- No `fetch_add` claims a position whose slot a push is still writing. -/
def NoLap (cap : Capacity) (_ : List (Event P C n W)) (s : State P C n W) : Act P C n W → Prop
  | .prod _ (.push _) =>
    ∀ p pos, (s.prod p).InFlight pos → cap.slot pos ≠ cap.slot s.writePos
  | _ => True

instance [Fintype P] (cap : Capacity) (tr : List (Event P C n W)) (s : State P C n W) :
    DecidablePred (NoLap cap tr s)
  | .prod _ (.push _) =>
    decidable_of_iff (∀ p, ∀ pos ∈ (s.prod p).position, cap.slot pos ≠ cap.slot s.writePos)
      (forall_congr' fun _ => forall_congr' fun _ => imp_congr PushPc.inFlight_iff.symm Iff.rfl)
  | .prod _ .mark | .prod _ (.word _) | .prod _ .ready | .prod _ (.beat _) | .cons _ _ =>
    inferInstanceAs (Decidable True)

/-- What a producer knows about its slot: before its first store the slot is still as the previous
lap left it. -/
def ProdOk (cap : Capacity) (tr : List (Event P C n W)) (s : State P C n W) : PushPc n W → Prop
  | .mark pos item =>
    (claims tr)[pos]? = some item ∧
    (pos < cap.val → (s.slots (cap.slot pos)).sequence = 0) ∧
    (cap.val ≤ pos → (s.slots (cap.slot pos)).sequence = (pos - cap.val) * 2 + 1 ∧
      (claims tr)[pos - cap.val]? = some (s.slots (cap.slot pos)).data)
  | .copy pos item copied =>
    (claims tr)[pos]? = some item ∧ (s.slots (cap.slot pos)).sequence = pos * 2 ∧
      ∀ i, copied i = true → (s.slots (cap.slot pos)).data i = item i
  | _ => True

/-- The counter, the slots and the pushes in flight. -/
structure Ring (cap : Capacity) (tr : List (Event P C n W)) (s : State P C n W) : Prop where
  write : s.writePos = (claims tr).length
  current : ∀ p pos, (s.prod p).InFlight pos → cap.Current s.writePos pos
  prod : ∀ p, ProdOk cap tr s (s.prod p)
  alone : ∀ p p' pos pos', (s.prod p).InFlight pos → (s.prod p').InFlight pos' →
    cap.slot pos = cap.slot pos' → p = p'
  settled : ∀ pos, cap.Current s.writePos pos → (∀ p, ¬ (s.prod p).InFlight pos) →
    (s.slots (cap.slot pos)).sequence = pos * 2 + 1 ∧
      (claims tr)[pos]? = some (s.slots (cap.slot pos)).data
  fresh : ∀ x, x < cap.val → s.writePos ≤ x → (s.slots x).sequence = 0
  readied : ∀ pos, pos ∈ readied tr ↔ pos < s.writePos ∧ ∀ p, ¬ (s.prod p).InFlight pos

/-- What a consumer knows at each point of `pop`. -/
def ConsOk (cap : Capacity) (tr : List (Event P C n W)) (s : State P C n W) (x : Consumer n W) : Prop :=
  x.pos ≤ s.writePos ∧
  match x.pc with
  | .loadSeq => x.pos < s.writePos
  | .copy copied =>
    x.pos < s.writePos ∧ x.pos * 2 + 1 ≤ (s.slots (cap.slot x.pos)).sequence ∧
    ((s.slots (cap.slot x.pos)).sequence = x.pos * 2 + 1 →
      ∃ item, (claims tr)[x.pos]? = some item ∧ ∀ i, copied i = true → x.out i = item i)
  | .ret true => 0 < x.pos ∧ (claims tr)[x.pos - 1]? = some x.out
  | _ => True

structure Inv (cap : Capacity) (tr : List (Event P C n W)) (s : State P C n W) : Prop
    extends Ring cap tr s where
  cons : ∀ c, ConsOk cap tr s (s.cons c)

namespace Ring

/-- What the sequence of the slot of a claimed position can be, and what it says. -/
theorem sequence_cases (h : Ring cap tr s) (hw : pos < s.writePos) :
    ((s.slots (cap.slot pos)).sequence = pos * 2 + 1 ∧
      (claims tr)[pos]? = some (s.slots (cap.slot pos)).data) ∨
    ((s.slots (cap.slot pos)).sequence ≤ pos * 2 ∧ ∃ p, (s.prod p).InFlight pos) ∨
    ((s.slots (cap.slot pos)).sequence > pos * 2 + 1 ∧ pos + cap.val < s.writePos) := by
  obtain ⟨q, hle, hsl, hcur⟩ : ∃ q, pos ≤ q ∧ cap.slot q = cap.slot pos ∧ cap.Current s.writePos q :=
    Capacity.exists_current hw
  have hcap := cap.ge_two
  -- the current position `q` of the slot is `pos` itself or at least a lap ahead
  rcases Nat.eq_or_lt_of_le hle with rfl | hlt
  · by_cases hfl : ∃ p, (s.prod p).InFlight pos
    · obtain ⟨p, hp⟩ := hfl
      refine .inr (.inl ⟨?_, p, hp⟩)
      have hok := h.prod p
      rcases hpc : s.prod p with _ | ⟨q, item⟩ | ⟨q, item, copied⟩ | _ <;> rw [hpc] at hp hok
      · exact hp.elim
      · obtain rfl : q = pos := hp
        by_cases hc : q < cap.val
        · rw [hok.2.1 hc]; omega
        · rw [(hok.2.2 (by omega)).1]; omega
      · obtain rfl : q = pos := hp
        exact Nat.le_of_eq hok.2.1
      · exact hp.elim
    · exact .inl (h.settled pos hcur fun p hp => hfl ⟨p, hp⟩)
  · have hlap := Capacity.add_le_of_slot_eq hsl.symm hlt
    have hq := hcur.1
    by_cases hfl : ∃ p, (s.prod p).InFlight q
    · obtain ⟨p, hp⟩ := hfl
      have hok := h.prod p
      rw [← hsl]
      rcases hpc : s.prod p with _ | ⟨q', item⟩ | ⟨q', item, copied⟩ | _ <;> rw [hpc] at hp hok
      · exact hp.elim
      · obtain rfl : q' = q := hp
        obtain ⟨h1, h2⟩ := hok.2.2 (by omega)
        -- the next lap has claimed the slot but not yet marked it
        rcases Nat.eq_or_lt_of_le hlap with heq | hlt'
        · rw [← heq, Nat.add_sub_cancel] at h1 h2
          rw [← heq]
          exact .inl ⟨h1, h2⟩
        · exact .inr (.inr ⟨by rw [h1]; omega, by omega⟩)
      · obtain rfl : q' = q := hp
        exact .inr (.inr ⟨by rw [hok.2.1]; omega, by omega⟩)
      · exact hp.elim
    · have := (h.settled q hcur fun p hp => hfl ⟨p, hp⟩).1
      rw [hsl] at this
      exact .inr (.inr ⟨by omega, by omega⟩)

theorem data_of_ready (h : Ring cap tr s) (hw : pos < s.writePos)
    (hseq : (s.slots (cap.slot pos)).sequence = pos * 2 + 1) :
    (claims tr)[pos]? = some (s.slots (cap.slot pos)).data := by
  rcases h.sequence_cases hw with ⟨-, h1⟩ | ⟨h1, -⟩ | ⟨h1, -⟩
  · exact h1
  · omega
  · omega

end Ring

/-! ### Frame lemmas -/

theorem PushPc.InFlight.unique {pc : PushPc n W} {pos' : Nat} (h : pc.InFlight pos)
    (h' : pc.InFlight pos') : pos = pos' := by
  cases pc with
  | idle | beat => exact h.elim
  | mark | copy => exact Eq.trans (Eq.symm h) h'

theorem ProdOk.frame {pc : PushPc n W} (h : ProdOk cap tr s pc)
    (hsl : ∀ pos, pc.InFlight pos → s'.slots (cap.slot pos) = s.slots (cap.slot pos)) :
    ProdOk cap (tr ++ o) s' pc := by
  rcases pc with _ | ⟨pos, item⟩ | ⟨pos, item, copied⟩ | _
  · trivial
  · obtain ⟨h1, h2, h3⟩ := h
    rw [ProdOk, hsl pos rfl, claims_append]
    exact ⟨getElem?_append_of_some h1, h2, fun hc => ⟨(h3 hc).1, getElem?_append_of_some (h3 hc).2⟩⟩
  · obtain ⟨h1, h2, h3⟩ := h
    rw [ProdOk, hsl pos rfl, claims_append]
    exact ⟨getElem?_append_of_some h1, h2, h3⟩
  · trivial

/-- A consumer is not disturbed while positions are only added and sequences only grow. -/
theorem ConsOk.frame {x : Consumer n W} (h : ConsOk cap tr s x) (hw : s.writePos ≤ s'.writePos)
    (hseq : ∀ y, (s.slots y).sequence ≤ (s'.slots y).sequence) : ConsOk cap (tr ++ o) s' x := by
  obtain ⟨xpos, out, pc⟩ := x
  refine ⟨Nat.le_trans h.1 hw, ?_⟩
  have h2 := h.2
  rcases pc with _ | _ | _ | copied | _ | _
  · trivial
  · trivial
  · exact Nat.lt_of_lt_of_le h2 hw
  · obtain ⟨h3, h4, h5⟩ := h2
    have hgrow := hseq (cap.slot xpos)
    refine ⟨Nat.lt_of_lt_of_le h3 hw, Nat.le_trans h4 hgrow, fun heq => ?_⟩
    simp only at h4 heq
    obtain ⟨item, h6, h7⟩ := h5 (Nat.le_antisymm (heq ▸ hgrow) h4)
    exact ⟨item, by rw [claims_append]; exact getElem?_append_of_some h6, h7⟩
  · trivial
  · exact ⟨h2.1, by rw [claims_append]; exact getElem?_append_of_some h2.2⟩

/-! ### Producer steps -/

theorem ProdOk.of_not_inFlight {pc : PushPc n W} (hpc : ∀ pos, ¬ pc.InFlight pos) : ProdOk cap tr s pc := by
  cases pc with
  | idle | beat => trivial
  | mark q _ | copy q _ _ => exact absurd rfl (hpc q)

variable [DecidableEq P]

theorem inFlight_update {f : P → PushPc n W} {pc : PushPc n W} {q : P} :
    (Function.update f p pc q).InFlight pos ↔
      q = p ∧ pc.InFlight pos ∨ q ≠ p ∧ (f q).InFlight pos := by
  by_cases hq : q = p
  · subst hq
    simp
  · rw [Function.update_of_ne hq]
    simp [hq]

theorem Ring.claim (h : Ring cap tr s) (hp : s.prod p = .idle)
    (hlap : ∀ p' pos, (s.prod p').InFlight pos → cap.slot pos ≠ cap.slot s.writePos) :
    Ring cap (tr ++ [.claim p s.writePos item])
      (State.setProd { s with writePos := s.writePos + 1 } p (.mark s.writePos item)) := by
  have hcap := cap.ge_two
  have hother : ∀ {q pos'}, q ≠ p →
      (Function.update s.prod p (.mark s.writePos item) q).InFlight pos' → (s.prod q).InFlight pos' := by
    intro q pos' hq hfl
    rwa [Function.update_of_ne hq] at hfl
  have hself : ∀ {pos'}, (Function.update s.prod p (.mark s.writePos item) p).InFlight pos' →
      s.writePos = pos' := by
    intro pos' hfl
    rw [Function.update_self] at hfl
    exact hfl
  -- the flights of the others are those of before
  have hflight : ∀ {pos'}, pos' ≠ s.writePos → ((∀ q, ¬ (Function.update s.prod p
      (.mark s.writePos item) q).InFlight pos') ↔ ∀ q, ¬ (s.prod q).InFlight pos') := by
    intro pos' hne
    constructor
    · intro hn q hfl
      by_cases hq : q = p
      · subst hq; rw [hp] at hfl; exact hfl
      · exact hn q (by rwa [Function.update_of_ne hq])
    · intro hn q hfl
      by_cases hq : q = p
      · subst hq; exact hne (hself hfl).symm
      · exact hn q (hother hq hfl)
  refine ⟨?_, ?_, ?_, ?_, ?_, ?_, ?_⟩
  · show s.writePos + 1 = _
    simp [h.write]
  · intro q pos' hfl
    show cap.Current (s.writePos + 1) pos'
    by_cases hq : q = p
    · subst hq
      obtain rfl := hself hfl
      exact ⟨Nat.lt_succ_self _, by omega⟩
    · have hfl' := hother hq hfl
      have hcur := h.current q pos' hfl'
      refine ⟨Nat.lt_succ_of_lt hcur.1, Nat.lt_of_le_of_ne hcur.2 fun heq => ?_⟩
      exact hlap q pos' hfl' (by rw [heq, cap.slot_add])
  · intro q
    show ProdOk cap _ _ (Function.update s.prod p (.mark s.writePos item) q)
    by_cases hq : q = p
    · subst hq
      rw [Function.update_self]
      refine ⟨by simp [h.write], fun hlt => ?_, fun hge => ?_⟩
      · show (s.slots (cap.slot s.writePos)).sequence = 0
        rw [cap.slot_of_lt hlt]
        exact h.fresh _ hlt (Nat.le_refl _)
      · have hsl := cap.slot_sub hge
        obtain ⟨h1, h2⟩ := h.settled (s.writePos - cap.val) ⟨by omega, by omega⟩
          fun q hfl => hlap q _ hfl hsl
        rw [hsl] at h1 h2
        exact ⟨h1, by rw [claims_append]; exact getElem?_append_of_some h2⟩
    · rw [Function.update_of_ne hq]
      exact (h.prod q).frame fun _ _ => rfl
  · intro q q' pos₁ pos₂ hfl hfl' hsl
    by_cases hq : q = p <;> by_cases hq' : q' = p
    · rw [hq, hq']
    · subst hq
      obtain rfl := hself hfl
      exact absurd hsl.symm (hlap q' pos₂ (hother hq' hfl'))
    · subst hq'
      obtain rfl := hself hfl'
      exact absurd hsl (hlap q pos₁ (hother hq hfl))
    · exact h.alone q q' pos₁ pos₂ (hother hq hfl) (hother hq' hfl') hsl
  · intro pos' hcur hn
    have hcur' : cap.Current (s.writePos + 1) pos' := hcur
    have hne : pos' ≠ s.writePos := by
      rintro rfl
      exact hn p (by show (Function.update s.prod p _ p).InFlight _; rw [Function.update_self]; rfl)
    obtain ⟨h1, h2⟩ := h.settled pos' ⟨by have := hcur'.1; omega, by have := hcur'.2; omega⟩
      ((hflight hne).1 hn)
    exact ⟨h1, by rw [claims_append]; exact getElem?_append_of_some h2⟩
  · intro x hx hw
    exact h.fresh x hx (Nat.le_of_succ_le hw)
  · intro pos'
    show pos' ∈ SpmcRing.readied (tr ++ [.claim p s.writePos item]) ↔ pos' < s.writePos + 1 ∧
      ∀ q, ¬ (Function.update s.prod p (.mark s.writePos item) q).InFlight pos'
    rw [readied_append, readied_claim, List.append_nil, h.readied pos']
    by_cases hne : pos' = s.writePos
    · subst hne
      refine ⟨fun h1 => absurd h1.1 (Nat.lt_irrefl _), fun h1 => absurd ?_ (h1.2 p)⟩
      rw [Function.update_self]; rfl
    · rw [hflight hne]
      constructor <;> rintro ⟨h1, h2⟩ <;> exact ⟨by omega, h2⟩

omit [DecidableEq P] in
theorem Ring.fresh_ne {x : Nat} (h : Ring cap tr s) (hp : (s.prod p).InFlight pos) (hx : x < cap.val)
    (hw : s.writePos ≤ x) : x ≠ cap.slot pos := by
  intro heq
  have hlt := Nat.lt_of_lt_of_le (h.current p pos hp).1 hw
  have hsl : cap.slot pos = cap.slot x := by rw [cap.slot_of_lt hx, heq]
  have := Capacity.add_le_of_slot_eq hsl hlt
  omega

/-- A store of a push into the slot it is in flight at, after which it is still in flight. -/
theorem Ring.writeSlot {pc : PushPc n W} {f : Slot n W → Slot n W} (h : Ring cap tr s)
    (hp : (s.prod p).InFlight pos) (hpc : pc.InFlight pos)
    (hok : ProdOk cap tr (s.setSlot (cap.slot pos) f) pc) :
    Ring cap tr ((s.setSlot (cap.slot pos) f).setProd p pc) := by
  have hkeep : ∀ {x}, x ≠ cap.slot pos →
      ((s.setSlot (cap.slot pos) f).setProd p pc).slots x = s.slots x :=
    fun hx => Function.update_of_ne hx _ _
  have hflight : ∀ q pos', (Function.update s.prod p pc q).InFlight pos' ↔
      (s.prod q).InFlight pos' := by
    intro q pos'
    by_cases hq : q = p
    · subst hq
      rw [Function.update_self]
      exact ⟨fun h1 => hpc.unique h1 ▸ hp, fun h1 => hp.unique h1 ▸ hpc⟩
    · rw [Function.update_of_ne hq]
  refine ⟨h.write, ?_, ?_, ?_, ?_, ?_, ?_⟩
  · exact fun q pos' hfl => h.current q pos' ((hflight q pos').1 hfl)
  · intro q
    show ProdOk cap tr _ (Function.update s.prod p pc q)
    rw [← List.append_nil tr]
    by_cases hq : q = p
    · subst hq
      rw [Function.update_self]
      exact hok.frame fun _ _ => rfl
    · rw [Function.update_of_ne hq]
      exact (h.prod q).frame fun pos' hfl => hkeep fun heq => hq (h.alone q p pos' pos hfl hp heq)
  · exact fun q q' pos₁ pos₂ hfl hfl' =>
      h.alone q q' pos₁ pos₂ ((hflight q pos₁).1 hfl) ((hflight q' pos₂).1 hfl')
  · intro pos' hcur hn
    have hn' : ∀ q, ¬ (s.prod q).InFlight pos' := fun q hfl => hn q ((hflight q pos').2 hfl)
    rw [hkeep fun heq => hn' p ((h.current p pos hp).eq hcur heq.symm ▸ hp)]
    exact h.settled pos' hcur hn'
  · intro x hx hw
    rw [hkeep (h.fresh_ne hp hx hw)]
    exact h.fresh x hx hw
  · intro pos'
    rw [h.readied pos']
    exact and_congr_right fun _ => forall_congr' fun q => not_congr (hflight q pos').symm

theorem Ring.finish {pc : PushPc n W} {copied : Fin n → Bool} (h : Ring cap tr s)
    (hp : s.prod p = .copy pos item copied) (hall : ∀ i, copied i = true)
    (hpc : ∀ pos', ¬ pc.InFlight pos') :
    Ring cap (tr ++ [.ready p pos])
      ((s.setSlot (cap.slot pos) fun x => { x with sequence := pos * 2 + 1 }).setProd p pc) := by
  have hfl : (s.prod p).InFlight pos := by rw [hp]; rfl
  obtain ⟨hitem, -, hdata⟩ : ProdOk cap tr s (.copy pos item copied) := hp ▸ h.prod p
  have hcur := h.current p pos hfl
  have hkeep : ∀ {x}, x ≠ cap.slot pos →
      ((s.setSlot (cap.slot pos) fun x => { x with sequence := pos * 2 + 1 }).setProd p pc).slots x =
        s.slots x := fun hx => Function.update_of_ne hx _ _
  have hflight : ∀ q pos', (Function.update s.prod p pc q).InFlight pos' ↔
      q ≠ p ∧ (s.prod q).InFlight pos' := by
    intro q pos'
    rw [inFlight_update]
    simp [hpc]
  -- away from `pos` nobody lands
  have hnone : ∀ {pos'}, pos' ≠ pos → ((∀ q, ¬ (Function.update s.prod p pc q).InFlight pos') ↔
      ∀ q, ¬ (s.prod q).InFlight pos') := by
    intro pos' hne
    constructor
    · intro hn q h1
      refine hn q ((hflight q pos').2 ⟨?_, h1⟩)
      rintro rfl
      exact hne (h1.unique hfl)
    · exact fun hn q h1 => hn q ((hflight q pos').1 h1).2
  refine ⟨?_, ?_, ?_, ?_, ?_, ?_, ?_⟩
  · show s.writePos = _
    simp [h.write]
  · exact fun q pos' h1 => h.current q pos' ((hflight q pos').1 h1).2
  · intro q
    show ProdOk cap _ _ (Function.update s.prod p pc q)
    by_cases hq : q = p
    · subst hq
      rw [Function.update_self]
      exact .of_not_inFlight hpc
    · rw [Function.update_of_ne hq]
      exact (h.prod q).frame fun pos' h1 => hkeep fun heq => hq (h.alone q p pos' pos h1 hfl heq)
  · exact fun q q' pos₁ pos₂ h1 h2 =>
      h.alone q q' pos₁ pos₂ ((hflight q pos₁).1 h1).2 ((hflight q' pos₂).1 h2).2
  · intro pos' hcur' hn
    rw [claims_append, claims_ready, List.append_nil]
    by_cases hne : pos' = pos
    · subst hne
      have hd : (s.slots (cap.slot pos')).data = item := funext fun i => hdata i (hall i)
      show (Function.update s.slots _ _ _).sequence = _ ∧ _ = some (Function.update s.slots _ _ _).data
      rw [Function.update_self]
      exact ⟨rfl, by rw [hitem, hd]⟩
    · rw [hkeep fun heq => hne (Capacity.Current.eq hcur' hcur heq)]
      exact h.settled pos' hcur' ((hnone hne).1 hn)
  · intro x hx hw
    rw [hkeep (h.fresh_ne hfl hx hw)]
    exact h.fresh x hx hw
  · intro pos'
    show pos' ∈ SpmcRing.readied (tr ++ [.ready p pos]) ↔ pos' < s.writePos ∧
      ∀ q, ¬ (Function.update s.prod p pc q).InFlight pos'
    rw [readied_append, readied_ready, List.mem_append, List.mem_singleton, h.readied pos']
    by_cases hne : pos' = pos
    · subst hne
      refine ⟨fun _ => ⟨hcur.1, fun q h1 => ?_⟩, fun _ => .inr rfl⟩
      obtain ⟨hq, h2⟩ := (hflight q pos').1 h1
      exact hq (h.alone q p pos' pos' h2 hfl rfl)
    · rw [hnone hne]
      simp [hne]

theorem Ring.rest {pc : PushPc n W} (h : Ring cap tr s) (hp : ∀ pos, ¬ (s.prod p).InFlight pos)
    (hpc : ∀ pos, ¬ pc.InFlight pos) (beat : Nat) :
    Ring cap tr (State.setProd { s with lastHeartbeat := beat } p pc) := by
  have hflight : ∀ q pos', (Function.update s.prod p pc q).InFlight pos' ↔
      (s.prod q).InFlight pos' := by
    intro q pos'
    by_cases hq : q = p
    · subst hq
      rw [Function.update_self]
      exact ⟨fun h1 => absurd h1 (hpc pos'), fun h1 => absurd h1 (hp pos')⟩
    · rw [Function.update_of_ne hq]
  refine ⟨h.write, ?_, ?_, ?_, ?_, h.fresh, ?_⟩
  · exact fun q pos' hfl => h.current q pos' ((hflight q pos').1 hfl)
  · intro q
    show ProdOk cap tr _ (Function.update s.prod p pc q)
    rw [← List.append_nil tr]
    by_cases hq : q = p
    · subst hq
      rw [Function.update_self]
      exact .of_not_inFlight hpc
    · rw [Function.update_of_ne hq]
      exact (h.prod q).frame fun _ _ => rfl
  · exact fun q q' pos₁ pos₂ hfl hfl' =>
      h.alone q q' pos₁ pos₂ ((hflight q pos₁).1 hfl) ((hflight q' pos₂).1 hfl')
  · exact fun pos' hcur hn => h.settled pos' hcur fun q hfl => hn q ((hflight q pos').2 hfl)
  · intro pos'
    rw [h.readied pos']
    exact and_congr_right fun _ => forall_congr' fun q => not_congr (hflight q pos').symm

/-- A producer's move keeps the ring invariant; the counter and the sequences only grow. -/
theorem Ring.pushMove {beats : Bool} {a : PushAct n W} (h : Ring cap tr s)
    (hb : (claims (tr ++ o)).length < 2 ^ 63) (hlap : NoLap cap tr s (.prod p a))
    (hm : PushMove beats cap s p a s' o) :
    Ring cap (tr ++ o) s' ∧ s.writePos ≤ s'.writePos ∧ s'.cons = s.cons ∧
      ∀ y, (s.slots y).sequence ≤ (s'.slots y).sequence := by
  have hw : s.writePos < 2 ^ 63 := by
    rw [claims_append, List.length_append] at hb; rw [h.write]; omega
  have hgrow : ∀ {x v}, (s.slots x).sequence ≤ v.sequence → ∀ y, (s.slots y).sequence ≤
      (Function.update s.slots x v y).sequence := by
    intro x v hv y
    by_cases hy : y = x
    · subst hy; rw [Function.update_self]; exact hv
    · rw [Function.update_of_ne hy]
  cases hm with
  | claim item hp =>
    rw [u64_of_lt (by omega)]
    exact ⟨h.claim hp hlap, Nat.le_succ _, rfl, fun _ => Nat.le_refl _⟩
  | mark pos item hp =>
    have hfl : (s.prod p).InFlight pos := by rw [hp]; rfl
    have hcur := h.current p pos hfl
    obtain ⟨hitem, hlt, hge⟩ : ProdOk cap tr s (.mark pos item) := hp ▸ h.prod p
    rw [u64_of_lt (by have := hcur.1; omega), List.append_nil]
    refine ⟨h.writeSlot hfl rfl ⟨hitem, ?_, fun _ h1 => by cases h1⟩, Nat.le_refl _, rfl, hgrow ?_⟩
    · show (Function.update s.slots _ _ _).sequence = _
      rw [Function.update_self]
    · show (s.slots (cap.slot pos)).sequence ≤ pos * 2
      by_cases hc : pos < cap.val
      · rw [hlt hc]; exact Nat.zero_le _
      · rw [(hge (by omega)).1]
        have := cap.ge_two
        omega
  | word pos item copied i hp =>
    have hfl : (s.prod p).InFlight pos := by rw [hp]; rfl
    obtain ⟨hitem, hseq, hdata⟩ : ProdOk cap tr s (.copy pos item copied) := hp ▸ h.prod p
    rw [List.append_nil]
    refine ⟨h.writeSlot hfl rfl ⟨hitem, ?_, fun j hj => ?_⟩, Nat.le_refl _, rfl,
      hgrow (Nat.le_refl _)⟩
    · show (Function.update s.slots _ _ _).sequence = _
      rw [Function.update_self]
      exact hseq
    · show (Function.update s.slots _ _ _).data j = item j
      rw [Function.update_self]
      by_cases hji : j = i
      · subst hji; exact Function.update_self _ _ _
      · rw [Function.update_of_ne hji] at hj
        exact (Function.update_of_ne hji _ _).trans (hdata j hj)
  | ready pos item copied hp hall =>
    have hfl : (s.prod p).InFlight pos := by rw [hp]; rfl
    have hcur := h.current p pos hfl
    obtain ⟨-, hseq, -⟩ : ProdOk cap tr s (.copy pos item copied) := hp ▸ h.prod p
    rw [u64_of_lt (by have := hcur.1; omega)]
    refine ⟨h.finish hp hall fun _ h1 => ?_, Nat.le_refl _, rfl, hgrow ?_⟩
    · split at h1 <;> exact h1
    · show (s.slots (cap.slot pos)).sequence ≤ pos * 2 + 1
      omega
  | beat pos now hp =>
    rw [List.append_nil]
    have hidle : ∀ pos, ¬ (PushPc.idle : PushPc n W).InFlight pos := fun _ h1 => h1
    exact ⟨h.rest (by rw [hp]; exact fun _ h1 => h1) hidle _, Nat.le_refl _, rfl,
      fun _ => Nat.le_refl _⟩

/-! ### Consumer steps -/

theorem expected_of_lt (h : pos < 2 ^ 63) : expected pos = pos * 2 + 1 := u64_of_lt (by omega)

omit [DecidableEq P] in
/-- A consumer's move keeps what it knows and shows no claim. -/
theorem Ring.popMove {c : C} {x x' : Consumer n W} {a : PopAct n W} (h : Ring cap tr s)
    (hx : ConsOk cap tr s x) (hw : s.writePos < 2 ^ 63)
    (hm : PopMove cap s.writePos s.slots c x a x' o) :
    ConsOk cap tr s x' ∧ claims o = [] ∧ SpmcRing.readied o = [] := by
  obtain ⟨hle, hpc⟩ := hx
  cases hm with
  | makeCursor => exact ⟨⟨Nat.le_refl _, trivial⟩, rfl, rfl⟩
  | makeCursorFromStart => exact ⟨⟨Nat.zero_le _, trivial⟩, rfl, rfl⟩
  | nothingNew | notReady | torn | ret => exact ⟨⟨hle, trivial⟩, rfl, rfl⟩
  | forward pos _ out hlt =>
    have hff := fastForward_lt cap hlt
    exact ⟨⟨Nat.le_of_lt hff, hff⟩, rfl, rfl⟩
  | isReady pos out heq =>
    have hlt : pos < s.writePos := hpc
    rw [expected_of_lt (by omega)] at heq
    refine ⟨⟨hle, hlt, Nat.le_of_eq heq.symm, fun _ => ?_⟩, rfl, rfl⟩
    exact ⟨_, h.data_of_ready hlt heq, fun _ h1 => by cases h1⟩
  | read pos out copied i =>
    obtain ⟨hlt, hge, hcp⟩ := hpc
    refine ⟨⟨hle, hlt, hge, fun heq => ?_⟩, rfl, rfl⟩
    obtain ⟨item, hitem, hout⟩ := hcp heq
    refine ⟨item, hitem, fun j hj => ?_⟩
    by_cases hji : j = i
    · subst hji
      have hd := h.data_of_ready hlt heq
      rw [hitem] at hd
      simp only [Function.update_self]
      exact (congrFun (Option.some.inj hd) j).symm
    · simp only [Function.update_of_ne hji] at hj ⊢
      exact hout j hj
  | taken pos out copied hall heq =>
    obtain ⟨hlt, hge, hcp⟩ := hpc
    simp only at hlt hge
    rw [expected_of_lt (by omega)] at heq
    obtain ⟨item, hitem, hout⟩ := hcp heq
    rw [u64_of_lt (by omega)]
    refine ⟨⟨hlt, Nat.succ_pos _, ?_⟩, rfl, rfl⟩
    simp only [Nat.add_sub_cancel]
    rw [hitem]
    exact congrArg some (funext fun i => (hout i (hall i)).symm)

/-! ### Runs -/

variable [DecidableEq C]

omit [DecidableEq P] in
theorem Ring.setCons {c : C} {x : Consumer n W} (h : Ring cap tr s) (hc : claims o = [])
    (hr : SpmcRing.readied o = []) : Ring cap (tr ++ o) (s.setCons c x) := by
  have hcl : claims (tr ++ o) = claims tr := by rw [claims_append, hc, List.append_nil]
  refine ⟨by rw [hcl]; exact h.write, h.current, ?_, h.alone, ?_, h.fresh, ?_⟩
  · exact fun p => (h.prod p).frame fun _ _ => rfl
  · intro pos hcur hn
    rw [hcl]
    exact h.settled pos hcur hn
  · intro pos
    rw [readied_append, hr, List.append_nil]
    exact h.readied pos

theorem Inv.step {beats : Bool} {a : Act P C n W} (h : Inv cap tr s)
    (hb : (claims (tr ++ o)).length < 2 ^ 63) (hlap : NoLap cap tr s a)
    (hs : step beats cap s a = some (s', o)) : Inv cap (tr ++ o) s' := by
  cases a with
  | prod p a =>
    obtain ⟨hr, hw, hc, hseq⟩ := h.toRing.pushMove hb hlap (step_prod_eq_some.1 hs)
    refine ⟨hr, fun c => ?_⟩
    rw [hc]
    exact (h.cons c).frame hw hseq
  | cons c a =>
    obtain ⟨x, hx, rfl⟩ := step_cons_eq_some.1 hs
    have hw : s.writePos < 2 ^ 63 := by
      rw [claims_append, List.length_append] at hb; rw [h.write]; omega
    obtain ⟨hok, hcl, hre⟩ := h.toRing.popMove (h.cons c) hw hx
    refine ⟨h.toRing.setCons hcl hre, fun c' => ?_⟩
    by_cases hc : c' = c
    · subst hc
      rw [State.setCons_self]
      exact hok.frame (Nat.le_refl _) fun _ => Nat.le_refl _
    · rw [State.setCons_of_ne hc]
      exact (h.cons c').frame (Nat.le_refl _) fun _ => Nat.le_refl _

variable [Inhabited W]

omit [DecidableEq P] [DecidableEq C] in
theorem inv_init : Inv cap [] (init : State P C n W) where
  write := rfl
  current _ _ h := h.elim
  prod _ := trivial
  alone _ _ _ _ h := h.elim
  settled pos h := absurd h.1 (Nat.not_lt_zero pos)
  fresh _ _ _ := rfl
  readied pos := by
    constructor
    · intro h; cases h
    · intro h; exact absurd h.1 (Nat.not_lt_zero pos)
  cons _ := ⟨Nat.zero_le _, trivial⟩

theorem inv_of_runs {beats : Bool} (h : (machine beats cap).Runs (NoLap cap) tr s)
    (hb : (claims tr).length < 2 ^ 63) : Inv cap tr s := by
  refine h.invariant_of (B := fun tr => (claims tr).length < 2 ^ 63) (fun tr o hb => ?_) inv_init
    (fun tr s a s' o hb hi hlap hs => hi.step hb hlap hs) hb
  rw [claims_append, List.length_append] at hb
  omega

/-! ### Positions and returns -/

omit [Inhabited W] in
theorem step_writePos {beats : Bool} {a : Act P C n W} (hs : step beats cap s a = some (s', o)) :
    (s'.writePos = s.writePos ∧ ∀ p pos item, .claim p pos item ∉ o) ∨
      s'.writePos = u64 (s.writePos + 1) ∧ ∃ p item, o = [.claim p s.writePos item] := by
  cases a with
  | prod p a =>
    cases step_prod_eq_some.1 hs with
    | claim item => exact .inr ⟨rfl, p, item, rfl⟩
    | mark | word | ready | beat => exact .inl ⟨rfl, by simp⟩
  | cons c a =>
    obtain ⟨x, hx, rfl⟩ := step_cons_eq_some.1 hs
    generalize s.cons c = y at hx
    left
    cases hx <;> exact ⟨rfl, by simp⟩

omit [DecidableEq P] [DecidableEq C] [Inhabited W] in
theorem claims_eq_nil (h : ∀ p pos item, .claim p pos item ∉ o) : claims o = [] := by
  unfold claims
  refine List.filterMap_eq_nil_iff.2 fun e he => ?_
  rcases e with ⟨p, pos, item⟩ | _ | _ | _
  · exact absurd he (h p pos item)
  · rfl
  · rfl
  · rfl

omit [DecidableEq P] [DecidableEq C] [Inhabited W] in
theorem itemAt_eq_none (h : ∀ p pos item, .claim p pos item ∉ o) (q : Nat) : itemAt o q = none := by
  unfold itemAt
  refine List.findSome?_eq_none_iff.2 fun e he => ?_
  rcases e with ⟨p, pos, item⟩ | _ | _ | _
  · exact absurd he (h p pos item)
  · rfl
  · rfl
  · rfl

/-- The push that made the `q`-th claim obtained position `q`. -/
theorem itemAt_eq_claims {beats : Bool} (h : (machine beats cap).Runs (NoLap cap) tr s)
    (hb : (claims tr).length < 2 ^ 63) (q : Nat) : itemAt tr q = (claims tr)[q]? := by
  induction h with
  | init => rfl
  | @step tr s s' a o hr _ hs ih =>
    have hb' : (claims tr).length < 2 ^ 63 := by
      rw [claims_append, List.length_append] at hb; omega
    have hw := (inv_of_runs hr hb').write
    rw [itemAt_append, ih hb', claims_append]
    rcases step_writePos hs with ⟨-, ho⟩ | ⟨-, p, item, rfl⟩
    · rw [claims_eq_nil ho, itemAt_eq_none ho, List.append_nil, Option.or_none]
    · have hone : itemAt [(.claim p s.writePos item : Event P C n W)] q =
          if s.writePos = q then some item else none := by
        simp [itemAt]
      rw [hone, claims_claim, hw]
      rcases Nat.lt_trichotomy q (claims tr).length with hlt | rfl | hgt
      · rw [List.getElem?_append_left hlt, List.getElem?_eq_getElem hlt, Option.some_or]
      · simp
      · rw [List.getElem?_eq_none (Nat.le_of_lt hgt), if_neg (Nat.ne_of_lt hgt),
          List.getElem?_eq_none (by simp; omega), Option.or_none]

omit [DecidableEq P] [DecidableEq C] [Inhabited W] in
theorem itemAt_append_of_some {q : Nat} (h : itemAt tr q = some item) :
    itemAt (tr ++ o) q = some item := by
  rw [itemAt_append, h, Option.some_or]

omit [DecidableEq P] [Inhabited W] in
theorem mem_returns {c : C} : (pos, item) ∈ returns c tr ↔ .ret c true pos item ∈ tr := by
  unfold returns
  rw [List.mem_filterMap]
  constructor
  · rintro ⟨e, he, h⟩
    rcases e with _ | _ | _ | ⟨c', _ | _, pos', out⟩ <;> simp at h
    obtain ⟨rfl, rfl, rfl⟩ := h
    exact he
  · exact fun h => ⟨_, h, by simp⟩

omit [Inhabited W] in
theorem ret_of_step {beats ok : Bool} {a : Act P C n W} {c : C}
    (hs : step beats cap s a = some (s', o)) (hr : .ret c ok pos item ∈ o) :
    o = [.ret c ok pos item] ∧ s.cons c = ⟨pos, item, .ret ok⟩ ∧ s' = s.setCons c ⟨pos, item, .idle⟩ := by
  cases a with
  | prod p a => cases step_prod_eq_some.1 hs <;> simp at hr
  | cons c' a =>
    obtain ⟨x, hx, rfl⟩ := step_cons_eq_some.1 hs
    generalize hy : s.cons c' = y at hx
    cases hx with
    | ret pos' out' ok' =>
      obtain ⟨rfl, rfl, rfl, rfl⟩ := by simpa using hr
      exact ⟨rfl, hy, rfl⟩
    | _ => simp at hr

/-- Every successful return is of the item of the push that obtained the position just passed. -/
theorem item_of_ret {beats : Bool} {c : C} (h : (machine beats cap).Runs (NoLap cap) tr s)
    (hb : (claims tr).length < 2 ^ 63) (hr : .ret c true pos item ∈ tr) :
    0 < pos ∧ itemAt tr (pos - 1) = some item := by
  induction h with
  | init => cases hr
  | @step tr s s' a o hrun hlap hs ih =>
    have hb' : (claims tr).length < 2 ^ 63 := by
      rw [claims_append, List.length_append] at hb; omega
    rcases List.mem_append.1 hr with hr | hr
    · obtain ⟨h1, h2⟩ := ih hb' hr
      exact ⟨h1, itemAt_append_of_some h2⟩
    · obtain ⟨-, hc, -⟩ := ret_of_step hs hr
      have hok := (inv_of_runs hrun hb').cons c
      rw [hc] at hok
      refine ⟨hok.2.1, itemAt_append_of_some ?_⟩
      rw [itemAt_eq_claims hrun hb']
      exact hok.2.2

/-! ### The counter

These hold in every run, whatever becomes of the slots. -/

section
variable {beats : Bool} {ok : List (Event P C n W) → State P C n W → Act P C n W → Prop}

theorem writePos_eq (h : (machine beats cap).Runs ok tr s) :
    s.writePos = u64 (claims tr).length := by
  refine h.invariant (I := fun tr s => s.writePos = u64 (claims tr).length) rfl ?_
  intro tr s a s' o ih _ hs
  rcases step_writePos hs with ⟨hw, ho⟩ | ⟨hw, p, item, rfl⟩
  · rw [hw, claims_append, claims_eq_nil ho, List.append_nil, ih]
  · rw [hw, ih, claims_append, claims_claim, List.length_append]
    exact Nat.mod_add_mod _ _ _

theorem writePos_lt (h : (machine beats cap).Runs ok tr s) : s.writePos < 2 ^ 64 := by
  rw [writePos_eq h]
  exact Nat.mod_lt _ (by decide)

theorem claimed_of_lt (h : (machine beats cap).Runs ok tr s) :
    ∀ k < s.writePos, ∃ p item, .claim p k item ∈ tr := by
  refine h.invariant (I := fun tr s => ∀ k < s.writePos, ∃ p item, .claim p k item ∈ tr)
    (fun k hk => absurd hk (Nat.not_lt_zero k)) ?_
  intro tr s a s' o ih _ hs k hk
  have hold : k < s.writePos → ∃ p item, .claim p k item ∈ tr ++ o := by
    intro hlt
    obtain ⟨p, item, hmem⟩ := ih k hlt
    exact ⟨p, item, List.mem_append_left _ hmem⟩
  rcases step_writePos hs with ⟨hw, -⟩ | ⟨hw, p, item, rfl⟩
  · exact hold (hw ▸ hk)
  · have hle : k < s.writePos + 1 := Nat.lt_of_lt_of_le (hw ▸ hk) (Nat.mod_le _ _)
    rcases Nat.lt_succ_iff_lt_or_eq.1 hle with hlt | rfl
    · exact hold hlt
    · exact ⟨p, item, List.mem_append_right _ (List.mem_singleton_self _)⟩

/-- A position claimed after a cursor was made is not below the cursor. -/
def NotBelow : Event P C n W → Event P C n W → Prop
  | .cursor _ start, .claim _ pos _ => start ≤ pos
  | _, _ => True

omit [DecidableEq P] [DecidableEq C] [Inhabited W] in
theorem notBelow_of_ne {e e' : Event P C n W} (h : ∀ p pos item, e' ≠ .claim p pos item) :
    NotBelow e e' := by
  rcases e' with ⟨p, pos, item⟩ | _ | _ | _
  · exact absurd rfl (h p pos item)
  all_goals cases e <;> trivial

omit [Inhabited W] in
theorem step_cursor {a : Act P C n W} {c : C} {start : Nat}
    (hs : step beats cap s a = some (s', o)) (hmem : .cursor c start ∈ o) :
    start ≤ s.writePos := by
  cases a with
  | prod p a => cases step_prod_eq_some.1 hs <;> simp at hmem
  | cons c' a =>
    obtain ⟨x, hx, rfl⟩ := step_cons_eq_some.1 hs
    generalize s.cons c' = y at hx
    cases hx <;> simp at hmem <;> omega

theorem cursor_le (h : (machine beats cap).Runs ok tr s) :
    ∀ c start, .cursor c start ∈ tr → start ≤ (claims tr).length := by
  induction h with
  | init => intro c start hmem; cases hmem
  | @step tr s s' a o hr _ hs ih =>
    intro c start hmem
    rw [claims_append, List.length_append]
    refine Nat.le_trans ?_ (Nat.le_add_right _ _)
    rcases List.mem_append.1 hmem with hmem | hmem
    · exact ih c start hmem
    · have hle := step_cursor hs hmem
      rw [writePos_eq hr] at hle
      exact Nat.le_trans hle (Nat.mod_le _ _)

theorem pairwise_notBelow (h : (machine beats cap).Runs ok tr s)
    (hb : (claims tr).length ≤ 2 ^ 64) : tr.Pairwise NotBelow := by
  induction h with
  | init => exact List.Pairwise.nil
  | @step tr s s' a o hr _ hs ih =>
    rw [claims_append, List.length_append] at hb
    have hold : tr.Pairwise NotBelow := ih (by omega)
    rcases step_writePos hs with ⟨-, ho⟩ | ⟨-, p, item, rfl⟩
    · have hne : ∀ e, ∀ e' ∈ o, NotBelow e e' := by
        intro e e' he'
        refine notBelow_of_ne fun p pos item heq => ?_
        exact ho p pos item (heq ▸ he')
      exact List.pairwise_append.2
        ⟨hold, List.pairwise_of_forall_mem_list fun e _ => hne e, fun e _ => hne e⟩
    · refine List.pairwise_append.2 ⟨hold, List.pairwise_singleton _ _, fun e he e' he' => ?_⟩
      obtain rfl := List.mem_singleton.1 he'
      rw [claims_claim, List.length_singleton] at hb
      rcases e with _ | _ | ⟨c, start⟩ | _
      · trivial
      · trivial
      · show start ≤ s.writePos
        rw [writePos_eq hr, u64_of_lt (by omega)]
        exact cursor_le hr c start he
      · trivial

end

end Lwipc.SpmcRing
