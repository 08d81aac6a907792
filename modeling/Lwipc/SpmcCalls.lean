import Lwipc.SpmcInv

/-!
# Complete calls on the overwriting ring

A call that nobody disturbs, from its first access to its return. The words of the payload may be
copied in any order, so a call is any list of accesses of its own thread that leads from outside the
function back to outside; there always is one (`Call.exists_of_allowed`).
-/

namespace Lwipc.SpmcRing

variable {P C : Type} {n : Nat} {W : Type} {beats : Bool} {cap : Capacity}
  {tr o : List (Event P C n W)} {s s' : State P C n W} {p : P} {c : C} {pos : Nat}

/-- What a program does with a ring, one call after the other. -/
inductive Op (P C : Type) (n : Nat) (W : Type)
  | push (p : P) (item : Fin n → W)
  /-- a `Cursor` at a position of the caller's choice: `write_pos` for `make_cursor`, 0 for a
  default-constructed one -/
  | cursor (c : C) (pos : Nat)
  | pop (c : C)

/-- `op` completes between `s` and `s'`, delivering `r`: the item if it is a `pop` that returns true. -/
inductive Call (M : Machine (State P C n W) (Act P C n W) (Event P C n W)) [DecidableEq C] :
    State P C n W → Op P C n W → State P C n W → Option (Fin n → W) → Prop
  | push {s s' : State P C n W} {p : P} {item : Fin n → W} {acts : List (PushAct n W)}
      {o : List (Event P C n W)} (hacts : ∀ item', .push item' ∉ acts)
      (he : M.exec s ((.push item :: acts).map (.prod p)) = some (s', o)) (hp : s'.prod p = .idle) :
    Call M s (.push p item) s' none
  | cursor {s : State P C n W} {c : C} {pos : Nat} (hc : (s.cons c).pc = .none ∨ (s.cons c).pc = .idle)
      (hle : pos ≤ s.writePos) :
    Call M s (.cursor c pos) (s.setCons c ⟨pos, (s.cons c).out, .idle⟩) none
  | pop {s s' : State P C n W} {c : C} {out out' : Fin n → W} {acts : List (PopAct n W)}
      {o : List (Event P C n W)} {ok : Bool} {pos : Nat} (hacts : ∀ out'', .pop out'' ∉ acts)
      (he : M.exec s ((.pop out :: acts).map (.cons c)) = some (s', o))
      (hr : .ret c ok pos out' ∈ o) :
    Call M s (.pop c) s' (if ok then some out' else none)

/-- A list of calls, with what each delivers. -/
inductive Calls (M : Machine (State P C n W) (Act P C n W) (Event P C n W)) [DecidableEq C] :
    State P C n W → List (Op P C n W) → State P C n W → List (Option (Fin n → W)) → Prop
  | nil {s : State P C n W} : Calls M s [] s []
  | cons {s s' s'' : State P C n W} {op : Op P C n W} {ops : List (Op P C n W)}
      {r : Option (Fin n → W)} {rs : List (Option (Fin n → W))} (h : Call M s op s' r)
      (hs : Calls M s' ops s'' rs) : Calls M s (op :: ops) s'' (r :: rs)

/-- The calls the caller may make: a `pop` needs a cursor, and a cursor does not start ahead. -/
def Op.Allowed (s : State P C n W) : Op P C n W → Prop
  | .push _ _ => True
  | .cursor _ pos => pos ≤ s.writePos
  | .pop c => (s.cons c).pc = .idle

/-- Every thread is outside `push` and `pop`. -/
structure AtRest (s : State P C n W) : Prop where
  prod : ∀ p, s.prod p = .idle
  cons : ∀ c, (s.cons c).pc = .none ∨ (s.cons c).pc = .idle

/-! ### Uninterrupted stores -/

section
variable [DecidableEq P] [DecidableEq C] [Inhabited W]

theorem prod_step {a : PushAct n W} :
    (machine beats cap).step s (.prod p a) = some (s', o) ↔ PushMove beats cap s p a s' o :=
  step_prod_eq_some

theorem cons_step {a : PopAct n W} : (machine beats cap).step s (.cons c a) = some (s', o) ↔
    ∃ x, PopMove cap s.writePos s.slots c (s.cons c) a x o ∧ s' = s.setCons c x := by
  show step beats cap s (.cons c a) = _ ↔ _
  exact step_cons_eq_some

theorem exec_words (beats : Bool) (cap : Capacity) {item : Fin n → W} {copied : Fin n → Bool}
    (l : List (Fin n)) (hp : s.prod p = .copy pos item copied) :
    ∃ s' copied', (machine beats cap).exec s ((l.map PushAct.word).map (.prod p)) = some (s', []) ∧
      s'.prod p = .copy pos item copied' ∧ (∀ i, i ∈ l → copied' i = true) ∧
      (∀ i, copied i = true → copied' i = true) ∧ s'.cons = s.cons ∧ s'.writePos = s.writePos ∧
      s'.slots = Function.update s.slots (cap.slot pos) ⟨(s.slots (cap.slot pos)).sequence,
        fun i => if i ∈ l then item i else (s.slots (cap.slot pos)).data i⟩ := by
  induction l generalizing s copied with
  | nil =>
    refine ⟨s, copied, rfl, hp, by simp, fun _ h => h, rfl, rfl, ?_⟩
    simp
  | cons i l ih =>
    have hs : (machine beats cap).step s (.prod p (.word i)) = some (_, _) :=
      prod_step.2 (.word pos item copied i hp)
    obtain ⟨s', copied', he, hp', h1, h2, hc, hw, hsl⟩ := ih (s := (s.setSlot (cap.slot pos) fun x =>
      { x with data := Function.update x.data i (item i) }).setProd p
        (.copy pos item (Function.update copied i true))) (State.setProd_self _ _ _)
    refine ⟨s', copied', ?_, hp', ?_, ?_, hc, hw, ?_⟩
    · rw [List.map_cons, List.map_cons, Machine.exec_cons hs, he]
      rfl
    · intro j hj
      rcases List.mem_cons.1 hj with rfl | hj
      · exact h2 j (Function.update_self _ _ _)
      · exact h1 j hj
    · intro j hj
      refine h2 j ?_
      by_cases hji : j = i
      · subst hji; exact Function.update_self _ _ _
      · rw [Function.update_of_ne hji]; exact hj
    · rw [hsl]
      simp only [State.setProd, State.setSlot, Function.update_self, Function.update_idem]
      congr 2
      funext j
      by_cases hj : j ∈ l
      · simp [hj]
      · by_cases hji : j = i
        · subst hji; simp
        · simp [hj, hji]

/-- The accesses of a push from the first store of the sequence to the second. -/
def stores (n : Nat) (W : Type) : List (PushAct n W) :=
  .mark :: ((List.finRange n).map .word ++ [.ready])

omit [Inhabited W] in
theorem push_notMem_stores (item : Fin n → W) : .push item ∉ stores n W := by
  simp [stores]

theorem exec_stores (beats : Bool) (cap : Capacity) {item : Fin n → W} (hp : s.prod p = .mark pos item) :
    ∃ s' o, (machine beats cap).exec s ((stores n W).map (.prod p)) = some (s', o) ∧
      s'.prod p = (if beats then .beat pos else .idle) ∧ s'.cons = s.cons ∧ s'.writePos = s.writePos ∧
      s'.slots = Function.update s.slots (cap.slot pos) ⟨u64 (pos * 2 + 1), item⟩ := by
  have hmark : (machine beats cap).step s (.prod p .mark) = some (_, _) :=
    prod_step.2 (.mark pos item hp)
  obtain ⟨s₁, copied, he, hp₁, hall, -, hc, hw, hsl⟩ := exec_words beats cap
    (s := (s.setSlot (cap.slot pos) fun x => { x with sequence := u64 (pos * 2) }).setProd p
      (.copy pos item fun _ => false)) (List.finRange n) (State.setProd_self _ _ _)
  have hready : (machine beats cap).step s₁ (.prod p .ready) = some (_, _) :=
    prod_step.2 (.ready pos item copied hp₁ fun i => hall i (List.mem_finRange i))
  have htail := Machine.exec_cons_eq_some.2 ⟨_, _, _, hready, Machine.exec_nil _, rfl⟩
  have hexec := Machine.exec_cons_eq_some.2 ⟨_, _, _, hmark, Machine.exec_append he htail, rfl⟩
  have hacts : (stores n W).map (Act.prod p : _ → Act P C n W) = .prod p .mark ::
      (((List.finRange n).map PushAct.word).map (.prod p) ++ [.prod p .ready]) := by
    unfold stores
    rw [List.map_cons, List.map_append]
    rfl
  rw [← hacts] at hexec
  refine ⟨_, _, hexec, State.setProd_self _ _ _, hc, hw, ?_⟩
  simp only [State.setProd, State.setSlot, hsl, Function.update_self, Function.update_idem,
    List.mem_finRange, if_true]

theorem step_of_move {x x' : Consumer n W} {a : PopAct n W} (hc : s.cons c = x)
    (hm : PopMove cap s.writePos s.slots c x a x' o) :
    (machine beats cap).step s (.cons c a) = some (s.setCons c x', o) :=
  cons_step.2 ⟨x', by rw [hc]; exact hm, rfl⟩

/-! ### Every call can complete -/

theorem Call.exists_push (beats : Bool) (cap : Capacity) (item : Fin n → W) (hp : s.prod p = .idle) :
    ∃ s', Call (machine beats cap) s (.push p item) s' none := by
  have hclaim : (machine beats cap).step s (.prod p (.push item)) = some (_, _) :=
    prod_step.2 (.claim item hp)
  obtain ⟨s₁, o, he, hp₁, -⟩ := exec_stores beats cap (s := State.setProd
    { s with writePos := u64 (s.writePos + 1) } p (.mark s.writePos item)) (State.setProd_self _ _ _)
  cases beats with
  | false =>
    exact ⟨s₁, .push push_notMem_stores (Machine.exec_cons_eq_some.2 ⟨_, _, _, hclaim, he, rfl⟩) hp₁⟩
  | true =>
    have hbeat : (machine true cap).step s₁ (.prod p (.beat 0)) = some (_, _) :=
      prod_step.2 (.beat s.writePos 0 hp₁)
    have hall := Machine.exec_cons_eq_some.2 ⟨_, _, _, hclaim, Machine.exec_append he
      (Machine.exec_cons_eq_some.2 ⟨_, _, _, hbeat, Machine.exec_nil _, rfl⟩), rfl⟩
    have hacts : (Act.prod p (.push item) :: ((stores n W).map (.prod p) ++ [.prod p (.beat 0)]) :
        List (Act P C n W)) = (.push item :: (stores n W ++ [.beat 0])).map (.prod p) := by
      rw [List.map_cons, List.map_append]
      rfl
    rw [hacts] at hall
    refine ⟨_, .push ?_ hall (State.setProd_self _ _ _)⟩
    intro item' h
    rcases List.mem_append.1 h with h | h
    · exact push_notMem_stores item' h
    · simp at h

/-- The `pop` of `c` in progress can come to its return. -/
def ReachesReturn (beats : Bool) (cap : Capacity) (c : C) (s : State P C n W) : Prop :=
  ∃ acts : List (PopAct n W), (∀ a ∈ acts, a ≠ .ret ∧ ∀ out, a ≠ .pop out) ∧
    ∃ s' o ok, (machine beats cap).exec s (acts.map (.cons c)) = some (s', o) ∧ (s'.cons c).pc = .ret ok

theorem reachesReturn_of_ret {ok : Bool} (h : (s.cons c).pc = .ret ok) : ReachesReturn beats cap c s :=
  ⟨[], by simp, s, [], ok, rfl, h⟩

theorem ReachesReturn.of_move {x x' : Consumer n W} {a : PopAct n W}
    (h : ReachesReturn beats cap c (s.setCons c x')) (ha : a ≠ .ret ∧ ∀ out, a ≠ .pop out)
    (hc : s.cons c = x) (hm : PopMove cap s.writePos s.slots c x a x' o) :
    ReachesReturn beats cap c s := by
  obtain ⟨acts, hacts, s', o', ok, he, hr⟩ := h
  refine ⟨a :: acts, ?_, s', o ++ o', ok, ?_, hr⟩
  · intro b hb
    rcases List.mem_cons.1 hb with rfl | hb
    · exact ha
    · exact hacts b hb
  · rw [List.map_cons, Machine.exec_cons (step_of_move hc hm), he]
    rfl

/-- In the copy, the words of `l` remaining to be read. -/
theorem reachesReturn_copy {q : Nat} {out : Fin n → W} {copied : Fin n → Bool} (l : List (Fin n))
    (hl : ∀ i, i ∉ l → copied i = true) (hc : s.cons c = ⟨q, out, .copy copied⟩) :
    ReachesReturn beats cap c s := by
  induction l generalizing s out copied with
  | nil =>
    have hall : ∀ i, copied i = true := fun i => hl i List.not_mem_nil
    by_cases hseq : (s.slots (cap.slot q)).sequence = expected q
    · exact .of_move (reachesReturn_of_ret (by rw [State.setCons_self])) (by simp) hc
        (PopMove.taken (P := P) q out copied hall hseq)
    · exact .of_move (reachesReturn_of_ret (by rw [State.setCons_self])) (by simp) hc
        (PopMove.torn (P := P) q out copied hall hseq)
  | cons i l ih =>
    refine .of_move (ih (fun j hj => ?_) (State.setCons_self s c _)) (by simp) hc
      (PopMove.read (P := P) q out copied i)
    by_cases hji : j = i
    · subst hji
      exact Function.update_self _ _ _
    · rw [Function.update_of_ne hji]
      exact hl j (by simp [hji, hj])

theorem reachesReturn_loadSeq {q : Nat} {out : Fin n → W} (hc : s.cons c = ⟨q, out, .loadSeq⟩) :
    ReachesReturn beats cap c s := by
  by_cases hseq : (s.slots (cap.slot q)).sequence = expected q
  · exact .of_move (reachesReturn_copy (List.finRange n) (by simp) (State.setCons_self s c _)) (by simp) hc
      (PopMove.isReady (P := P) q out hseq)
  · exact .of_move (reachesReturn_of_ret (by rw [State.setCons_self])) (by simp) hc
      (PopMove.notReady (P := P) q out hseq)

theorem Call.exists_pop (beats : Bool) (cap : Capacity) (out : Fin n → W) (hc : (s.cons c).pc = .idle) :
    ∃ s' r, Call (machine beats cap) s (.pop c) s' r := by
  obtain ⟨x', hm, hreach⟩ : ∃ x', PopMove (P := P) cap s.writePos s.slots c (s.cons c) (.pop out) x' [] ∧
      ReachesReturn beats cap c (s.setCons c x') := by
    rcases hx : s.cons c with ⟨pos, old, pc⟩
    obtain rfl : pc = .idle := by rw [hx] at hc; exact hc
    by_cases hle : s.writePos ≤ pos
    · exact ⟨_, .nothingNew pos old out hle, reachesReturn_of_ret (by rw [State.setCons_self])⟩
    · exact ⟨_, .forward pos old out (Nat.not_le.1 hle),
        reachesReturn_loadSeq (State.setCons_self s c _)⟩
  obtain ⟨acts, hacts, s₁, o, ok, he, hret⟩ := hreach
  have hpop : (machine beats cap).step s (.cons c (.pop out)) = some (_, _) := step_of_move rfl hm
  have hlast : (machine beats cap).step s₁ (.cons c .ret) = some (_, _) :=
    step_of_move (x := ⟨(s₁.cons c).pos, (s₁.cons c).out, .ret ok⟩) (by rw [← hret]) (.ret _ _ ok)
  have hexec := Machine.exec_cons_eq_some.2 ⟨_, _, _, hpop, Machine.exec_append he
    (Machine.exec_cons_eq_some.2 ⟨_, _, _, hlast, Machine.exec_nil _, rfl⟩), rfl⟩
  have hmap : (Act.cons c (.pop out) :: (acts.map (.cons c) ++ [.cons c .ret]) :
      List (Act P C n W)) = (.pop out :: (acts ++ [.ret])).map (.cons c) := by
    rw [List.map_cons, List.map_append]
    rfl
  rw [hmap] at hexec
  refine ⟨_, _, .pop ?_ hexec (by simp; exact .inr ⟨rfl, rfl, rfl⟩)⟩
  intro out' h
  rcases List.mem_append.1 h with h | h
  · exact (hacts _ h).2 out' rfl
  · simp at h

theorem Call.exists_of_allowed (beats : Bool) (cap : Capacity) {op : Op P C n W} (h : AtRest s)
    (hop : op.Allowed s) : ∃ s' r, Call (machine beats cap) s op s' r := by
  cases op with
  | push p item =>
    obtain ⟨s', hcall⟩ := Call.exists_push beats cap item (h.prod p)
    exact ⟨s', none, hcall⟩
  | cursor c pos => exact ⟨_, _, .cursor (h.cons c) hop⟩
  | pop c => exact Call.exists_pop beats cap default hop

/-! ### What a call does -/

omit [DecidableEq P] [Inhabited W] in
theorem Inv.setCons_idle {out : Fin n → W} (h : Inv cap tr s) (hle : pos ≤ s.writePos) :
    Inv cap tr (s.setCons c ⟨pos, out, .idle⟩) := by
  have hring := h.toRing.setCons (o := []) (c := c) (x := ⟨pos, out, .idle⟩) rfl rfl
  rw [List.append_nil] at hring
  refine ⟨hring, fun c' => ?_⟩
  by_cases hc : c' = c
  · subst hc
    rw [State.setCons_self]
    exact ⟨hle, trivial⟩
  · rw [State.setCons_of_ne hc]
    exact h.cons c'

omit [DecidableEq P] [Inhabited W] in
theorem AtRest.setCons_idle {out : Fin n → W} (h : AtRest s) :
    AtRest (s.setCons c ⟨pos, out, .idle⟩) := by
  refine ⟨h.prod, fun c' => ?_⟩
  by_cases hc : c' = c
  · subst hc
    rw [State.setCons_self]
    exact .inr rfl
  · rw [State.setCons_of_ne hc]
    exact h.cons c'

omit [DecidableEq C] [Inhabited W] in
/-- An access of a push after its `fetch_add`. -/
theorem PushMove.after_claim {a : PushAct n W} (hm : PushMove beats cap s p a s' o)
    (ha : ∀ item, a ≠ .push item) :
    claims o = [] ∧ s'.cons = s.cons ∧ ∀ q, q ≠ p → s'.prod q = s.prod q := by
  cases hm with
  | claim item => exact absurd rfl (ha item)
  | mark | word | ready | beat => exact ⟨rfl, rfl, fun q hq => Function.update_of_ne hq _ _⟩

omit [DecidableEq P] [DecidableEq C] [Inhabited W] in
theorem noLap_of_rest {item : Fin n → W} (hr : AtRest s) : NoLap cap tr s (.prod p (.push item)) := by
  intro q pos hfl
  rw [hr.prod q] at hfl
  exact hfl.elim

theorem inv_step {a : Act P C n W} (h : Inv cap tr s) (hb : (claims (tr ++ o)).length < 2 ^ 63)
    (hlap : NoLap cap tr s a) (hs : (machine beats cap).step s a = some (s', o)) :
    Inv cap (tr ++ o) s' := by
  have hs' : step beats cap s a = some (s', o) := hs
  exact h.step hb hlap hs'

theorem Call.push_spec {item : Fin n → W} {r : Option (Fin n → W)} (h : Inv cap tr s) (hr : AtRest s)
    (hb : (claims tr).length + 1 < 2 ^ 63)
    (hcall : Call (machine beats cap) s (.push p item) s' r) :
    r = none ∧ AtRest s' ∧ s'.cons = s.cons ∧ ∃ o, Inv cap (tr ++ o) s' ∧ claims o = [item] := by
  cases hcall with
  | push hacts he hp =>
    obtain ⟨s₁, o₁, o₂, hs, he', rfl⟩ := Machine.exec_cons_eq_some.1 he
    have hlen : ∀ o : List (Event P C n W), claims o = [item] →
        (claims (tr ++ o)).length < 2 ^ 63 := by
      intro o ho
      rw [claims_append, ho, List.length_append]
      exact hb
    have hm := prod_step.1 hs
    have hfirst : claims o₁ = [item] ∧ s₁.cons = s.cons ∧ ∀ q, q ≠ p → s₁.prod q = .idle := by
      cases hm with
      | claim _ hidle =>
        exact ⟨rfl, rfl, fun q hq => (Function.update_of_ne hq _ _).trans (hr.prod q)⟩
    have hinv : Inv cap (tr ++ o₁) s₁ :=
      inv_step h (hlen o₁ hfirst.1) (noLap_of_rest hr) hs
    -- the rest of the call
    have hrest := Machine.exec_invariant (P := fun a => ∃ b, a = .prod p b ∧ ∀ item, b ≠ .push item)
      (I := fun o t => claims o = [item] ∧ Inv cap (tr ++ o) t ∧ t.cons = s.cons ∧
        ∀ q, q ≠ p → t.prod q = .idle) ?_ ⟨hfirst.1, hinv, hfirst.2⟩ ?_ he'
    · obtain ⟨ho, hinv', hcons, hprod⟩ := hrest
      refine ⟨rfl, ⟨fun q => ?_, ?_⟩, hcons, o₁ ++ o₂, hinv', ho⟩
      · by_cases hq : q = p
        · rw [hq]
          exact hp
        · exact hprod q hq
      · rw [hcons]
        exact hr.cons
    · rintro o t a t' o' ⟨ho, hi, hcons, hprod⟩ ⟨b, rfl, hb'⟩ hs'
      obtain ⟨hcl, hcons', hprod'⟩ := (prod_step.1 hs').after_claim hb'
      have ho' : claims (o ++ o') = [item] := by rw [claims_append, ho, hcl, List.append_nil]
      refine ⟨ho', ?_, hcons'.trans hcons, fun q hq => (hprod' q hq).trans (hprod q hq)⟩
      rw [← List.append_assoc]
      refine inv_step hi ?_ ?_ hs'
      · rw [List.append_assoc]
        exact hlen _ ho'
      · rcases b with item' | _ | _ | _ | _
        · exact absurd rfl (hb' item')
        all_goals trivial
    · intro a ha
      obtain ⟨b, hmem, rfl⟩ := List.mem_map.1 ha
      refine ⟨b, rfl, fun item' heq => ?_⟩
      rw [heq] at hmem
      exact hacts item' hmem

omit [DecidableEq P] [DecidableEq C] [Inhabited W] in
/-- Where a `pop` behind `write_pos` reads, the slot is ready and holds the item of its position. -/
theorem Ring.ready (h : Ring cap tr s) (hp : ∀ p, s.prod p = .idle) (hw : s.writePos < 2 ^ 63)
    (hlt : pos < s.writePos) :
    (s.slots (cap.slot (fastForward cap s.writePos pos))).sequence =
        expected (fastForward cap s.writePos pos) ∧
      (claims tr)[fastForward cap s.writePos pos]? =
        some (s.slots (cap.slot (fastForward cap s.writePos pos))).data := by
  have hcur : cap.Current s.writePos (fastForward cap s.writePos pos) := by
    refine ⟨fastForward_lt cap hlt, ?_⟩
    unfold fastForward
    split <;> omega
  have hcur' := hcur.1
  rw [expected_of_lt (by omega)]
  refine h.settled _ hcur fun p hfl => ?_
  rw [hp p] at hfl
  exact hfl

/-- A call of `pop` that finds nothing new, and what it has shown so far. -/
inductive Refused (c : C) (pos : Nat) (out : Fin n → W) : Consumer n W → List (Event P C n W) → Prop
  | ret : Refused c pos out ⟨pos, out, .ret false⟩ []
  | done : Refused c pos out ⟨pos, out, .idle⟩ [.ret c false pos out]

/-- A call of `pop` at `q` while the slot of `q` holds `d` and is ready, and what it has shown so
far. -/
inductive Taking (c : C) (q : Nat) (d : Fin n → W) : Consumer n W → List (Event P C n W) → Prop
  | loadSeq (out : Fin n → W) : Taking c q d ⟨q, out, .loadSeq⟩ []
  | copy (out : Fin n → W) (copied : Fin n → Bool) (h : ∀ i, copied i = true → out i = d i) :
    Taking c q d ⟨q, out, .copy copied⟩ []
  | ret : Taking c q d ⟨q + 1, d, .ret true⟩ []
  | done : Taking c q d ⟨q + 1, d, .idle⟩ [.ret c true (q + 1) d]

omit [DecidableEq P] [DecidableEq C] [Inhabited W] in
theorem Refused.move {w : Nat} {slots : Nat → Slot n W} {out : Fin n → W} {x x' : Consumer n W}
    {a : PopAct n W} {o' : List (Event P C n W)} (h : Refused c pos out x o) (ha : ∀ out, a ≠ .pop out)
    (hm : PopMove cap w slots c x a x' o') : Refused c pos out x' (o ++ o') := by
  cases h with
  | ret =>
    cases hm with
    | ret => exact .done
  | done =>
    cases hm with
    | nothingNew | forward => exact absurd rfl (ha _)

omit [DecidableEq P] [DecidableEq C] [Inhabited W] in
theorem Taking.move {q w : Nat} {slots : Nat → Slot n W} {x x' : Consumer n W} {a : PopAct n W}
    {o' : List (Event P C n W)} (h : Taking c q (slots (cap.slot q)).data x o)
    (hseq : (slots (cap.slot q)).sequence = expected q) (hq : q + 1 < 2 ^ 64)
    (ha : ∀ out, a ≠ .pop out) (hm : PopMove cap w slots c x a x' o') :
    Taking c q (slots (cap.slot q)).data x' (o ++ o') := by
  cases h with
  | loadSeq out =>
    cases hm with
    | notReady _ _ hne => exact absurd hseq hne
    | isReady => exact .copy out _ fun _ h1 => by cases h1
  | copy out copied hout =>
    cases hm with
    | read _ _ _ i =>
      refine .copy _ _ fun j hj => ?_
      by_cases hji : j = i
      · subst hji
        exact Function.update_self _ _ _
      · rw [Function.update_of_ne hji] at hj ⊢
        exact hout j hj
    | torn _ _ _ _ hne => exact absurd hseq hne
    | taken _ _ _ hall =>
      obtain rfl : out = (slots (cap.slot q)).data := funext fun i => hout i (hall i)
      rw [u64_of_lt hq]
      exact .ret
  | ret =>
    cases hm with
    | ret => exact .done
  | done =>
    cases hm with
    | nothingNew | forward => exact absurd rfl (ha _)

/-- The accesses of one call of `pop` change its consumer only. -/
theorem exec_cons_thread {J : Consumer n W → List (Event P C n W) → Prop} {acts : List (PopAct n W)}
    {x : Consumer n W}
    (hJ : ∀ {x x' : Consumer n W} {a o o'}, J x o → (∀ out, a ≠ .pop out) →
      PopMove cap s.writePos s.slots c x a x' o' → J x' (o ++ o'))
    (hacts : ∀ out, .pop out ∉ acts) (h : J x [])
    (he : (machine beats cap).exec (s.setCons c x) (acts.map (.cons c)) = some (s', o)) :
    ∃ x', s' = s.setCons c x' ∧ J x' o := by
  have h0 : ∃ x', s.setCons c x = s.setCons c x' ∧ J x' [] := ⟨x, rfl, h⟩
  refine Machine.exec_invariant (P := fun a => ∃ b, a = .cons c b ∧ ∀ out, b ≠ .pop out)
    (I := fun o t => ∃ x, t = s.setCons c x ∧ J x o) ?_ h0 ?_ he
  · rintro o t a t' o' ⟨x, rfl, hx⟩ ⟨b, rfl, hb⟩ hs
    obtain ⟨x', hm, rfl⟩ := cons_step.1 hs
    rw [State.setCons_self] at hm
    exact ⟨x', by simp [State.setCons], hJ hx hb hm⟩
  · intro a ha
    obtain ⟨b, hmem, rfl⟩ := List.mem_map.1 ha
    refine ⟨b, rfl, fun out heq => ?_⟩
    rw [heq] at hmem
    exact hacts out hmem

theorem Call.pop_spec {r : Option (Fin n → W)} (h : Inv cap tr s) (hr : AtRest s)
    (hb : (claims tr).length < 2 ^ 63) (hcall : Call (machine beats cap) s (.pop c) s' r) :
    (s.cons c).pc = .idle ∧ ∃ pos' out', s' = s.setCons c ⟨pos', out', .idle⟩ ∧
      ((s.cons c).pos < s.writePos ∧ pos' = fastForward cap s.writePos (s.cons c).pos + 1 ∧
          r = some out' ∧ (claims tr)[fastForward cap s.writePos (s.cons c).pos]? = some out' ∨
        s.writePos ≤ (s.cons c).pos ∧ pos' = (s.cons c).pos ∧ r = none) := by
  have hw : s.writePos < 2 ^ 63 := h.write ▸ hb
  cases hcall with
  | pop hacts he hret =>
    obtain ⟨s₁, o₁, o₂, hs, he', rfl⟩ := Machine.exec_cons_eq_some.1 he
    obtain ⟨x₁, hm, rfl⟩ := cons_step.1 hs
    generalize hx : s.cons c = x at hm
    cases hm with
    | nothingNew pos old out hle =>
      obtain ⟨x, rfl, hx'⟩ := exec_cons_thread (J := Refused c _ _)
        (fun h1 ha hm => h1.move ha hm) hacts .ret he'
      cases hx' with
      | ret => simp at hret
      | done =>
        obtain ⟨rfl, rfl, rfl⟩ := by simpa using hret
        exact ⟨rfl, _, _, rfl, .inr ⟨hle, rfl, rfl⟩⟩
    | forward pos old out hlt =>
      obtain ⟨hseq, hitem⟩ := h.toRing.ready hr.prod hw hlt
      have hff := fastForward_lt cap hlt
      obtain ⟨x, rfl, hx'⟩ := exec_cons_thread (J := Taking c (fastForward cap s.writePos pos) _)
        (fun h1 ha hm => h1.move hseq (by omega) ha hm) hacts (.loadSeq _) he'
      cases hx' with
      | loadSeq | copy | ret => simp at hret
      | done =>
        obtain ⟨rfl, rfl, rfl⟩ := by simpa using hret
        exact ⟨rfl, _, _, rfl, .inl ⟨hlt, rfl, rfl, hitem⟩⟩

end

/-! ### What a lone producer leaves in the ring -/

/-- `write_pos` and the slots after a push of `item`. -/
def store (cap : Capacity) (r : Nat × (Nat → Slot n W)) (item : Fin n → W) : Nat × (Nat → Slot n W) :=
  (u64 (r.1 + 1), Function.update r.2 (cap.slot r.1) ⟨u64 (r.1 * 2 + 1), item⟩)

/-- `write_pos` and the slots of a new ring after pushes of these items. -/
def stored [Inhabited W] (cap : Capacity) (items : List (Fin n → W)) : Nat × (Nat → Slot n W) :=
  items.foldl (store cap) (0, fun _ => ⟨0, fun _ => default⟩)

/-- The ring holds what was pushed, but for the slot of the push in progress. -/
def Stored [Inhabited W] (cap : Capacity) (tr : List (Event Unit C n W)) (s : State Unit C n W) : Prop :=
  match s.prod () with
  | .idle | .beat _ => (s.writePos, s.slots) = stored cap (claims tr)
  | .mark pos item =>
    ∃ items, claims tr = items ++ [item] ∧ stored cap items = (pos, s.slots) ∧ s.writePos = u64 (pos + 1)
  | .copy pos item copied =>
    ∃ items slots data, claims tr = items ++ [item] ∧ stored cap items = (pos, slots) ∧
      s.slots = Function.update slots (cap.slot pos) ⟨u64 (pos * 2), data⟩ ∧
      (∀ i, copied i = true → data i = item i) ∧ s.writePos = u64 (pos + 1)

theorem stored_concat [Inhabited W] (items : List (Fin n → W)) (item : Fin n → W) :
    stored cap (items ++ [item]) = store cap (stored cap items) item := by
  unfold stored
  rw [List.foldl_append]
  rfl

section
variable [DecidableEq C] [Inhabited W] {s s' : State Unit C n W} {tr o : List (Event Unit C n W)}

omit [DecidableEq C] in
theorem Stored.pushMove {a : PushAct n W} (h : Stored cap tr s)
    (hm : PushMove beats cap s () a s' o) : Stored cap (tr ++ o) s' := by
  unfold Stored at h ⊢
  cases hm with
  | claim item hp =>
    rw [hp] at h
    rw [State.setProd_self, claims_append, claims_claim]
    exact ⟨claims tr, rfl, h.symm, rfl⟩
  | mark pos item hp =>
    rw [hp] at h
    rw [State.setProd_self, List.append_nil]
    obtain ⟨items, hcl, hst, hw⟩ := h
    exact ⟨items, s.slots, _, hcl, hst, rfl, by simp, hw⟩
  | word pos item copied i hp =>
    rw [hp] at h
    rw [State.setProd_self, List.append_nil]
    obtain ⟨items, slots, data, hcl, hst, hsl, hdata, hw⟩ := h
    refine ⟨items, slots, Function.update data i (item i), hcl, hst, ?_, fun j hj => ?_, hw⟩
    · show Function.update s.slots _ _ = _
      rw [hsl, Function.update_self, Function.update_idem]
    · by_cases hji : j = i
      · subst hji
        exact Function.update_self _ _ _
      · rw [Function.update_of_ne hji] at hj ⊢
        exact hdata j hj
  | ready pos item copied hp hall =>
    rw [hp] at h
    obtain ⟨items, slots, data, hcl, hst, hsl, hdata, hw⟩ := h
    obtain rfl : data = item := funext fun i => hdata i (hall i)
    have hend : (s.writePos, Function.update s.slots (cap.slot pos)
        ⟨u64 (pos * 2 + 1), (s.slots (cap.slot pos)).data⟩) =
          stored cap (claims (tr ++ [.ready () pos])) := by
      rw [claims_append, claims_ready, List.append_nil, hcl, stored_concat, hst, hw, hsl,
        Function.update_self, Function.update_idem]
      rfl
    rw [State.setProd_self]
    cases beats <;> exact hend
  | beat pos now hp =>
    rw [hp] at h
    rw [State.setProd_self, List.append_nil]
    exact h

omit [DecidableEq C] in
theorem Stored.of_idle (h : Stored cap tr s) (hp : s.prod () = .idle) :
    (s.writePos, s.slots) = stored cap (claims tr) := by
  unfold Stored at h
  rw [hp] at h
  exact h

theorem stored_of_runs {ok : List (Event Unit C n W) → State Unit C n W → Act Unit C n W → Prop}
    (h : (machine beats cap).Runs ok tr s) : Stored cap tr s := by
  have hinit : Stored cap [] (init : State Unit C n W) := rfl
  refine Machine.Runs.invariant (M := machine beats cap) (I := Stored cap) hinit ?_ h
  intro tr s a s' o ih _ hs
  cases a with
  | prod p a => exact ih.pushMove (prod_step.1 hs)
  | cons c a =>
    obtain ⟨x, hm, rfl⟩ := cons_step.1 hs
    unfold Stored at ih ⊢
    rw [claims_append, hm.claims_eq, List.append_nil]
    exact ih

end

end Lwipc.SpmcRing
