import Lwipc.ChannelOverwrite

/-!
# The subscriber's statistics

`try_receive` reads off its cursor, after `pop`, how many positions were skipped. Each cursor has a
position up to which the statistics account for it (`accounted`): it stays behind the cursor during
a call and has caught up when the call returns true. A `pop` that fast-forwards and then returns
false breaks this, since the positions skipped are counted nowhere; in runs where the publisher does
not bring one about (`NotOverwritten`) the statistics account for every position.
-/

namespace Lwipc.Channel

open LittleEndian SpmcRing

theorem sum_map_add_eq {α : Type} {l : List (α × Nat)} {F G : α × Nat → Nat} {c : α} {start x y : Nat}
    (hnd : (l.map Prod.fst).Nodup) (hmem : (c, start) ∈ l) (hself : G (c, start) + x = F (c, start) + y)
    (hother : ∀ z ∈ l, z.1 ≠ c → G z = F z) : (l.map G).sum + x = (l.map F).sum + y := by
  induction l with
  | nil => cases hmem
  | cons z l ih =>
    obtain ⟨hz, hnd⟩ := List.nodup_cons.1 hnd
    simp only [List.map_cons, List.sum_cons]
    rcases List.mem_cons.1 hmem with rfl | hmem
    · have heq : l.map G = l.map F := by
        refine List.map_congr_left fun w hw => hother w (by simp [hw]) ?_
        rintro rfl
        exact hz (List.mem_map.2 ⟨w, hw, rfl⟩)
      rw [heq]
      omega
    · have hne : z.1 ≠ c := by
        rintro rfl
        exact hz (List.mem_map.2 ⟨_, hmem, rfl⟩)
      have := ih hnd hmem fun w hw => hother w (by simp [hw])
      rw [hother z (by simp) hne]
      omega

variable {ι L C S D : Type} {cfg : Config ι C S D}

/-- The cursors made by `make_cursor`, with the positions they were created with. -/
def created {lay : Layout} (tr : List (Event lay ι C)) : List (C × Nat) :=
  tr.filterMap fun | .ring (.cursor c pos) => some (c, pos) | _ => none

/-- The cursor of a call that returns. -/
def Event.cursor {lay : Layout} : Event lay ι C → Option C
  | .ret c _ _ _ _ => some c
  | _ => none

/-- Whether the event is a return of true from a call on a cursor of `σ`. -/
def Event.isTrue [DecidableEq S] (cfg : Config ι C S D) (σ : S) : Event cfg.lay ι C → Bool
  | .ret c true _ _ _ => cfg.owner c = σ
  | _ => false

/-- The number of calls of subscriber `σ` that returned true. -/
def returnedTrue [DecidableEq S] (cfg : Config ι C S D) (σ : S) (tr : List (Event cfg.lay ι C)) : Nat :=
  tr.countP (Event.isTrue cfg σ)

/-- The sum of `F` over the cursors of `σ`. -/
def total [DecidableEq S] (cfg : Config ι C S D) (σ : S) (tr : List (Event cfg.lay ι C))
    (F : C × Nat → Nat) : Nat :=
  (((created tr).filter fun x => cfg.owner x.1 = σ).map F).sum

/-- How far the cursors of `σ` have moved since they were created. -/
def moved [DecidableEq S] (cfg : Config ι C S D) (σ : S) (tr : List (Event cfg.lay ι C))
    (s : State cfg.lay ι L C S D) : Nat :=
  total cfg σ tr fun x => (s.ring.cons x.1).pos - x.2

/-- The position up to which the statistics account for a cursor. -/
def accounted {lay : Layout} (x : Consumer lay.slotSize Byte) (k : Call lay D) : Nat :=
  match k.pc with
  | .popping | .addDropped => k.prePos
  | .addReceived => x.pos - 1
  | _ => x.pos

/-- One for a call that is counted as received but has not returned yet. -/
def counted {lay : Layout} (k : Call lay D) : Nat :=
  match k.pc with
  | .loadLatency _ | .storeLatency _ _ => 1
  | _ => 0

/-- A cursor inside `pop`. -/
def PopOk {lay : Layout} (x : Consumer lay.slotSize Byte) (prePos : Nat) : Prop :=
  prePos ≤ x.pos ∧
  match x.pc with
  | .loadSeq | .copy _ => x.pos + 1 < 2 ^ 64
  | .ret true => prePos < x.pos
  | .ret false => x.pos = prePos
  | _ => False

/-- A cursor and the call on it. -/
def CallOk {lay : Layout} (x : Consumer lay.slotSize Byte) (k : Call lay D) : Prop :=
  x.pos < 2 ^ 64 ∧
  match k.pc with
  | .idle => x.pc = .none ∨ x.pc = .idle
  | .popping => PopOk x k.prePos
  | .addDropped => x.pc = .idle ∧ k.prePos + 1 < x.pos
  | .addReceived => x.pc = .idle ∧ 0 < x.pos
  | _ => x.pc = .idle

variable [DecidableEq S]

/-- The positions of the cursors of `σ` that the statistics account for. -/
def accountedAll (cfg : Config ι C S D) (σ : S) (tr : List (Event cfg.lay ι C))
    (s : State cfg.lay ι L C S D) : Nat :=
  total cfg σ tr fun x => accounted (s.ring.cons x.1) (s.calls x.1) - x.2

/-- The calls of `σ` that are counted as received. -/
def countedAll (cfg : Config ι C S D) (σ : S) (tr : List (Event cfg.lay ι C))
    (s : State cfg.lay ι L C S D) : Nat :=
  returnedTrue cfg σ tr + total cfg σ tr fun x => counted (s.calls x.1)

/-- What the statistics say at every point of a run. -/
structure Account (tr : List (Event cfg.lay ι C)) (s : State cfg.lay ι L C S D) : Prop where
  write : s.ring.writePos < 2 ^ 64
  call : ∀ c, CallOk (s.ring.cons c) (s.calls c)
  once : ((created tr).map Prod.fst).Nodup
  known : ∀ c, (∃ start, (c, start) ∈ created tr) ↔ (s.ring.cons c).pc ≠ .none
  start : ∀ x ∈ created tr, x.2 ≤ accounted (s.ring.cons x.1) (s.calls x.1)
  received : ∀ σ, (s.stats σ).received = u64 (countedAll cfg σ tr s)
  le : ∀ σ, countedAll cfg σ tr s ≤ accountedAll cfg σ tr s
  dropped : ∀ σ, (s.stats σ).dropped = u64 (accountedAll cfg σ tr s - countedAll cfg σ tr s)

variable {tr o : List (Event cfg.lay ι C)} {s s' : State cfg.lay ι L C S D} {σ : S}

omit [DecidableEq S] in
theorem created_append : created (tr ++ o) = created tr ++ created o := List.filterMap_append

theorem returnedTrue_append :
    returnedTrue cfg σ (tr ++ o) = returnedTrue cfg σ tr + returnedTrue cfg σ o := List.countP_append

theorem returnedTrue_map {β : Type} {f : β → Event cfg.lay ι C} (l : List β)
    (hf : ∀ x, Event.isTrue cfg σ (f x) = false) : returnedTrue cfg σ (l.map f) = 0 := by
  unfold returnedTrue
  rw [List.countP_map]
  exact List.countP_eq_zero.2 fun x _ => by simp [hf x]

theorem returnedTrue_returned (s : State cfg.lay ι L C S D) (c : C) (σ : S) :
    returnedTrue cfg σ [s.returned c true] = if cfg.owner c = σ then 1 else 0 := by
  unfold returnedTrue
  rw [List.countP_singleton]
  simp [State.returned, Event.isTrue]

theorem total_append (ho : created o = []) (F : C × Nat → Nat) :
    total cfg σ (tr ++ o) F = total cfg σ tr F := by
  unfold total
  rw [created_append, ho, List.append_nil]

/-- Changing the summand of one cursor changes the sum of its subscriber. -/
theorem total_add_eq {F G : C × Nat → Nat} {c : C} {start x y : Nat}
    (hnd : ((created tr).map Prod.fst).Nodup) (hmem : (c, start) ∈ created tr)
    (hself : G (c, start) + x = F (c, start) + y) (hother : ∀ z ∈ created tr, z.1 ≠ c → G z = F z) :
    total cfg σ tr G + (if cfg.owner c = σ then x else 0) =
      total cfg σ tr F + (if cfg.owner c = σ then y else 0) := by
  unfold total
  by_cases hσ : cfg.owner c = σ
  · rw [if_pos hσ, if_pos hσ]
    refine sum_map_add_eq (hnd.sublist (List.filter_sublist.map _)) ?_ hself fun z hz => ?_
    · exact List.mem_filter.2 ⟨hmem, by simpa using hσ⟩
    · exact hother z (List.mem_filter.1 hz).1
  · rw [if_neg hσ, if_neg hσ]
    refine congrArg (fun l => List.sum l + 0) (List.map_congr_left fun z hz => ?_)
    obtain ⟨hz, hown⟩ := List.mem_filter.1 hz
    refine hother z hz ?_
    rintro rfl
    exact hσ (by simpa using hown)

theorem Account.congr (h : Account tr s) (hw : s'.ring.writePos < 2 ^ 64)
    (hcons : s'.ring.cons = s.ring.cons) (hcalls : s'.calls = s.calls) (hstats : s'.stats = s.stats)
    (ho : created o = []) (hret : ∀ σ, returnedTrue cfg σ o = 0) : Account (tr ++ o) s' := by
  have hc : created (tr ++ o) = created tr := by rw [created_append, ho, List.append_nil]
  have hacc : ∀ σ, accountedAll cfg σ (tr ++ o) s' = accountedAll cfg σ tr s := by
    intro σ
    unfold accountedAll
    rw [total_append ho, hcons, hcalls]
  have hcnt : ∀ σ, countedAll cfg σ (tr ++ o) s' = countedAll cfg σ tr s := by
    intro σ
    unfold countedAll
    rw [total_append ho, hcalls, returnedTrue_append, hret, Nat.add_zero]
  refine ⟨hw, ?_, ?_, ?_, ?_, fun σ => ?_, fun σ => ?_, fun σ => ?_⟩
  · rw [hcons, hcalls]; exact h.call
  · rw [hc]; exact h.once
  · rw [hc, hcons]; exact h.known
  · rw [hc, hcons, hcalls]; exact h.start
  · rw [hcnt, hstats]; exact h.received σ
  · rw [hcnt, hacc]; exact h.le σ
  · rw [hcnt, hacc, hstats]; exact h.dropped σ

variable [DecidableEq C]

/-- A step of a call on cursor `c`: `p` and `q` are added to the counters, and the accounted position
advances by as much; `t` is one for a return of true. -/
theorem Account.cursor {c : C} {x' : Consumer cfg.lay.slotSize Byte} {k' : Call cfg.lay D} {p q t : Nat}
    (h : Account tr s) (hw : s'.ring.writePos = s.ring.writePos)
    (hcons : s'.ring.cons = Function.update s.ring.cons c x')
    (hcalls : s'.calls = Function.update s.calls c k')
    (hpc : (s.ring.cons c).pc ≠ .none) (hpc' : x'.pc ≠ .none) (hok : CallOk x' k')
    (hacc : accounted x' k' = accounted (s.ring.cons c) (s.calls c) + (p + q))
    (hcnt : counted k' + t = counted (s.calls c) + p)
    (hrec : ∀ σ, (s'.stats σ).received =
      u64 ((s.stats σ).received + if cfg.owner c = σ then p else 0))
    (hdrop : ∀ σ, (s'.stats σ).dropped = u64 ((s.stats σ).dropped + if cfg.owner c = σ then q else 0))
    (ho : created o = []) (hret : ∀ σ, returnedTrue cfg σ o = if cfg.owner c = σ then t else 0) :
    Account (tr ++ o) s' := by
  have hself : s'.ring.cons c = x' ∧ s'.calls c = k' := by
    rw [hcons, hcalls, Function.update_self, Function.update_self]
    exact ⟨rfl, rfl⟩
  have hother : ∀ c', c' ≠ c → s'.ring.cons c' = s.ring.cons c' ∧ s'.calls c' = s.calls c' := by
    intro c' hne
    rw [hcons, hcalls, Function.update_of_ne hne, Function.update_of_ne hne]
    exact ⟨rfl, rfl⟩
  have hc : created (tr ++ o) = created tr := by rw [created_append, ho, List.append_nil]
  obtain ⟨start, hmem⟩ := (h.known c).2 hpc
  have hstart : start ≤ accounted (s.ring.cons c) (s.calls c) := h.start _ hmem
  -- the two sums move with the counters
  have hsum : ∀ σ, accountedAll cfg σ (tr ++ o) s' =
      accountedAll cfg σ tr s + if cfg.owner c = σ then p + q else 0 := by
    intro σ
    have heq := total_add_eq (σ := σ) (x := 0) (y := p + q)
      (F := fun x => accounted (s.ring.cons x.1) (s.calls x.1) - x.2)
      (G := fun x => accounted (s'.ring.cons x.1) (s'.calls x.1) - x.2) h.once hmem
      (by simp only [hself.1, hself.2]; omega)
      fun z _ hne => by simp only [(hother z.1 hne).1, (hother z.1 hne).2]
    unfold accountedAll
    rw [total_append ho, ← heq, ite_self, Nat.add_zero]
  have hcount : ∀ σ, countedAll cfg σ (tr ++ o) s' =
      countedAll cfg σ tr s + if cfg.owner c = σ then p else 0 := by
    intro σ
    have heq := total_add_eq (σ := σ) (x := t) (y := p) (F := fun x => counted (s.calls x.1))
      (G := fun x => counted (s'.calls x.1)) h.once hmem (by simp only [hself.2]; exact hcnt)
      fun z _ hne => by simp only [(hother z.1 hne).2]
    unfold countedAll
    rw [total_append ho, returnedTrue_append, hret σ]
    omega
  refine ⟨by rw [hw]; exact h.write, fun c' => ?_, by rw [hc]; exact h.once, fun c' => ?_, ?_,
    fun σ => ?_, fun σ => ?_, fun σ => ?_⟩
  · by_cases hne : c' = c
    · subst hne
      rw [hself.1, hself.2]
      exact hok
    · rw [(hother c' hne).1, (hother c' hne).2]
      exact h.call c'
  · rw [hc]
    by_cases hne : c' = c
    · subst hne
      rw [hself.1]
      exact iff_of_true ⟨start, hmem⟩ hpc'
    · rw [(hother c' hne).1]
      exact h.known c'
  · rw [hc]
    intro x hx
    have hle := h.start x hx
    by_cases hne : x.1 = c
    · rw [hne] at hle ⊢
      rw [hself.1, hself.2, hacc]
      omega
    · rw [(hother x.1 hne).1, (hother x.1 hne).2]
      exact hle
  · rw [hrec σ, h.received σ, hcount σ]
    unfold u64
    omega
  · rw [hcount σ, hsum σ]
    have := h.le σ
    split <;> omega
  · rw [hdrop σ, h.dropped σ, hcount σ, hsum σ]
    have := h.le σ
    unfold u64
    split <;> omega

omit [DecidableEq C] in
theorem total_cursor {c : C} {pos : Nat} {F G : C × Nat → Nat} (hself : G (c, pos) = 0)
    (hother : ∀ z ∈ created tr, G z = F z) :
    total cfg σ (tr ++ [.ring (.cursor c pos)]) G = total cfg σ tr F := by
  have hmap : ((created tr).filter fun x => cfg.owner x.1 = σ).map G =
      ((created tr).filter fun x => cfg.owner x.1 = σ).map F :=
    List.map_congr_left fun z hz => hother z (List.mem_filter.1 hz).1
  have hone : created [(.ring (.cursor c pos) : Event cfg.lay ι C)] = [(c, pos)] := rfl
  unfold total
  rw [created_append, List.filter_append, List.map_append, List.sum_append, hmap, hone]
  by_cases hσ : cfg.owner c = σ <;> simp [hσ, hself]

omit [DecidableEq S] [DecidableEq C] in
theorem CallOk.idle_of_none {x : Consumer cfg.lay.slotSize Byte} {k : Call cfg.lay D} (h : CallOk x k)
    (hx : x.pc = .none) : k.pc = .idle := by
  obtain ⟨-, h⟩ := h
  cases hk : k.pc with
  | idle => rfl
  | popping => simp [hk, PopOk, hx] at h
  | addDropped | addReceived | loadLatency | storeLatency => simp [hk, hx] at h

theorem Account.makeCursor {c : C} {pos : Nat} {out : cfg.lay.Rep} (h : Account tr s)
    (hc : s.ring.cons c = ⟨pos, out, .none⟩) :
    Account (tr ++ [.ring (.cursor c s.ring.writePos)])
      { s with ring := s.ring.setCons c ⟨s.ring.writePos, out, .idle⟩ } := by
  have hidle : (s.calls c).pc = .idle := (h.call c).idle_of_none (by rw [hc])
  have hfresh : ∀ x ∈ created tr, x.1 ≠ c := by
    rintro x hx rfl
    exact (h.known x.1).1 ⟨x.2, hx⟩ (by rw [hc])
  have hself : (s.ring.setCons c ⟨s.ring.writePos, out, .idle⟩).cons c =
      ⟨s.ring.writePos, out, .idle⟩ := State.setCons_self _ _ _
  have hother : ∀ c', c' ≠ c → (s.ring.setCons c ⟨s.ring.writePos, out, .idle⟩).cons c' =
      s.ring.cons c' := fun c' hne => State.setCons_of_ne hne
  have hacc : accounted (⟨s.ring.writePos, out, .idle⟩ : Consumer cfg.lay.slotSize Byte) (s.calls c) =
      s.ring.writePos := by
    unfold accounted
    rw [hidle]
  have hsum : ∀ σ, accountedAll cfg σ (tr ++ [.ring (.cursor c s.ring.writePos)])
      { s with ring := s.ring.setCons c ⟨s.ring.writePos, out, .idle⟩ } = accountedAll cfg σ tr s := by
    intro σ
    refine total_cursor ?_ fun z hz => ?_
    · simp only [hself, hacc, Nat.sub_self]
    · simp only [hother z.1 (hfresh z hz)]
  have hcnt : ∀ σ, countedAll cfg σ (tr ++ [.ring (.cursor c s.ring.writePos)])
      { s with ring := s.ring.setCons c ⟨s.ring.writePos, out, .idle⟩ } = countedAll cfg σ tr s := by
    intro σ
    unfold countedAll
    rw [returnedTrue_append, total_cursor (F := fun x => counted (s.calls x.1)) ?_ fun _ _ => rfl]
    · rfl
    · simp [counted, hidle]
  have hcr : created (tr ++ [.ring (.cursor c s.ring.writePos)]) =
      created tr ++ [(c, s.ring.writePos)] := created_append
  refine ⟨h.write, fun c' => ?_, ?_, fun c' => ?_, ?_, fun σ => ?_, fun σ => ?_, fun σ => ?_⟩
  · by_cases hne : c' = c
    · subst hne
      simp only [hself]
      refine ⟨h.write, ?_⟩
      rw [hidle]
      exact .inr rfl
    · simp only [hother c' hne]
      exact h.call c'
  · rw [hcr, List.map_append, List.map_singleton, List.nodup_append]
    refine ⟨h.once, List.nodup_singleton _, ?_⟩
    intro a ha b hb heq
    obtain ⟨x, hx, rfl⟩ := List.mem_map.1 ha
    exact hfresh x hx (heq.trans (List.mem_singleton.1 hb))
  · rw [hcr]
    by_cases hne : c' = c
    · subst hne
      simp only [hself]
      exact iff_of_true ⟨s.ring.writePos, by simp⟩ (by simp)
    · simp only [hother c' hne, ← h.known c']
      simp [hne]
  · rw [hcr]
    intro x hx
    rcases List.mem_append.1 hx with hx | hx
    · simp only [hother x.1 (hfresh x hx)]
      exact h.start x hx
    · obtain rfl := List.mem_singleton.1 hx
      simp only [hself, hacc]
      exact Nat.le_refl _
  · rw [hcnt]; exact h.received σ
  · rw [hcnt, hsum]; exact h.le σ
  · rw [hcnt, hsum]; exact h.dropped σ

omit [DecidableEq C] in
theorem received_mod (h : Account tr s) (σ : S) : (s.stats σ).received = u64 ((s.stats σ).received + 0) := by
  rw [h.received σ]
  unfold u64
  omega

omit [DecidableEq C] in
theorem dropped_mod (h : Account tr s) (σ : S) : (s.stats σ).dropped = u64 ((s.stats σ).dropped + 0) := by
  rw [h.dropped σ]
  unfold u64
  omega

/-- A step of a call that leaves the statistics and the accounted position alone. -/
theorem Account.quiet {c : C} {x' : Consumer cfg.lay.slotSize Byte} {k' : Call cfg.lay D}
    (h : Account tr s) (hw : s'.ring.writePos = s.ring.writePos)
    (hcons : s'.ring.cons = Function.update s.ring.cons c x')
    (hcalls : s'.calls = Function.update s.calls c k') (hstats : s'.stats = s.stats)
    (hpc : (s.ring.cons c).pc ≠ .none) (hpc' : x'.pc ≠ .none) (hok : CallOk x' k')
    (hacc : accounted x' k' = accounted (s.ring.cons c) (s.calls c))
    (hcnt : counted k' = counted (s.calls c)) (ho : created o = [])
    (hret : ∀ σ, returnedTrue cfg σ o = 0) : Account (tr ++ o) s' := by
  refine h.cursor (p := 0) (q := 0) (t := 0) hw hcons hcalls hpc hpc' hok hacc hcnt ?_ ?_ ho ?_
  all_goals intro σ
  · rw [hstats, ite_self]; exact received_mod h σ
  · rw [hstats, ite_self]; exact dropped_mod h σ
  · rw [hret, ite_self]

/-- An access of a call to the statistics of its subscriber. -/
theorem Account.count {c : C} {k' : Call cfg.lay D} {st : Stats D} {p q t : Nat} (h : Account tr s)
    (hring : s'.ring = s.ring) (hcalls : s'.calls = Function.update s.calls c k')
    (hstats : s'.stats = Function.update s.stats (cfg.owner c) st)
    (hidle : (s.ring.cons c).pc = .idle) (hok : CallOk (s.ring.cons c) k')
    (hacc : accounted (s.ring.cons c) k' = accounted (s.ring.cons c) (s.calls c) + (p + q))
    (hcnt : counted k' + t = counted (s.calls c) + p)
    (hrec : st.received = u64 ((s.stats (cfg.owner c)).received + p))
    (hdrop : st.dropped = u64 ((s.stats (cfg.owner c)).dropped + q))
    (ho : created o = []) (hret : ∀ σ, returnedTrue cfg σ o = if cfg.owner c = σ then t else 0) :
    Account (tr ++ o) s' := by
  have hsame : s'.ring.cons = Function.update s.ring.cons c (s.ring.cons c) := by
    rw [hring, Function.update_eq_self]
  refine h.cursor (by rw [hring]) hsame hcalls (by rw [hidle]; simp) (by rw [hidle]; simp) hok hacc hcnt
    (fun σ => ?_) (fun σ => ?_) ho hret
  all_goals
    rw [hstats]
    by_cases hσ : cfg.owner c = σ
  · subst hσ
    rw [Function.update_self, if_pos rfl]
    exact hrec
  · rw [Function.update_of_ne (Ne.symm hσ), if_neg hσ]
    exact received_mod h σ
  · subst hσ
    rw [Function.update_self, if_pos rfl]
    exact hdrop
  · rw [Function.update_of_ne (Ne.symm hσ), if_neg hσ]
    exact dropped_mod h σ

omit [DecidableEq S] [DecidableEq C] in
theorem CallOk.popOk {x : Consumer cfg.lay.slotSize Byte} {k : Call cfg.lay D} (h : CallOk x k)
    (h1 : x.pc ≠ .none) (h2 : x.pc ≠ .idle) : k.pc = .popping ∧ PopOk x k.prePos := by
  obtain ⟨-, h⟩ := h
  cases hk : k.pc with
  | idle => simp [hk, h1, h2] at h
  | popping =>
    rw [hk] at h
    exact ⟨rfl, h⟩
  | addDropped | addReceived | loadLatency | storeLatency => simp [hk, h2] at h

omit [DecidableEq S] [DecidableEq C] in
/-- An access in the middle of `pop`, in a call whose slot is not overwritten once it is
fast-forwarded. -/
theorem PopOk.access {a : Act cfg.lay ι L C} {c : C} {b : PopAct cfg.lay.slotSize Byte}
    {x : Consumer cfg.lay.slotSize Byte} {o : List (SpmcRing.Event Unit C cfg.lay.slotSize Byte)}
    (h : PopOk (s.ring.cons c) (s.calls c).prePos) (ha : Access a c b)
    (hok : Forwarded s c → Held cfg.cap s.ring (s.ring.cons c).pos)
    (hx : PopMove cfg.cap s.ring.writePos s.ring.slots c (s.ring.cons c) b x o) :
    PopOk x (s.calls c).prePos ∧ x.pc ≠ .none ∧ o = [] ∧ (x.pos ≤ (s.ring.cons c).pos + 1) ∧
      (s.ring.cons c).pos + 1 < 2 ^ 64 := by
  obtain ⟨hle, hpc⟩ := h
  unfold Forwarded Held at hok
  cases ha with
  | check =>
    generalize s.ring.cons c = y at *
    cases hx with
    | notReady pos out hne =>
      have heq : pos = (s.calls c).prePos := not_not.1 fun h1 => hne (hok ⟨rfl, h1⟩).1
      exact ⟨⟨hle, heq⟩, by simp, rfl, Nat.le_succ _, hpc⟩
    | isReady pos out heq => exact ⟨⟨hle, hpc⟩, by simp, rfl, Nat.le_succ _, hpc⟩
  | read i =>
    generalize s.ring.cons c = y at *
    cases hx
    exact ⟨⟨hle, hpc⟩, by simp, rfl, Nat.le_succ _, hpc⟩
  | recheck =>
    generalize s.ring.cons c = y at *
    cases hx with
    | torn pos out copied hall hne =>
      have heq : pos = (s.calls c).prePos := not_not.1 fun h1 => hne (hok ⟨rfl, h1⟩).1
      exact ⟨⟨hle, heq⟩, by simp, rfl, Nat.le_succ _, hpc⟩
    | taken pos out copied hall heq =>
      have hlt : pos + 1 < 2 ^ 64 := hpc
      have hle : (s.calls c).prePos ≤ pos := hle
      rw [u64_of_lt hlt]
      exact ⟨⟨Nat.le_succ_of_le hle, Nat.lt_succ_of_le hle⟩, by simp, rfl, Nat.le_refl _, hlt⟩

omit [DecidableEq C] in
theorem Account.of_ret {c : C} {pos : Nat} {out : cfg.lay.Rep} {ok : Bool} (h : Account tr s)
    (hc : s.ring.cons c = ⟨pos, out, .ret ok⟩) :
    (s.calls c).pc = .popping ∧ pos < 2 ^ 64 ∧
      if ok then (s.calls c).prePos < pos else pos = (s.calls c).prePos := by
  have hok := h.call c
  rw [hc] at hok
  obtain ⟨hpop, -, hpc⟩ := hok.popOk (by simp) (by simp)
  refine ⟨hpop, hok.1, ?_⟩
  cases ok <;> exact hpc

/-- The load of `write_pos` accounts for nothing: the positions skipped by the fast-forward are
counted after `pop`. -/
theorem Account.tryReceive {c : C} {hdr : IPCHeader} {p : cfg.lay.Item}
    {x : Consumer cfg.lay.slotSize Byte} (h : Account tr s) (hpc : (s.calls c).pc = .idle)
    (hx : PopMove cfg.cap s.ring.writePos s.ring.slots c (s.ring.cons c) (.pop (emptySlot cfg.lay)) x
      ([] : List (SpmcRing.Event Unit C cfg.lay.slotSize Byte))) :
    Account (tr ++ []) (State.setCall { s with ring := s.ring.setCons c x } c
      ⟨(s.ring.cons c).pos, hdr, p, .popping⟩) := by
  have hw := h.write
  obtain ⟨hlt, -⟩ := h.call c
  generalize hy : s.ring.cons c = y at hx hlt
  cases hx with
  | nothingNew pos old _ hle =>
    refine h.quiet rfl rfl rfl rfl (by rw [hy]; simp) (by simp) ⟨hlt, Nat.le_refl _, rfl⟩ ?_ ?_ rfl
      fun σ => rfl
    · simp [accounted, hpc, hy]
    · simp [counted, hpc]
  | forward pos old _ hlt' =>
    have hff := fastForward_lt cfg.cap hlt'
    refine h.quiet rfl rfl rfl rfl (by rw [hy]; simp) (by simp)
      ⟨?_, le_fastForward cfg.cap s.ring.writePos pos, ?_⟩ ?_ ?_ rfl fun σ => rfl
    · show fastForward cfg.cap s.ring.writePos pos < 2 ^ 64
      omega
    · show fastForward cfg.cap s.ring.writePos pos + 1 < 2 ^ 64
      omega
    · simp [accounted, hpc, hy]
    · simp [counted, hpc]

variable [DecidableEq ι] [DecidableEq L]

theorem Account.step {a : Act cfg.lay ι L C} (h : Account tr s) (hkept : Kept s)
    (hs : step s a = some (s', o)) : Account (tr ++ o) s' := by
  have hring : ∀ (o' : List (SpmcRing.Event Unit C cfg.lay.slotSize Byte)) σ,
      returnedTrue cfg σ (o'.map .ring) = 0 := fun o' σ => returnedTrue_map o' fun _ => rfl
  have hw := h.write
  cases move_of_step hs with
  | publish item ts l r o' ha hr =>
    cases hr
    refine h.congr ?_ rfl rfl rfl rfl (hring _)
    exact Nat.mod_lt _ (Nat.two_pow_pos 64)
  | push b r o' hb hr =>
    have hret := hring o'
    cases hr with
    | claim item => exact absurd rfl (hb item)
    | mark | word | ready | beat => exact h.congr hw rfl rfl rfl rfl hret
  | loans x l o' ha hx =>
    exact h.congr hw rfl rfl rfl (filterMap_map_eq_nil (fun _ => rfl) o') fun σ =>
      returnedTrue_map o' fun _ => rfl
  | makeCursor c pos out hc => exact h.makeCursor hc
  | tryReceive c hdr p x o' hpc hx =>
    obtain rfl : o' = [] := by
      generalize s.ring.cons c = y at hx
      cases hx <;> rfl
    exact h.tryReceive hpc hx
  | access c b x o' ha hx =>
    obtain ⟨h1, h2⟩ := pc_of_access ha hx
    obtain ⟨hpop, hpopOk⟩ := (h.call c).popOk h1 h2
    obtain ⟨hnew, hpc', rfl, hle, hlt⟩ := hpopOk.access ha (hkept.held c) hx
    have hsame : s.calls = Function.update s.calls c (s.calls c) := (Function.update_eq_self _ _).symm
    refine h.quiet rfl rfl hsame rfl h1 hpc' ⟨?_, ?_⟩ ?_ rfl rfl (hring [])
    · omega
    · rw [hpop]; exact hnew
    · simp [accounted, hpop]
  | failed c pos out hc =>
    obtain ⟨hpop, hlt, hpos⟩ := h.of_ret hc
    refine h.quiet rfl rfl rfl rfl (by rw [hc]; simp) (by simp) ⟨hlt, .inr rfl⟩ ?_ ?_ rfl fun σ => rfl
    · have hpos : pos = (s.calls c).prePos := hpos
      simp [accounted, hpop, hpos]
    · simp [counted, hpop]
  | skipped c pos out hc hgt =>
    obtain ⟨hpop, hlt, hpre⟩ := h.of_ret hc
    have hpre : (s.calls c).prePos < pos := hpre
    rw [u64_of_lt (by omega)] at hgt
    refine h.quiet rfl rfl rfl rfl (by rw [hc]; simp) (by simp) ⟨hlt, rfl, hgt⟩ ?_ ?_ rfl fun σ => rfl
    · simp [accounted, hpop]
    · simp [counted, hpop]
  | next c pos out hc hle =>
    obtain ⟨hpop, hlt, hpre⟩ := h.of_ret hc
    have hpre : (s.calls c).prePos < pos := hpre
    rw [u64_of_lt (by omega)] at hle
    refine h.quiet rfl rfl rfl rfl (by rw [hc]; simp) (by simp) ⟨hlt, rfl, ?_⟩ ?_ ?_ rfl fun σ => rfl
    · exact Nat.lt_of_le_of_lt (Nat.zero_le _) hpre
    · simp only [accounted, hpop]
      omega
    · simp [counted, hpop]
  | addDropped c hpc =>
    obtain ⟨hlt, hok'⟩ := h.call c
    rw [hpc] at hok'
    obtain ⟨hidle, hgt⟩ := hok'
    refine h.count (p := 0) (q := (s.ring.cons c).pos - (s.calls c).prePos - 1) (t := 0) rfl rfl rfl
      hidle ⟨hlt, hidle, by omega⟩ ?_ ?_ (received_mod h _) rfl rfl fun σ => (ite_self _).symm
    · simp only [accounted, hpc]
      omega
    · simp [counted, hpc]
  | received c now lat hpc =>
    obtain ⟨hlt, hok'⟩ := h.call c
    rw [hpc] at hok'
    obtain ⟨hidle, hpos⟩ := hok'
    refine h.count (p := 1) (q := 0) (t := 0) rfl rfl rfl hidle ⟨hlt, hidle⟩ ?_ ?_ rfl
      (dropped_mod h _) rfl fun σ => (ite_self _).symm
    · simp only [accounted, hpc]
      omega
    · simp [counted, hpc]
  | returned c now hpc =>
    obtain ⟨hlt, hok'⟩ := h.call c
    rw [hpc] at hok'
    obtain ⟨hidle, hpos⟩ := hok'
    refine h.count (p := 1) (q := 0) (t := 1) rfl rfl rfl hidle ⟨hlt, .inr hidle⟩ ?_ ?_ rfl
      (dropped_mod h _) rfl fun σ => returnedTrue_returned s c σ
    · simp only [accounted, hpc]
      omega
    · simp [counted, hpc]
  | loadLatency c lat prev hpc =>
    obtain ⟨hlt, hok'⟩ := h.call c
    rw [hpc] at hok'
    have hsame : s.ring.cons = Function.update s.ring.cons c (s.ring.cons c) :=
      (Function.update_eq_self _ _).symm
    refine h.quiet rfl hsame rfl rfl (by rw [hok']; simp) (by rw [hok']; simp) ⟨hlt, hok'⟩ ?_ ?_ rfl
      fun σ => rfl
    · simp [accounted, hpc]
    · simp [counted, hpc]
  | storeLatency c prev lat avg hpc =>
    obtain ⟨hlt, hok'⟩ := h.call c
    rw [hpc] at hok'
    refine h.count (p := 0) (q := 0) (t := 1) rfl rfl rfl hok' ⟨hlt, .inr hok'⟩ ?_ ?_
      (received_mod h _) (dropped_mod h _) rfl fun σ => returnedTrue_returned s c σ
    · simp [accounted, hpc]
    · simp [counted, hpc]

omit [DecidableEq C] [DecidableEq ι] [DecidableEq L] in
theorem account_init : Account [] (init cfg : State cfg.lay ι L C S D) where
  write := Nat.two_pow_pos 64
  call c := ⟨Nat.two_pow_pos 64, .inl rfl⟩
  once := List.nodup_nil
  known c := iff_of_false (fun ⟨_, h⟩ => by cases h) (fun h => h rfl)
  start x hx := by cases hx
  received σ := rfl
  le σ := Nat.le_refl _
  dropped σ := rfl

theorem account_of_runs (h : (machine cfg).Runs (NotOverwritten cfg) tr s) : Account tr s := by
  have hboth : Account tr s ∧ Kept s := by
    refine h.invariant (I := fun tr s => Account tr s ∧ Kept s) ⟨account_init, kept_of_runs .init⟩ ?_
    rintro tr s a s' o ⟨ha, hk⟩ hok hs
    exact ⟨ha.step hk hs, hk.step hok hs⟩
  exact hboth.1

omit [DecidableEq C] [DecidableEq ι] [DecidableEq L] in
/-- The positions that the cursors of a subscriber have moved, less what the calls in progress have not
counted yet, are its `received` and `dropped` together. -/
theorem Account.sum (h : Account tr s) (σ : S) :
    u64 ((s.stats σ).received + (s.stats σ).dropped) = u64 (accountedAll cfg σ tr s) := by
  have hle := h.le σ
  rw [h.received σ, h.dropped σ]
  unfold u64
  omega

omit [DecidableEq C] [DecidableEq ι] [DecidableEq L] in
theorem accountedAll_of_idle (hidle : ∀ c, cfg.owner c = σ → (s.calls c).pc = .idle) :
    accountedAll cfg σ tr s = moved cfg σ tr s := by
  unfold accountedAll moved total
  refine congrArg List.sum (List.map_congr_left fun x hx => ?_)
  simp [accounted, hidle x.1 (by simpa using (List.mem_filter.1 hx).2)]

omit [DecidableEq C] [DecidableEq ι] [DecidableEq L] in
theorem countedAll_of_idle (hidle : ∀ c, cfg.owner c = σ → (s.calls c).pc = .idle) :
    countedAll cfg σ tr s = returnedTrue cfg σ tr := by
  have hzero : ((created tr).filter fun x => cfg.owner x.1 = σ).map (fun x => counted (s.calls x.1)) =
      ((created tr).filter fun x => cfg.owner x.1 = σ).map fun _ => 0 :=
    List.map_congr_left fun x hx => by
      simp [counted, hidle x.1 (by simpa using (List.mem_filter.1 hx).2)]
  unfold countedAll total
  rw [hzero]
  simp

/-- The step with which a call returns. -/
theorem idle_of_ret {a : Act cfg.lay ι L C} {c : C} {ok : Bool} {pos : Nat} {header : IPCHeader}
    {payload : cfg.lay.Item} (hs : step s a = some (s', o)) (hret : .ret c ok pos header payload ∈ o) :
    a.cursor = some c ∧ (s'.calls c).pc = .idle := by
  cases move_of_step hs with
  | publish | push | loans | tryReceive | access => simp at hret
  | makeCursor | skipped | next => simp at hret
  | addDropped | received | loadLatency => cases hret
  | failed c' | returned c' | storeLatency c' =>
    obtain rfl : c = c' := by
      simp only [State.returned, List.mem_cons, reduceCtorEq, Event.ret.injEq, List.not_mem_nil, or_false,
        false_or] at hret
      exact hret.1
    exact ⟨rfl, by simp [State.setPc, State.setCall]⟩

omit [DecidableEq S] [DecidableEq C] [DecidableEq ι] [DecidableEq L] in
theorem exists_ret {c : C} (h : some c ∈ o.map Event.cursor) :
    ∃ ok pos header payload, .ret c ok pos header payload ∈ o := by
  obtain ⟨e, he, hcursor⟩ := List.mem_map.1 h
  cases e with
  | ret c' ok pos header payload =>
    obtain rfl : c' = c := Option.some.inj hcursor
    exact ⟨ok, pos, header, payload, he⟩
  | ring | loans | publish => cases hcursor

/-- In every run in which the publisher marks no slot busy that a call has been fast-forwarded to: after
every return of a call, when no other call on a cursor of its subscriber is in progress, `received` and
`dropped` add up to the distance the cursors of the subscriber have moved since they were created, and
`received` is the number of calls that returned true. The counters are of 64 bits and so is their
sum. -/
theorem stats_account_for_positions (cfg : Config ι C S D) (tr : List (Event cfg.lay ι C))
    (s : State cfg.lay ι L C S D) (h : (machine cfg).Runs (NotOverwritten cfg) tr s)
    (a : Act cfg.lay ι L C) (s' : State cfg.lay ι L C S D) (o : List (Event cfg.lay ι C))
    (hs : (machine cfg).step s a = some (s', o)) (c : C) (ok : Bool) (pos : Nat) (header : IPCHeader)
    (payload : cfg.lay.Item) (hret : .ret c ok pos header payload ∈ o)
    (halone : ∀ c', c' ≠ c → cfg.owner c' = cfg.owner c → (s.calls c').pc = .idle) :
    u64 ((s'.stats (cfg.owner c)).received + (s'.stats (cfg.owner c)).dropped) =
      u64 (moved cfg (cfg.owner c) (tr ++ o) s') ∧
    (moved cfg (cfg.owner c) (tr ++ o) s' < 2 ^ 64 →
      (s'.stats (cfg.owner c)).received + (s'.stats (cfg.owner c)).dropped =
        moved cfg (cfg.owner c) (tr ++ o) s') ∧
    (s'.stats (cfg.owner c)).received = u64 (returnedTrue cfg (cfg.owner c) (tr ++ o)) := by
  obtain ⟨hcur, hself⟩ := idle_of_ret hs hret
  have hidle : ∀ c', cfg.owner c' = cfg.owner c → (s'.calls c').pc = .idle := by
    intro c' hown
    by_cases hne : c' = c
    · rw [hne]
      exact hself
    · have hcalls := (other_of_move (c := c') (move_of_step hs) (by rw [hcur]; simpa using Ne.symm hne)).2
      rw [hcalls]
      exact halone c' hne hown
  have ha : Account (tr ++ o) s' := (account_of_runs h).step (kept_of_runs h) hs
  rw [← accountedAll_of_idle hidle, ← countedAll_of_idle hidle]
  refine ⟨ha.sum _, fun hlt => ?_, ha.received _⟩
  have hle := ha.le (cfg.owner c)
  rw [ha.received, ha.dropped, u64_of_lt (by omega), u64_of_lt (by omega)]
  omega

set_option maxRecDepth 8000 in
/-- Three messages are published; a call on the first cursor is fast-forwarded to the second of them,
while the publisher claims a fourth position and marks its slot busy only after the call has loaded the
sequence again. Then a call on the second cursor receives the third message. -/
theorem stats_account_for_positions_two_cursors :
    ∃ (tr : List (Event tinyPair.lay Unit Bool)) (s s' : State tinyPair.lay Unit Unit Bool Unit Unit)
      (o : List (Event tinyPair.lay Unit Bool)), (machine tinyPair).Runs (NotOverwritten tinyPair) tr s ∧
      (machine tinyPair).step s (.addReceived false 7) = some (s', o) ∧
      moved tinyPair () (tr ++ o) s' = 5 ∧ returnedTrue tinyPair () (tr ++ o) = 2 ∧
      (s'.stats ()).received = 2 ∧ (s'.stats ()).dropped = 3 := by
  let M : Machine (State tinyPair.lay Unit Unit Bool Unit Unit) (Act tinyPair.lay Unit Unit Bool)
    (Event tinyPair.lay Unit Bool) := machine tinyPair
  let acts : List (Act tinyPair.lay Unit Unit Bool) :=
    [Act.makeCursor true, .makeCursor false] ++ tinyPublish 1 ++ tinyPublish 2 ++ tinyPublish 3 ++
      [Act.tryReceive true .default fun _ => 0] ++ (tinyPublish 4).take 1 ++ tinyRead true ++ tinyPush ++
      [Act.addDropped true, .addReceived true 7] ++ tinyPop false ++ [Act.addDropped false]
  have hexec : ((M.restrict fun s a => decide (NotOverwritten tinyPair [] s a)).exec M.init acts).map
      (fun r => ((r.1.calls true).pc, (M.step r.1 (.addReceived false 7)).map fun q =>
        (q.2.map Event.cursor, moved tinyPair () (r.2 ++ q.2) q.1, returnedTrue tinyPair () (r.2 ++ q.2)))) =
      some (.idle, some ([some false], 5, 2)) := by decide +kernel
  obtain ⟨tr, s, hr, hend⟩ := Machine.Runs.exists_of_restrict (NotOverwritten tinyPair)
    (fun _ _ _ h => of_decide_eq_true h) hexec
  obtain ⟨hidle, hlast⟩ := Prod.mk.inj hend
  obtain ⟨⟨s', o⟩, hs, heq⟩ := Option.map_eq_some_iff.1 hlast
  simp only [Prod.mk.injEq] at heq
  obtain ⟨ho, hmoved, htrue⟩ := heq
  obtain ⟨ok, pos, header, payload, hret⟩ := exists_ret (c := false) (o := o) (by rw [ho]; simp)
  have hothers : ∀ c', c' ≠ false → tinyPair.owner c' = tinyPair.owner false → (s.calls c').pc = .idle := by
    intro c' hne _
    rw [Bool.eq_true_of_not_eq_false hne]
    exact hidle
  obtain ⟨-, hsum, hrec⟩ := stats_account_for_positions tinyPair tr s hr (.addReceived false 7) s' o hs
    false ok pos header payload hret hothers
  have hsum : moved tinyPair () (tr ++ o) s' < 2 ^ 64 → (s'.stats ()).received + (s'.stats ()).dropped =
    moved tinyPair () (tr ++ o) s' := hsum
  have hrec : (s'.stats ()).received = u64 (returnedTrue tinyPair () (tr ++ o)) := hrec
  rw [htrue] at hrec
  have hadd := hsum (by rw [hmoved]; decide)
  rw [hmoved, hrec] at hadd
  exact ⟨tr, s, s', o, hr, hs, hmoved, htrue, hrec, Nat.add_left_cancel hadd⟩

set_option maxRecDepth 8000 in
/-- Three messages are published; a call fast-forwards past the first of them, and then finds the slot
of the second already taken by the fourth. It returns false, the cursor has moved by one position, and
nothing is counted. -/
theorem fast_forward_not_counted :
    ∃ (tr : List (Event tiny.lay Unit Unit)) (s : State tiny.lay Unit Unit Unit Unit Unit),
      (machine tiny).Runs Machine.free tr s ∧
      tr.getLast? = some (.ret () false 1 .default fun _ => 0) ∧ (s.calls ()).pc = .idle ∧
      moved tiny () tr s = 1 ∧ (s.stats ()).received + (s.stats ()).dropped = 0 := by
  let M : Machine (State tiny.lay Unit Unit Unit Unit Unit) (Act tiny.lay Unit Unit Unit)
    (Event tiny.lay Unit Unit) := machine tiny
  let acts : List (Act tiny.lay Unit Unit Unit) :=
    [Act.makeCursor ()] ++ tinyPublish 1 ++ tinyPublish 2 ++ tinyPublish 3 ++
      [Act.tryReceive () .default fun _ => 0] ++ (tinyPublish 4).take 2 ++ [Act.check (), .popped ()]
  have hexec : (M.exec M.init acts).map (fun r => (r.2.getLast?, (r.1.calls ()).pc,
      moved tiny () r.2 r.1, (r.1.stats ()).received + (r.1.stats ()).dropped)) =
        some (some (.ret () false 1 .default fun _ => 0), .idle, 1, 0) := by decide +kernel
  obtain ⟨tr, s, hr, hend⟩ := Machine.Runs.exists_of_exec hexec
  simp only [Prod.mk.injEq] at hend
  exact ⟨tr, s, hr, hend⟩

end Lwipc.Channel
