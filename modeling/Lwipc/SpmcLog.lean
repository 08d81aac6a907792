import Lwipc.Lib.Log
import Lwipc.ShmRingBuffer
import Lwipc.IntraRingBuffer

/-!
# Both rings are logs of their latest items

Used by one thread, or by several that wait for each other's calls to end, `ShmRingBuffer` and
`IntraRingBuffer` are the log of everything pushed, of which a cursor gets the last `Capacity` items:
a state in which no call is in progress represents a log (`Represents`), and every call carries out
the command of its log (`Call.refines`).
-/

namespace Lwipc.SpmcRing

variable {P C : Type} {n : Nat} {W : Type} {beats : Bool} {cap : Capacity} {s s' : State P C n W}
  {op : Op P C n W} {ops : List (Op P C n W)} {r : Option (Fin n → W)} {rs : List (Option (Fin n → W))}
  {l : Log C (Fin n → W)}

/-- The command of the log that a call carries out. -/
def Op.cmd : Op P C n W → Log.Cmd C (Fin n → W)
  | .push _ item => .put item
  | .cursor c pos => .place c pos
  | .pop c => .take c

/-- The items that these calls push. -/
def pushed (ops : List (Op P C n W)) : List (Fin n → W) :=
  ops.filterMap fun | .push _ item => some item | _ => none

/-- A `pop` needs one of the cursors `made` so far, and a cursor does not start ahead of `write_pos`. -/
def Op.allowed [DecidableEq C] (w : Nat) (made : List C) : Op P C n W → Bool
  | .push _ _ => true
  | .cursor _ pos => pos ≤ w
  | .pop c => c ∈ made

def Op.makes (made : List C) : Op P C n W → List C
  | .cursor c _ => c :: made
  | _ => made

/-- The calls a program may make when `w` items have been pushed and the cursors `made` exist. -/
def valid [DecidableEq C] (w : Nat) (made : List C) : List (Op P C n W) → Bool
  | [] => true
  | op :: ops => op.allowed w made && valid (w + (pushed [op]).length) (op.makes made) ops

/-- What these calls, with these results, delivered to cursor `c`: an item for each `pop` that returned
true and `none` for each that returned false. -/
def gets [DecidableEq C] (c : C) (ops : List (Op P C n W)) (rs : List (Option (Fin n → W))) :
    List (Option (Fin n → W)) :=
  Log.delivered c (ops.map Op.cmd) rs

/-- `M` keeps the log of its latest `Capacity` items, as complete calls see it. -/
structure IsLatestLog [DecidableEq C] (cap : Capacity)
    (M : Machine (State P C n W) (Act P C n W) (Event P C n W)) : Prop where
  /-- calls that a program may make can be carried out -/
  completes : ∀ ops, (pushed ops).length < 2 ^ 63 → valid 0 [] ops = true →
    ∃ s rs, Calls M M.init ops s rs
  /-- and do what the log does -/
  refines : ∀ ops s rs, (pushed ops).length < 2 ^ 63 → Calls M M.init ops s rs →
    s.writePos = (pushed ops).length ∧ rs = (Log.empty.run cap.val (ops.map Op.cmd)).2 ∧
      ∀ c, (s.cons c).pos = (Log.empty.run cap.val (ops.map Op.cmd)).1.cursor c
  /-- one `pop` -/
  pop : ∀ ops s rs c s' r, (pushed ops).length < 2 ^ 63 → Calls M M.init ops s rs →
    Call M s (.pop c) s' r →
      (r.isSome = true ↔ (s.cons c).pos < (pushed ops).length) ∧
      ((s.cons c).pos < (pushed ops).length →
        r = (pushed ops)[max (s.cons c).pos ((pushed ops).length - cap.val)]? ∧
        (s'.cons c).pos = max (s.cons c).pos ((pushed ops).length - cap.val) + 1) ∧
      ((pushed ops).length ≤ (s.cons c).pos → (s'.cons c).pos = (s.cons c).pos)
  /-- `pop` until it returns false -/
  drain : ∀ ops s rs c, (pushed ops).length < 2 ^ 63 → Calls M M.init ops s rs →
    (s.cons c).pc = .idle →
      (∃ (xs : List (Fin n → W)) (s' : _),
        Calls M s (List.replicate (xs.length + 1) (.pop c)) s' (xs.map some ++ [none])) ∧
      ∀ (xs : List (Fin n → W)) (s' : _), Calls M s (List.replicate (xs.length + 1) (.pop c)) s' (xs.map some ++ [none]) →
        xs = (pushed ops).rtake (min cap.val ((pushed ops).length - (s.cons c).pos)) ∧
        (s'.cons c).pos = s'.writePos ∧ s'.writePos = s.writePos
  /-- calls on other cursors change nothing for `c` -/
  independent : ∀ ops ops' s s' rs rs' c, (pushed ops).length < 2 ^ 63 → (pushed ops').length < 2 ^ 63 →
    Calls M M.init ops s rs → Calls M M.init ops' s' rs' →
    (ops.map Op.cmd).filter (Log.Cmd.concerns c) = (ops'.map Op.cmd).filter (Log.Cmd.concerns c) →
      gets c ops rs = gets c ops' rs'

/-- No call is in progress in `s`, and `s` represents `l`. -/
structure Represents (cap : Capacity) (s : State P C n W) (l : Log C (Fin n → W)) : Prop where
  rest : AtRest s
  inv : ∃ tr, Inv cap tr s ∧ claims tr = l.items
  cursor : ∀ c, (s.cons c).pos = l.cursor c

theorem Represents.writePos (h : Represents cap s l) : s.writePos = l.items.length := by
  obtain ⟨tr, hi, hcl⟩ := h.inv
  rw [hi.write, hcl]

theorem Represents.cursor_le (h : Represents cap s l) (c : C) : l.cursor c ≤ l.items.length := by
  obtain ⟨tr, hi, -⟩ := h.inv
  rw [← h.cursor c, ← h.writePos]
  exact (hi.cons c).1

theorem fastForward_eq_max (cap : Capacity) (w pos : Nat) :
    fastForward cap w pos = max pos (w - cap.val) := by
  unfold fastForward
  split <;> omega

section
variable [DecidableEq P] [DecidableEq C] [Inhabited W]

omit [DecidableEq P] [DecidableEq C] in
theorem represents_init : Represents cap (init : State P C n W) .empty :=
  ⟨⟨fun _ => rfl, fun _ => .inl rfl⟩, ⟨[], inv_init, rfl⟩, fun _ => rfl⟩

omit [DecidableEq P] [Inhabited W] in
/-- A cursor at rest is where the log has it. -/
theorem Represents.setCons {c : C} {pos : Nat} {out : Fin n → W} (h : Represents cap s l)
    (hle : pos ≤ s.writePos) : Represents cap (s.setCons c ⟨pos, out, .idle⟩) (l.moveTo c pos) := by
  obtain ⟨tr, hi, hcl⟩ := h.inv
  refine ⟨h.rest.setCons_idle, ⟨tr, hi.setCons_idle hle, hcl⟩, fun c' => ?_⟩
  by_cases hc : c' = c
  · subst hc
    rw [State.setCons_self, Log.cursor_moveTo_self]
  · rw [State.setCons_of_ne hc, Log.cursor_moveTo_of_ne hc]
    exact h.cursor c'

theorem Call.refines (h : Represents cap s l) (hb : (l.items ++ pushed [op]).length < 2 ^ 63)
    (hcall : Call (machine beats cap) s op s' r) :
    r = (l.step cap.val op.cmd).2 ∧ Represents cap s' (l.step cap.val op.cmd).1 := by
  obtain ⟨tr, hi, hcl⟩ := h.inv
  rw [List.length_append] at hb
  cases op with
  | push p item =>
    obtain ⟨rfl, hrest, hcons, o, hi', ho⟩ := hcall.push_spec hi h.rest (by rw [hcl]; exact hb)
    refine ⟨rfl, hrest, ⟨tr ++ o, hi', ?_⟩, fun c => ?_⟩
    · rw [claims_append, ho, hcl]
      rfl
    · rw [hcons]
      exact h.cursor c
  | cursor c pos =>
    cases hcall with
    | cursor hc hle => exact ⟨rfl, h.setCons hle⟩
  | pop c =>
    have hw := h.writePos
    have hlen : (claims tr).length < 2 ^ 63 := by
      rw [hcl]
      omega
    obtain ⟨hidle, pos', out', rfl, hpop⟩ := hcall.pop_spec hi h.rest hlen
    rw [h.cursor c, hw, fastForward_eq_max, hcl] at hpop
    rcases hpop with ⟨hlt, rfl, rfl, hitem⟩ | ⟨hle, rfl, rfl⟩
    · rw [Op.cmd, Log.step_take_of_lt hlt]
      have hcap := cap.pos
      exact ⟨hitem.symm, h.setCons (by omega)⟩
    · rw [Op.cmd, Log.step_take_of_le hle]
      have hsame : Represents cap (s.setCons c ⟨l.cursor c, out', .idle⟩) (l.moveTo c (l.cursor c)) :=
        h.setCons (by rw [hw]; exact h.cursor_le c)
      rw [Log.moveTo_cursor] at hsame
      exact ⟨rfl, hsame⟩

omit [DecidableEq P] [Inhabited W] in
theorem items_step (k : Nat) : (l.step k op.cmd).1.items = l.items ++ pushed [op] := by
  cases op with
  | push => rfl
  | cursor => exact (List.append_nil _).symm
  | pop c =>
    rw [Op.cmd, Log.items_take]
    exact (List.append_nil _).symm

omit [DecidableEq P] [DecidableEq C] [Inhabited W] in
theorem pushed_cons (op : Op P C n W) (ops : List (Op P C n W)) :
    pushed (op :: ops) = pushed [op] ++ pushed ops := by
  unfold pushed
  rw [← List.filterMap_append, List.singleton_append]

omit [DecidableEq P] [Inhabited W] in
theorem items_run (k : Nat) : (l.run k (ops.map Op.cmd)).1.items = l.items ++ pushed ops := by
  induction ops generalizing l with
  | nil => exact (List.append_nil _).symm
  | cons op ops ih =>
    rw [List.map_cons, Log.run_cons, pushed_cons, ← List.append_assoc, ← items_step k]
    exact ih

theorem Calls.refines (h : Represents cap s l) (hb : (l.items ++ pushed ops).length < 2 ^ 63)
    (hcalls : Calls (machine beats cap) s ops s' rs) :
    rs = (l.run cap.val (ops.map Op.cmd)).2 ∧ Represents cap s' (l.run cap.val (ops.map Op.cmd)).1 := by
  induction hcalls generalizing l with
  | nil => exact ⟨rfl, h⟩
  | @cons s s₁ s' op ops r rs hcall _ ih =>
    rw [pushed_cons, ← List.append_assoc] at hb
    have hb' : (l.items ++ pushed [op]).length < 2 ^ 63 := by
      rw [List.length_append] at hb
      omega
    obtain ⟨rfl, h₁⟩ := hcall.refines h hb'
    rw [← items_step cap.val] at hb
    obtain ⟨rfl, h₂⟩ := ih h₁ hb
    exact ⟨rfl, h₂⟩

omit [DecidableEq P] [Inhabited W] in
theorem allowed_of_valid {made : List C} (h : Represents cap s l)
    (hmade : ∀ c ∈ made, (s.cons c).pc = .idle) (ha : op.allowed l.items.length made = true) :
    op.Allowed s := by
  cases op with
  | push => trivial
  | cursor c pos =>
    show pos ≤ s.writePos
    rw [h.writePos]
    exact of_decide_eq_true ha
  | pop c => exact hmade c (of_decide_eq_true ha)

/-- The cursors made so far are at rest after a call. -/
theorem Call.idle_of_makes {made : List C} (h : Represents cap s l)
    (hb : (l.items ++ pushed [op]).length < 2 ^ 63) (hmade : ∀ c ∈ made, (s.cons c).pc = .idle)
    (hcall : Call (machine beats cap) s op s' r) : ∀ c ∈ op.makes made, (s'.cons c).pc = .idle := by
  obtain ⟨tr, hi, hcl⟩ := h.inv
  rw [← hcl, List.length_append] at hb
  have hset : ∀ c pos out, ∀ c' ∈ c :: made, ((s.setCons c ⟨pos, out, .idle⟩).cons c').pc = .idle := by
    intro c pos out c' hc'
    by_cases heq : c' = c
    · subst heq
      rw [State.setCons_self]
    · rw [State.setCons_of_ne heq]
      exact hmade c' (List.mem_of_ne_of_mem heq hc')
  cases op with
  | push p item =>
    obtain ⟨-, -, hcons, -⟩ := hcall.push_spec hi h.rest hb
    rw [hcons]
    exact hmade
  | cursor c pos =>
    cases hcall with
    | cursor => exact hset c pos _
  | pop c =>
    obtain ⟨-, pos', out', rfl, -⟩ := hcall.pop_spec hi h.rest (by omega)
    exact fun c' hc' => hset c pos' out' c' (List.mem_cons_of_mem _ hc')

/-- Calls that a program may make can be carried out. -/
theorem Calls.exists_of_valid (beats : Bool) {made : List C} (h : Represents cap s l)
    (hmade : ∀ c ∈ made, (s.cons c).pc = .idle) (hb : (l.items ++ pushed ops).length < 2 ^ 63)
    (hv : valid l.items.length made ops = true) :
    ∃ s' rs, Calls (machine beats cap) s ops s' rs := by
  induction ops generalizing s l made with
  | nil => exact ⟨s, [], .nil⟩
  | cons op ops ih =>
    rw [pushed_cons, ← List.append_assoc] at hb
    have hb' : (l.items ++ pushed [op]).length < 2 ^ 63 := by
      rw [List.length_append] at hb
      omega
    obtain ⟨ha, hv'⟩ := Bool.and_eq_true_iff.1 hv
    obtain ⟨s₁, r, hcall⟩ := Call.exists_of_allowed beats cap h.rest (allowed_of_valid h hmade ha)
    obtain ⟨-, h₁⟩ := hcall.refines h hb'
    rw [← List.length_append, ← items_step cap.val] at hv'
    rw [← items_step cap.val] at hb
    obtain ⟨s', rs, hcalls⟩ := ih h₁ (hcall.idle_of_makes h hb' hmade) hb hv'
    exact ⟨s', r :: rs, .cons hcall hcalls⟩

/-! ### The log as its users see it -/

theorem Calls.represents_end (hb : (pushed ops).length < 2 ^ 63)
    (hcalls : Calls (machine beats cap) init ops s rs) :
    rs = (Log.empty.run cap.val (ops.map Op.cmd)).2 ∧
      Represents cap s (Log.empty.run cap.val (ops.map Op.cmd)).1 :=
  hcalls.refines represents_init hb

omit [DecidableEq P] [Inhabited W] in
theorem items_run_empty (k : Nat) : ((Log.empty : Log C (Fin n → W)).run k (ops.map Op.cmd)).1.items = pushed ops :=
  items_run k

omit [DecidableEq P] [DecidableEq C] [Inhabited W] in
theorem pushed_replicate_pop (m : Nat) (c : C) : pushed (List.replicate m (.pop c) : List (Op P C n W)) = [] := by
  unfold pushed
  simp

theorem Call.pop_refines {c : C} (h : Represents cap s l) (hb : l.items.length < 2 ^ 63)
    (hcall : Call (machine beats cap) s (.pop c) s' r) :
    (r.isSome = true ↔ (s.cons c).pos < l.items.length) ∧
    ((s.cons c).pos < l.items.length → r = l.items[max (s.cons c).pos (l.items.length - cap.val)]? ∧
      (s'.cons c).pos = max (s.cons c).pos (l.items.length - cap.val) + 1) ∧
    (l.items.length ≤ (s.cons c).pos → (s'.cons c).pos = (s.cons c).pos) := by
  obtain ⟨hr, h'⟩ := hcall.refines h (by rw [List.length_append]; exact hb)
  have hcap := cap.pos
  rw [h'.cursor c, h.cursor c]
  rcases Nat.lt_or_ge (l.cursor c) l.items.length with hlt | hle
  · rw [Op.cmd, Log.step_take_of_lt hlt] at hr ⊢
    refine ⟨?_, fun _ => ⟨hr, Log.cursor_moveTo_self _⟩, fun h1 => absurd h1 (Nat.not_le.2 hlt)⟩
    have hnext : l.next cap.val c < l.items.length := by
      unfold Log.next
      omega
    rw [hr, List.getElem?_eq_getElem hnext]
    exact ⟨fun _ => hlt, fun _ => rfl⟩
  · rw [Op.cmd, Log.step_take_of_le hle] at hr ⊢
    rw [hr]
    exact ⟨by simp [Nat.not_lt.2 hle], fun h1 => absurd hle (Nat.not_le.2 h1), fun _ => rfl⟩

omit [DecidableEq P] [Inhabited W] in
theorem valid_replicate_pop {made : List C} {c : C} (hc : c ∈ made) (w m : Nat) :
    valid w made (List.replicate m (.pop c) : List (Op P C n W)) = true := by
  induction m with
  | zero => rfl
  | succ m ih =>
    rw [List.replicate_succ, valid]
    exact Bool.and_eq_true_iff.2 ⟨decide_eq_true hc, ih⟩

theorem Calls.drain_refines {c : C} {xs : List (Fin n → W)} (h : Represents cap s l)
    (hb : l.items.length < 2 ^ 63)
    (hcalls : Calls (machine beats cap) s (List.replicate (xs.length + 1) (.pop c)) s'
      (xs.map some ++ [none])) :
    xs = l.items.rtake (min cap.val (l.items.length - (s.cons c).pos)) ∧
      (s'.cons c).pos = s'.writePos ∧ s'.writePos = s.writePos := by
  obtain ⟨hrs, h'⟩ := hcalls.refines h (by rw [pushed_replicate_pop, List.append_nil]; exact hb)
  have hcmds : (List.replicate (xs.length + 1) (.pop c) : List (Op P C n W)).map Op.cmd =
      List.replicate (xs.length + 1) (.take c) := List.map_replicate
  rw [hcmds] at hrs h'
  have hle := h.cursor_le c
  have hxs := Log.run_takes_eq cap.pos hle hrs.symm
  have hlen : xs.length = l.items.length - l.next cap.val c := by
    rw [hxs, ← Log.drop_next hle, List.length_drop]
  have hnext := Log.next_le (k := cap.val) hle
  rw [h'.writePos, h.writePos, h'.cursor c, h.cursor c, Log.items_takes, Log.cursor_takes cap.pos hle]
  exact ⟨hxs, by omega, rfl⟩

theorem Calls.exists_drain (beats : Bool) {c : C} (h : Represents cap s l) (hb : l.items.length < 2 ^ 63)
    (hc : (s.cons c).pc = .idle) : ∃ (xs : List (Fin n → W)) (s' : _),
      Calls (machine beats cap) s (List.replicate (xs.length + 1) (.pop c)) s' (xs.map some ++ [none]) := by
  have hle := h.cursor_le c
  have hb' : ∀ m, (l.items ++ pushed (List.replicate m (.pop c) : List (Op P C n W))).length < 2 ^ 63 := by
    intro m
    rw [pushed_replicate_pop, List.append_nil]
    exact hb
  have hmade : ∀ c' ∈ [c], (s.cons c').pc = .idle := by simpa using hc
  obtain ⟨s', rs, hcalls⟩ := Calls.exists_of_valid beats h hmade
    (hb' ((l.items.drop (l.next cap.val c)).length + 1)) (valid_replicate_pop (by simp) _ _)
  obtain ⟨rfl, -⟩ := hcalls.refines h (hb' _)
  rw [List.map_replicate, Op.cmd, Log.run_takes_all cap.pos hle] at hcalls
  exact ⟨_, s', hcalls⟩

theorem isLatestLog (beats : Bool) (cap : Capacity) :
    IsLatestLog cap (machine beats cap : Machine (State P C n W) _ _) where
  completes ops hb hv := Calls.exists_of_valid beats represents_init (by simp) hb hv
  refines ops s rs hb h := by
    obtain ⟨hrs, hrep⟩ := h.represents_end hb
    have hw := hrep.writePos
    rw [items_run_empty] at hw
    exact ⟨hw, hrs, hrep.cursor⟩
  pop ops s rs c s' r hb h hcall := by
    obtain ⟨-, hrep⟩ := h.represents_end hb
    have hpop := hcall.pop_refines hrep (by rw [items_run_empty]; exact hb)
    rwa [items_run_empty] at hpop
  drain ops s rs c hb h hc := by
    obtain ⟨-, hrep⟩ := h.represents_end hb
    refine ⟨Calls.exists_drain beats hrep (by rw [items_run_empty]; exact hb) hc, fun xs s' hcalls => ?_⟩
    have hdrain := hcalls.drain_refines hrep (by rw [items_run_empty]; exact hb)
    rwa [items_run_empty] at hdrain
  independent ops ops' s s' rs rs' c hb hb' h h' heq := by
    obtain ⟨rfl, -⟩ := h.represents_end hb
    obtain ⟨rfl, -⟩ := h'.represents_end hb'
    have halone := Log.run_concerning (k := cap.val) (c := c) (l := .empty) rfl rfl (ops.map Op.cmd)
    have halone' := Log.run_concerning (k := cap.val) (c := c) (l := .empty) rfl rfl (ops'.map Op.cmd)
    rw [heq] at halone
    exact halone.symm.trans halone'

end

end Lwipc.SpmcRing

namespace Lwipc

open SpmcRing

variable {P C : Type} {n : Nat} {W : Type} [DecidableEq P] [DecidableEq C] [Inhabited W]

/-- `ShmRingBuffer` with its one producer and `IntraRingBuffer` with any number of them are logs of their
latest `Capacity` items, for any number of cursors. -/
theorem rings_keep_latest (cap : Capacity) :
    IsLatestLog cap (ShmRingBuffer.machine cap : Machine (State Unit C n W) _ _) ∧
      IsLatestLog cap (IntraRingBuffer.machine cap : Machine (State P C n W) _ _) :=
  ⟨isLatestLog true cap, isLatestLog false cap⟩

/-- Three pushes into two slots: a cursor at 0 gets the last two items, whatever a cursor at 2 does. -/
theorem rings_keep_latest_two_slots :
    ∃ (s : State Unit Bool 1 Nat) (rs : List (Option (Fin 1 → Nat))),
      Calls (ShmRingBuffer.machine .two) (ShmRingBuffer.machine .two).init
        [.push () fun _ => 7, .push () fun _ => 8, .push () fun _ => 9, .cursor false 0, .cursor true 2,
          .pop true, .pop false, .pop false, .pop false] s rs ∧
      rs = [none, none, none, none, none, some fun _ => 9, some fun _ => 8, some fun _ => 9, none] ∧
      (s.cons false).pos = 3 := by
  obtain ⟨hshm, -⟩ := rings_keep_latest (P := Unit) (C := Bool) (n := 1) (W := Nat) .two
  obtain ⟨s, rs, hcalls⟩ := hshm.completes
    [.push () fun _ => 7, .push () fun _ => 8, .push () fun _ => 9, .cursor false 0, .cursor true 2,
      .pop true, .pop false, .pop false, .pop false] (by decide) (by decide)
  obtain ⟨-, hrs, hpos⟩ := hshm.refines _ s rs (by decide) hcalls
  refine ⟨s, rs, hcalls, hrs.trans (by decide), (hpos false).trans (by decide)⟩

end Lwipc
