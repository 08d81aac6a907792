import Lwipc.AsyncSubscriber

/-!
# Starting and stopping a subscriber

`start_async` and `stop` in any number of rounds. A joined worker leaves `worker_` free for the next
one, which makes a cursor of its own; assigning to `worker_` while the old worker runs ends the process.

While the owner is in `stop`, the worker finishes the turn it is in and no other: it comes to its end
after so many steps of its own, whatever the publisher does (`stop_joins_worker`).
-/

namespace Lwipc.AsyncLifecycle

open SpmcRing AsyncSubscriber

variable {n : Nat} {W : Type}

structure State (n : Nat) (W : Type) where
  sub : AsyncSubscriber.State n W
  /-- the process has ended in `std::terminate` -/
  terminated : Bool

/-- `worker_` is not joinable: it was never launched, or joined. -/
def isFree : SpinPc → Bool
  | .none | .done => true
  | _ => false

/-- The launch of a worker, which takes the place of one that was joined. -/
def launch (s : AsyncSubscriber.State n W) : AsyncSubscriber.State n W :=
  { s with
    ring := s.ring.setCons () { s.ring.cons () with pc := .none }
    worker := .makeCursor
    owner := .launched }

section
variable [Inhabited W]

def subStep (beats : Bool) (cap : Capacity) (s : AsyncSubscriber.State n W) :
    AsyncSubscriber.Act n W → Option (State n W × List (AsyncSubscriber.Event n W))
  | .owner .startAsync =>
    match s.owner with
    | .idle => some (⟨{ s with stopFlag := false, owner := .launch }, false⟩, [])
    | _ => none
  | .owner .launch =>
    match s.owner with
    | .launch => if isFree s.worker then some (⟨launch s, false⟩, []) else some (⟨s, true⟩, [])
    | _ => none
  | a => (AsyncSubscriber.step beats cap s a).map fun (s', o) => (⟨s', false⟩, o)

def step (beats : Bool) (cap : Capacity) (s : State n W) (a : AsyncSubscriber.Act n W) :
    Option (State n W × List (AsyncSubscriber.Event n W)) :=
  if s.terminated then none else subStep beats cap s.sub a

def machine (beats : Bool) (cap : Capacity) :
    Machine (State n W) (AsyncSubscriber.Act n W) (AsyncSubscriber.Event n W) :=
  ⟨⟨(AsyncSubscriber.machine beats cap).init, false⟩, step beats cap⟩

end

/-! ### Moves -/

section
variable [Inhabited W] {beats : Bool} {cap : Capacity} {s s' : State n W}
  {tr o : List (AsyncSubscriber.Event n W)} {a : AsyncSubscriber.Act n W}

/-- What a step does: a step of the subscriber, or one of the two that begin a round. -/
theorem step_cases (h : (machine beats cap).step s a = some (s', o)) :
    (a = .owner .startAsync ∧ o = [] ∧ s' = ⟨{ s.sub with stopFlag := false, owner := .launch }, false⟩) ∨
    (a = .owner .launch ∧ o = [] ∧ s.sub.owner = .launch ∧
      (s' = ⟨launch s.sub, false⟩ ∨ s' = ⟨s.sub, true⟩)) ∨
    (AsyncSubscriber.step beats cap s.sub a = some (s'.sub, o) ∧ s'.terminated = false ∧
      a ≠ .owner .startAsync ∧ a ≠ .owner .launch) := by
  have h : subStep beats cap s.sub a = some (s', o) := by
    simp only [machine, step] at h
    split at h
    · cases h
    · exact h
  have hother : (AsyncSubscriber.step beats cap s.sub a).map (fun (s', o) => (⟨s', false⟩, o)) =
      some (s', o) → AsyncSubscriber.step beats cap s.sub a = some (s'.sub, o) ∧
        s'.terminated = false := by
    intro h
    obtain ⟨⟨x, o'⟩, hx, heq⟩ := Option.map_eq_some_iff.1 h
    cases heq
    exact ⟨hx, rfl⟩
  cases a with
  | push b => exact .inr (.inr ⟨(hother h).1, (hother h).2, by simp, by simp⟩)
  | spin b => exact .inr (.inr ⟨(hother h).1, (hother h).2, by simp, by simp⟩)
  | owner b =>
    cases b with
    | startAsync =>
      simp only [subStep] at h
      split at h <;> cases h
      exact .inl ⟨rfl, rfl, rfl⟩
    | launch =>
      simp only [subStep] at h
      split at h
      · split_ifs at h <;> cases h
        · exact .inr (.inl ⟨rfl, rfl, ‹_›, .inl rfl⟩)
        · exact .inr (.inl ⟨rfl, rfl, ‹_›, .inr rfl⟩)
      · cases h
    | started | stop | join => exact .inr (.inr ⟨(hother h).1, (hother h).2, by simp, by simp⟩)

/-- The worker stands where its place in `spin` says, and the flag is raised while the owner is in
`stop`. -/
structure Inv (s : AsyncSubscriber.State n W) : Prop where
  worker : WorkerOk (s.ring.cons ()) s.worker
  flag : s.owner = .join → s.stopFlag = true
  small : s.ring.writePos < 2 ^ 64

omit [Inhabited W] in
theorem pushMove_cons {r r' : SpmcRing.State Unit Unit n W} {b : PushAct n W}
    {o : List (SpmcRing.Event Unit Unit n W)} (h : PushMove beats cap r () b r' o)
    (hsmall : r.writePos < 2 ^ 64) : r'.cons = r.cons ∧ r'.writePos < 2 ^ 64 := by
  cases h with
  | claim => exact ⟨rfl, Nat.mod_lt _ (by decide)⟩
  | _ => exact ⟨rfl, hsmall⟩

omit [Inhabited W] in
theorem makeCursor_pc {w : Nat} {slots : Nat → Slot n W} {y y' : Consumer n W}
    {o : List (SpmcRing.Event Unit Unit n W)} (h : PopMove cap w slots () y .makeCursor y' o) :
    y'.pc = .idle := by
  cases h
  rfl

theorem Inv.move {x x' : AsyncSubscriber.State n W} (h : Inv x) (ha : a ≠ .owner .launch)
    (hm : AsyncSubscriber.Move beats cap x a x' o) : Inv x' := by
  obtain ⟨hw, hflag, hsmall⟩ := h
  cases hm with
  | push b hm =>
    obtain ⟨hcons, hsmall'⟩ := pushMove_cons hm hsmall
    exact ⟨by rw [hcons]; exact hw, hflag, hsmall'⟩
  | startAsync => exact ⟨hw, (fun hj => OwnerPc.noConfusion hj), hsmall⟩
  | launch => exact absurd rfl ha
  | started => exact ⟨hw, (fun hj => OwnerPc.noConfusion hj), hsmall⟩
  | stop => exact ⟨hw, fun _ => rfl, hsmall⟩
  | join => exact ⟨hw, (fun hj => OwnerPc.noConfusion hj), hsmall⟩
  | makeCursor hp hm =>
    refine ⟨?_, hflag, hsmall⟩
    rw [State.setCons_self]
    exact makeCursor_pc hm
  | loadStop hp =>
    rw [hp] at hw
    have hpc : (x.ring.cons ()).pc = .idle := hw
    refine ⟨?_, hflag, hsmall⟩
    cases x.stopFlag with
    | true => exact hpc
    | false =>
      show Receiving (x.ring.cons ())
      simp only [Receiving, hpc]
  | receive b hp hm =>
    rw [hp] at hw
    refine ⟨?_, hflag, hsmall⟩
    rw [State.setCons_self]
    exact (receive_move hw hsmall hm).1
  | callback hp =>
    rw [hp] at hw
    exact ⟨hw.1, hflag, hsmall⟩
  | wake hp =>
    rw [hp] at hw
    exact ⟨hw, hflag, hsmall⟩

theorem Inv.step (h : Inv s.sub) (hs : (machine beats cap).step s a = some (s', o)) : Inv s'.sub := by
  rcases step_cases hs with ⟨-, -, rfl⟩ | ⟨-, -, -, rfl | rfl⟩ | ⟨hs, -, -, ha⟩
  · exact ⟨h.worker, (fun hj => OwnerPc.noConfusion hj), h.small⟩
  · refine ⟨?_, (fun hj => OwnerPc.noConfusion hj), h.small⟩
    show ((s.sub.ring.setCons () _).cons ()).pc = _
    rw [State.setCons_self]
  · exact h
  · exact h.move ha (move_of_step hs)

theorem inv_start : Inv (machine beats cap : Machine (State n W) _ _).init.sub where
  worker := rfl
  flag := fun h => OwnerPc.noConfusion h
  small := Nat.two_pow_pos 64

/-- The process ends only in `start_async`. -/
theorem Inv.of_runs {ok : List (AsyncSubscriber.Event n W) → State n W → AsyncSubscriber.Act n W → Prop}
    (h : (machine beats cap).Runs ok tr s) :
    Inv s.sub ∧ (s.terminated = true → s.sub.owner = .launch) := by
  refine h.invariant (I := fun _ s => Inv s.sub ∧ (s.terminated = true → s.sub.owner = .launch)) ?_ ?_
  · exact ⟨inv_start, fun ht => by cases ht⟩
  · intro tr s a s' o hi _ hs
    refine ⟨hi.1.step hs, fun ht => ?_⟩
    rcases step_cases hs with ⟨-, -, rfl⟩ | ⟨-, -, howner, rfl | rfl⟩ | ⟨-, hfalse, -⟩
    · cases ht
    · cases ht
    · exact howner
    · rw [hfalse] at ht
      cases ht

/-! ### The last turn of the worker -/

/-- The steps of the worker that are left when the flag is raised, by where it stands in `spin` and in
`pop`. -/
def stepsLeft : SpinPc → PopPc n → Nat
  | .none, _ | .done, _ => 0
  | .test, _ => 1
  | .makeCursor, _ | .sleep, _ | .callback, _ => 2
  | .receive, .none => 0
  | .receive, .ret _ => 3
  | .receive, .copy copied => 4 + (Finset.univ.filter (copied · = false)).card
  | .receive, .loadSeq => 5 + n
  | .receive, .idle => 6 + n

def rank (s : AsyncSubscriber.State n W) : Nat := stepsLeft s.worker (s.ring.cons ()).pc

/-- The calls of the callback that can follow. -/
def budget : SpinPc → Nat
  | .receive | .callback => 1
  | _ => 0

/-- The owner is in `stop` or behind it. -/
structure Stopping (s : State n W) : Prop where
  running : s.terminated = false
  flag : s.sub.stopFlag = true
  owner : s.sub.owner = .idle ∨ s.sub.owner = .join

/-- `start_async` is not called, and the copy of a payload reads each word once. -/
def Once (_ : List (AsyncSubscriber.Event n W)) (s : State n W) : AsyncSubscriber.Act n W → Prop
  | .owner .startAsync => False
  | .spin (.receive (.read i)) => ∀ copied, (s.sub.ring.cons ()).pc = .copy copied → copied i = false
  | _ => True

/-- The steps of the worker. -/
def workerSteps (_ : State n W) : AsyncSubscriber.Act n W → State n W → List Unit
  | .spin _, _ => [()]
  | _, _ => []

omit [Inhabited W] in
theorem card_uncopied {copied : Fin n → Bool} {i : Fin n} (h : copied i = false) :
    (Finset.univ.filter (Function.update copied i true · = false)).card + 1 =
      (Finset.univ.filter (copied · = false)).card := by
  have herase : Finset.univ.filter (Function.update copied i true · = false) =
      (Finset.univ.filter (copied · = false)).erase i := by
    ext j
    by_cases hj : j = i
    · simp [hj]
    · simp [hj]
  rw [herase]
  exact Finset.card_erase_add_one (by simp [h])

/-- An access in `try_receive` brings the worker closer to its end. -/
theorem stepsLeft_receive {w : Nat} {slots : Nat → Slot n W} {x y : Consumer n W} {b : ReceiveAct n}
    {e : List (SpmcRing.Event Unit Unit n W)} (hx : Receiving x)
    (hb : ∀ i copied, b = .read i → x.pc = .copy copied → copied i = false)
    (hm : PopMove cap w slots () x b.access y e) :
    stepsLeft (received x.pc) y.pc + 1 ≤ stepsLeft .receive x.pc := by
  generalize hacc : (b.access : PopAct n W) = c at hm
  cases hm with
  | makeCursor | makeCursorFromStart => exact hx.elim
  | nothingNew | forward | notReady =>
    simp only [received, stepsLeft]
    omega
  | isReady =>
    simp only [received, stepsLeft, Finset.filter_true, Finset.card_univ, Fintype.card_fin]
    omega
  | read pos out copied i =>
    have hread : b = .read i := by
      cases b <;> cases hacc
      rfl
    have hcard := card_uncopied (hb i copied hread rfl)
    simp only [received, stepsLeft]
    omega
  | torn | taken =>
    simp only [received, stepsLeft]
    omega
  | ret pos out ok => cases ok <;> exact le_rfl

theorem budget_received (pc : PopPc n) : budget (received pc) ≤ 1 := by
  unfold received
  split <;> decide

/-- `stop` returns when the worker has come to its end. -/
theorem free_of_stopped {x x' : AsyncSubscriber.State n W}
    (hs : AsyncSubscriber.step beats cap x a = some (x', o)) (ho : .stopped ∈ o) :
    o = [.stopped] ∧ isFree x'.worker = true := by
  cases a with
  | push b =>
    obtain ⟨⟨r, e⟩, -, heq⟩ := Option.map_eq_some_iff.1 hs
    cases heq
    simp at ho
  | owner b =>
    have hs : ownerStep x b = some (x', o) := hs
    cases b with
    | join =>
      simp only [ownerStep] at hs
      split at hs <;> cases hs
      · rename_i hw
        rw [show x.worker = _ from hw]
        exact ⟨rfl, rfl⟩
      · rename_i hw
        rw [show x.worker = _ from hw]
        exact ⟨rfl, rfl⟩
    | startAsync | launch | started | stop =>
      simp only [ownerStep] at hs
      split at hs <;> cases hs
      simp at ho
  | spin b =>
    cases spinMove_of_step hs with
    | makeCursor | loadStop | callback | wake => simp at ho
    | receive b hw hm =>
      simp only [moves, List.mem_append, List.mem_map] at ho
      rcases ho with ⟨e, -, he⟩ | ho
      · cases he
      · split at ho <;> simp at ho

theorem budget_of_free {w : SpinPc} (h : isFree w = true) : budget w = 0 := by
  cases w <;> first | rfl | cases h

/-- One step while the owner is in `stop` or behind it: the worker uses up its steps and its last call of
the callback. -/
theorem Stopping.step (h : Stopping s) (hinv : Inv s.sub) (hok : Once tr s a)
    (hs : (machine beats cap).step s a = some (s', o)) :
    Stopping s' ∧ (workerSteps s a s').length + rank s'.sub ≤ rank s.sub ∧
      (positions o).length + budget s'.sub.worker ≤ budget s.sub.worker := by
  obtain ⟨hrun, hflag, howner⟩ := h
  rcases step_cases hs with ⟨rfl, -⟩ | ⟨-, -, hlaunch, -⟩ | ⟨hs, hterm, hstart, hlaunch⟩
  · exact hok.elim
  · rw [hlaunch] at howner
    rcases howner with howner | howner <;> cases howner
  · obtain ⟨x', term⟩ := s'
    obtain rfl : term = false := hterm
    have hs : AsyncSubscriber.step beats cap s.sub a = some (x', o) := hs
    cases move_of_step hs with
    | push b hm =>
      have hcons := (pushMove_cons hm hinv.small).1
      refine ⟨⟨rfl, hflag, howner⟩, ?_, ?_⟩
      · simp only [workerSteps, rank, hcons, List.length_nil, Nat.zero_add, le_refl]
      · simp only [positions_map, List.length_nil, Nat.zero_add, le_refl]
    | startAsync => exact hok.elim
    | launch => exact absurd rfl hlaunch
    | started => exact ⟨⟨rfl, hflag, .inl rfl⟩, (Nat.zero_add _).le, (Nat.zero_add _).le⟩
    | stop => exact ⟨⟨rfl, rfl, .inr rfl⟩, (Nat.zero_add _).le, (Nat.zero_add _).le⟩
    | join => exact ⟨⟨rfl, hflag, .inl rfl⟩, (Nat.zero_add _).le, (Nat.zero_add _).le⟩
    | makeCursor hw hm =>
      refine ⟨⟨rfl, hflag, howner⟩, ?_, ?_⟩
      · simp only [workerSteps, rank, hw, stepsLeft, List.length_singleton, Nat.reduceAdd, le_refl]
      · simp only [positions_map, List.length_nil, budget, Nat.zero_add, Nat.zero_le]
    | loadStop hw =>
      refine ⟨⟨rfl, hflag, howner⟩, ?_, ?_⟩
      · simp only [workerSteps, rank, hw, hflag, if_true, stepsLeft, List.length_singleton, le_refl]
      · simp only [hflag, if_true, hw, budget]
        exact le_rfl
    | receive b hw hm =>
      have hrecv : Receiving (s.sub.ring.cons ()) := by
        have := hinv.worker
        rwa [hw] at this
      have hread : ∀ i copied, b = .read i → (s.sub.ring.cons ()).pc = .copy copied → copied i = false := by
        rintro i copied rfl hpc
        exact hok copied hpc
      have hleft := stepsLeft_receive hrecv hread hm
      refine ⟨⟨rfl, hflag, howner⟩, ?_, ?_⟩
      · simp only [workerSteps, rank, hw, State.setCons_self, List.length_singleton]
        omega
      · rw [positions_access, hw]
        exact (Nat.zero_add _).le.trans (budget_received _)
    | callback hw =>
      refine ⟨⟨rfl, hflag, howner⟩, ?_, ?_⟩
      · simp only [workerSteps, rank, hw, stepsLeft, List.length_singleton, Nat.reduceAdd, le_refl]
      · rw [hw]
        exact le_rfl
    | wake hw =>
      refine ⟨⟨rfl, hflag, howner⟩, ?_, ?_⟩
      · simp only [workerSteps, rank, hw, stepsLeft, List.length_singleton, Nat.reduceAdd, le_refl]
      · rw [hw]
        exact le_rfl

/-- A `pop` can always go on, with a word that it has not read. -/
theorem exists_popMove (cap : Capacity) (w : Nat) (slots : Nat → Slot n W) {x : Consumer n W}
    (hx : Receiving x) : ∃ b : ReceiveAct n,
      (∀ i copied, b = .read i → x.pc = .copy copied → copied i = false) ∧
      ∃ y, ∃ e : List (SpmcRing.Event Unit Unit n W), PopMove cap w slots () x b.access y e := by
  obtain ⟨pos, out, pc⟩ := x
  cases pc with
  | none => exact hx.elim
  | idle =>
    refine ⟨.pop, by simp, ?_⟩
    by_cases hle : w ≤ pos
    · exact ⟨_, _, .nothingNew pos out _ hle⟩
    · exact ⟨_, _, .forward pos out _ (Nat.lt_of_not_le hle)⟩
  | loadSeq =>
    refine ⟨.check, by simp, ?_⟩
    by_cases heq : (slots (cap.slot pos)).sequence = expected pos
    · exact ⟨_, _, .isReady pos out heq⟩
    · exact ⟨_, _, .notReady pos out heq⟩
  | copy copied =>
    by_cases hall : ∀ i, copied i = true
    · refine ⟨.recheck, by simp, ?_⟩
      by_cases heq : (slots (cap.slot pos)).sequence = expected pos
      · exact ⟨_, _, .taken pos out copied hall heq⟩
      · exact ⟨_, _, .torn pos out copied hall heq⟩
    · obtain ⟨i, hi⟩ := not_forall.1 hall
      refine ⟨.read i, fun j copied' hb hpc => ?_, _, _, .read pos out copied i⟩
      cases hb
      cases hpc
      simpa using hi
  | ret ok => exact ⟨.ret, by simp, _, _, .ret pos out ok⟩

/-- Until it has come to its end, the worker can always take a step. -/
theorem exists_spin (hinv : Inv s.sub) (hstop : Stopping s) (hw : isFree s.sub.worker = false) :
    ∃ b s' o, Once tr s (.spin b) ∧ (machine beats cap).step s (.spin b) = some (s', o) := by
  have hspin : ∀ {b x o}, spinStep beats cap s.sub b = some (x, o) → Once tr s (.spin b) →
      ∃ b s' o, Once tr s (.spin b) ∧ (machine beats cap).step s (.spin b) = some (s', o) := by
    intro b x o hx hok
    refine ⟨b, ⟨x, false⟩, o, hok, ?_⟩
    simp only [machine, step, hstop.running, Bool.false_eq_true, if_false, subStep, AsyncSubscriber.step, hx]
    rfl
  have hok := hinv.worker
  cases hworker : s.sub.worker with
  | none | done =>
    rw [hworker] at hw
    cases hw
  | test => exact hspin (b := .loadStop) (by simp only [spinStep, hworker]; rfl) trivial
  | sleep => exact hspin (b := .wake) (by simp only [spinStep, hworker]; rfl) trivial
  | callback => exact hspin (b := .callback) (by simp only [spinStep, hworker]; rfl) trivial
  | makeCursor =>
    rw [hworker] at hok
    have hpc : (s.sub.ring.cons ()).pc = .none := hok
    exact hspin (b := .makeCursor)
      (by simp only [spinStep, hworker, SpmcRing.step, popStep, hpc]; rfl) trivial
  | receive =>
    rw [hworker] at hok
    obtain ⟨b, hb, y, e, hm⟩ := exists_popMove cap s.sub.ring.writePos s.sub.ring.slots hok
    have hok : Once tr s (.spin (.receive b)) := by
      cases b with
      | read i => exact fun copied hpc => hb i copied rfl hpc
      | _ => trivial
    have hcons : SpmcRing.step beats cap s.sub.ring (.cons () b.access) = some (s.sub.ring.setCons () y, e) :=
      step_cons_eq_some.2 ⟨y, hm, rfl⟩
    exact hspin (b := .receive b) (by simp only [spinStep, hworker, hcons]; rfl) hok

/-- While the owner is in `stop` or behind it, up to the next `start_async`. -/
structure Quiets (s : State n W) (tr' : List (AsyncSubscriber.Event n W)) (H : List Unit)
    (s' : State n W) : Prop where
  stopping : Stopping s'
  inv : Inv s'.sub
  steps : H.length + rank s'.sub ≤ rank s.sub
  calls : (positions tr').length + budget s'.sub.worker ≤ budget s.sub.worker
  stopped : .stopped ∈ tr' → budget s'.sub.worker = 0
  silent : ∀ tr₁ tr₂, tr' = tr₁ ++ .stopped :: tr₂ → positions tr₂ = []

theorem Quiets.step {t t' : State n W} {H : List Unit} (h : Quiets s tr H t) (hok : Once tr t a)
    (hs : (machine beats cap).step t a = some (t', o)) :
    Quiets s (tr ++ o) (H ++ workerSteps t a t') t' := by
  obtain ⟨hstop, hinv, hsteps, hcalls, hstopped, hsilent⟩ := h
  obtain ⟨hstop', hsteps', hcalls'⟩ := hstop.step hinv hok hs
  have hone : .stopped ∈ o → o = [.stopped] ∧ isFree t'.sub.worker = true := by
    intro ho
    rcases step_cases hs with ⟨rfl, -⟩ | ⟨-, -, hlaunch, -⟩ | ⟨hs, -⟩
    · exact hok.elim
    · have howner := hstop.owner
      rw [hlaunch] at howner
      rcases howner with howner | howner <;> cases howner
    · exact free_of_stopped hs ho
  refine ⟨hstop', hinv.step hs, ?_, ?_, fun hmem => ?_, fun tr₁ tr₂ heq => ?_⟩
  · rw [List.length_append]
    omega
  · rw [positions_append, List.length_append]
    omega
  · rcases List.mem_append.1 hmem with hmem | hmem
    · have := hstopped hmem
      omega
    · exact budget_of_free (hone hmem).2
  · -- the return of `stop` is an earlier one, or this step's
    rcases List.append_eq_append_iff.1 heq with ⟨l, rfl, ho⟩ | ⟨l, rfl, hl⟩
    · have hlen := congrArg List.length ((hone (ho ▸ by simp)).1.symm.trans ho)
      simp only [List.length_append, List.length_cons, List.length_nil] at hlen
      rw [List.eq_nil_of_length_eq_zero (l := tr₂) (by omega)]
      rfl
    · cases l with
      | nil =>
        have ho : o = .stopped :: tr₂ := hl.symm
        have hlen := congrArg List.length ((hone (ho ▸ by simp)).1.symm.trans ho)
        rw [List.eq_nil_of_length_eq_zero (l := tr₂) (by simpa using hlen)]
        rfl
      | cons e l =>
        obtain ⟨rfl, rfl⟩ : .stopped = e ∧ tr₂ = l ++ o := by simpa using hl
        have hquiet : positions o = [] := by
          have := hstopped (by simp)
          exact List.eq_nil_of_length_eq_zero (by omega)
        rw [positions_append, hsilent tr₁ l rfl, hquiet, List.append_nil]

theorem Stopping.runs {H : List Unit} (h : Stopping s) (hinv : Inv s.sub)
    (h' : ((machine beats cap).startAt s).Observed Once workerSteps tr H s') : Quiets s tr H s' := by
  induction h' with
  | init => exact ⟨h, hinv, (Nat.zero_add _).le, (Nat.zero_add _).le, by simp, by simp⟩
  | step _ hok hs ih => exact ih.step hok hs

omit [Inhabited W] in
theorem rank_le (s : AsyncSubscriber.State n W) : rank s ≤ n + 6 := by
  unfold rank
  cases s.worker with
  | receive =>
    cases (s.ring.cons ()).pc with
    | copy copied =>
      have hcard : (Finset.univ.filter (copied · = false)).card ≤ n := by
        simpa using Finset.card_filter_le (Finset.univ : Finset (Fin n)) (copied · = false)
      show 4 + _ ≤ _
      omega
    | none | idle | loadSeq | ret ok =>
      simp only [stepsLeft]
      omega
  | none | done | test | makeCursor | sleep | callback =>
    simp only [stepsLeft]
    omega

theorem budget_le (w : SpinPc) : budget w ≤ 1 := by
  cases w <;> decide

/-- The `join` of a worker that has come to its end. -/
theorem exists_join (hstop : Stopping s) (howner : s.sub.owner = .join) (hw : isFree s.sub.worker = true) :
    ∃ s' o, (machine beats cap).step s (.owner .join) = some (s', o) := by
  simp only [machine, AsyncLifecycle.step, hstop.running, Bool.false_eq_true, if_false, subStep,
    AsyncSubscriber.step, ownerStep, howner]
  cases hworker : s.sub.worker with
  | none | done => exact ⟨_, _, rfl⟩
  | makeCursor | test | receive | callback | sleep =>
    rw [hworker] at hw
    cases hw

/-- From any state in which the owner is in `stop`, and up to the next `start_async`: the worker takes at
most `n + 6` more steps, calls the callback at most once more and never after `stop` has returned. Until
`stop` returns, the worker can take a step or has come to its end and is joined: `stop` waits for nothing
else. -/
theorem stop_joins_worker (beats : Bool) (cap : Capacity) (tr tr' : List (AsyncSubscriber.Event n W))
    (H : List Unit) (s s' : State n W) (h : (machine beats cap).Runs Machine.free tr s)
    (hstop : s.sub.owner = .join)
    (h' : ((machine beats cap).startAt s).Observed Once workerSteps tr' H s') :
    H.length ≤ n + 6 ∧ (positions tr').length ≤ 1 ∧
    (∀ tr₁ tr₂, tr' = tr₁ ++ .stopped :: tr₂ → positions tr₂ = []) ∧
    (s'.sub.owner = .join → ∃ a s'' o, Once tr' s' a ∧ (machine beats cap).step s' a = some (s'', o) ∧
      (a = .owner .join ∨ ∃ b, a = .spin b)) := by
  obtain ⟨hinv, hterm⟩ := Inv.of_runs h
  have hrun : s.terminated = false := by
    rw [Bool.eq_false_iff]
    intro ht
    rw [hterm ht] at hstop
    cases hstop
  have hq := Stopping.runs ⟨hrun, hinv.flag hstop, .inr hstop⟩ hinv h'
  refine ⟨?_, ?_, hq.silent, fun howner => ?_⟩
  · have := rank_le s.sub
    have := hq.steps
    omega
  · have := budget_le s.sub.worker
    have := hq.calls
    omega
  · cases hw : isFree s'.sub.worker with
    | true =>
      obtain ⟨s'', o, hs⟩ := exists_join hq.stopping howner hw
      exact ⟨.owner .join, s'', o, trivial, hs, .inl rfl⟩
    | false =>
      obtain ⟨b, s'', o, hok, hs⟩ := exists_spin hq.inv hq.stopping hw
      exact ⟨_, s'', o, hok, hs, .inr ⟨b, rfl⟩⟩

end

/-- A test for `Once`. -/
def onceTest (s : State n W) : AsyncSubscriber.Act n W → Bool
  | .owner .startAsync => false
  | .spin (.receive (.read i)) =>
    match (s.sub.ring.cons ()).pc with
    | .copy copied => !copied i
    | _ => true
  | _ => true

theorem once_of_test {s : State n W} {a : AsyncSubscriber.Act n W} {tr : List (AsyncSubscriber.Event n W)}
    (h : onceTest s a = true) : Once tr s a := by
  cases a with
  | push => trivial
  | owner b =>
    cases b with
    | startAsync => cases h
    | _ => trivial
  | spin b =>
    cases b with
    | receive c =>
      cases c with
      | read i =>
        intro copied hpc
        simpa [onceTest, hpc] using h
      | _ => trivial
    | _ => trivial

/-- `stop` is called when the worker has just begun a turn: it takes all its `n + 6` steps, and calls the
callback, before it is joined. -/
theorem stop_joins_worker_in_turn : ∃ (tr' : List (AsyncSubscriber.Event 1 Nat)) (H : List Unit) (s' : State 1 Nat),
    H.length = 1 + 6 ∧ positions tr' = [0] ∧ .stopped ∈ tr' ∧ s'.sub.worker = .done ∧
      ∀ tr₁ tr₂, tr' = tr₁ ++ .stopped :: tr₂ → positions tr₂ = [] := by
  let M : Machine (State 1 Nat) (AsyncSubscriber.Act 1 Nat) (AsyncSubscriber.Event 1 Nat) := machine true .two
  let acts := [Act.owner .startAsync, .owner .launch, .spin .makeCursor, .owner .started] ++
    publishActs true 7 ++ [.spin .loadStop, .owner .stop]
  let acts' := (deliverActs.tail ++ [Act.spin .loadStop, .owner .join] : List (AsyncSubscriber.Act 1 Nat))
  have hexec : ((M.exec M.init acts).bind fun (s, _) => (((M.startAt s).restrict onceTest).watch workerSteps s
      acts').map fun (tr', H, s') => (s.sub.owner, H.length, positions tr', tr'.contains .stopped, s'.sub.worker)) =
      some (.join, 7, [0], true, .done) := by
    decide +kernel
  obtain ⟨⟨s, tr⟩, h, hexec⟩ := Option.bind_eq_some_iff.1 hexec
  obtain ⟨tr', H, s', hrun, hend⟩ := Machine.exists_of_watch_restrict (M := M.startAt s) Once
    (fun _ _ _ => once_of_test) hexec
  simp only [Prod.mk.injEq, List.contains_iff_mem] at hend
  obtain ⟨hstop, hlen, hpos, hmem, hdone⟩ := hend
  exact ⟨tr', H, s', hlen, hpos, hmem, hdone,
    (stop_joins_worker true .two tr tr' H s s' (Machine.Runs.init.exec h) hstop hrun).2.2.1⟩

end Lwipc.AsyncLifecycle
