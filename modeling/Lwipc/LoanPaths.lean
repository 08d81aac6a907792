import Lwipc.ChannelIntegrity
import Lwipc.IntraChannel
import Lwipc.PublisherClass

/-!
# Both publishers are lawful

The two classes differ in when they count a publish. `Publisher` adds to `sequence_` before the push,
since the header carries the number, so a publish in progress is already counted; `IntraPublisher`
pushes first.
-/

/-! ### `Publisher` -/

namespace Lwipc.Channel

open SpmcRing

variable {ι L C S D : Type} [DecidableEq ι] [DecidableEq L] [DecidableEq C] [DecidableEq S]
  {cfg : Config ι C S D} {s s' : State cfg.lay ι L C S D} {tr o : List (Event cfg.lay ι C)}
  {acts : List (Act cfg.lay ι L C)} {item : cfg.lay.Item} {now : BitVec 64} {l : L}

/-- `Publisher`, whose `publish` of a value takes the timestamp from the clock or from its caller. -/
def publisher (cfg : Config ι C S D) : PublisherClass (State cfg.lay ι L C S D) (Act cfg.lay ι L C)
    (Event cfg.lay ι C) ι L C Bool cfg.lay.Item (BitVec 64) cfg.lay.slotSize Byte where
  machine := machine cfg
  ring s := s.ring
  loans s := s.loans
  config := cfg.loans
  me := cfg.me
  free s := s.free
  own a := a.cursor.isNone
  publish given item now := if given then .publishAt item now else .publish item now
  publishLoan l now := .publishLoan l now
  push a := .push a
  finish loan := if loan then [.reset] else []
  handle a := .loans a

theorem quiet_of_step {a : Act cfg.lay ι L C} (ha : a.cursor.isNone = false)
    (hs : step s a = some (s', o)) : s'.loans = s.loans ∧ s'.resetting = s.resetting ∧
      s'.ring.prod = s.ring.prod ∧ published o = [] := by
  cases move_of_step hs with
  | publish _ _ _ _ _ ha' | loans _ _ _ ha' =>
    rw [ha'] at ha
    cases ha
  | push => cases ha
  | tryReceive | access => exact ⟨rfl, rfl, rfl, published_ring _⟩
  | makeCursor | failed | skipped | next | addDropped | received | loadLatency | returned
  | storeLatency => exact ⟨rfl, rfl, rfl, rfl⟩

omit [DecidableEq L] [DecidableEq S] in
theorem publishItem_eq_some {r : Option L} (hs : publishItem s item now r = some (s', o)) :
    s'.loans = LoanedSample.push s.loans cfg.me ∧ s'.resetting = r ∧ published o = [(item, now)] := by
  unfold publishItem at hs
  obtain ⟨-, hs⟩ := Option.ite_none_right_eq_some.1 hs
  obtain ⟨⟨s₁, o₁⟩, h1, heq⟩ := Option.map_eq_some_iff.1 hs
  obtain ⟨x, o', -, rfl, rfl⟩ := ringStep_prod h1
  cases heq
  refine ⟨rfl, rfl, ?_⟩
  show (item, now) :: published (o'.map .ring) = _
  rw [published_ring]

theorem handle_of_step {b : LoanedSample.Act ι L cfg.lay.Item} (hs : step s (.loans b) = some (s', o)) :
    s'.ring = s.ring ∧ s'.resetting = s.resetting ∧ published o = [] ∧
      ∃ o', LoanedSample.step cfg.loans s.loans b = some (s'.loans, o') := by
  have hstep : loansStep s b = some (s', o) := by
    cases b with
    | publish i l => exact (Option.ite_none_right_eq_some.1 hs).2
    | _ => exact (Option.ite_none_right_eq_some.1 hs).2
  unfold loansStep at hstep
  obtain ⟨⟨x, o'⟩, hx, heq⟩ := Option.map_eq_some_iff.1 hstep
  cases heq
  exact ⟨rfl, rfl, published_loans o', o', hx⟩

theorem reset_of_step (hl : s.resetting = some l) (hs : step s .reset = some (s', o)) :
    published o = [] ∧ ∃ o', LoanedSample.step cfg.loans s.loans (.reset l) = some (s'.loans, o') := by
  simp only [step, hl] at hs
  split at hs
  · rename_i heq _
    cases heq
    obtain ⟨⟨s₁, o₁⟩, h1, heq⟩ := Option.map_eq_some_iff.1 hs
    unfold loansStep at h1
    obtain ⟨⟨x, o'⟩, hx, heq'⟩ := Option.map_eq_some_iff.1 h1
    cases heq'
    cases heq
    exact ⟨published_loans o', o', hx⟩
  · cases hs

/-- In a publish that began with the loans as in `x`: the count is made. -/
def Publishing (cfg : Config ι C S D) (l : Option L) (x : LoanedSample.State ι L cfg.lay.Item)
    (s : State cfg.lay ι L C S D) : Prop :=
  s.loans = LoanedSample.push x cfg.me ∧ s.resetting = l

theorem quiet_exec (hacts : ∀ b ∈ acts, b.cursor.isNone = false)
    (he : (machine cfg).exec s acts = some (s', o)) :
    s'.loans = s.loans ∧ s'.resetting = s.resetting ∧ published o = [] := by
  have hstep : ∀ (s : State cfg.lay ι L C S D) a s' o, a.cursor.isNone = false →
      (machine cfg).step s a = some (s', o) →
        (s'.loans, s'.resetting) = (s.loans, s.resetting) ∧ published o = [] := by
    intro s a s' o ha hs
    obtain ⟨hl, hr, -, ho⟩ := quiet_of_step ha hs
    exact ⟨Prod.ext hl hr, ho⟩
  obtain ⟨hsame, ho⟩ := Machine.exec_frame (f := fun s => (s.loans, s.resetting)) rfl
    (fun _ _ => published_append) hstep hacts he
  obtain ⟨hl, hr⟩ := Prod.mk.inj hsame
  exact ⟨hl, hr, ho⟩

theorem finish_exec {r : Option L} {x : LoanedSample.State ι L cfg.lay.Item} (hp : Publishing cfg r x s)
    (he : (machine cfg).exec s acts = some (s', o))
    (hf : acts.filter (fun a => a.cursor.isNone) = if r.isSome then [.reset] else []) :
    published o = [] ∧ (publisher cfg).Finished r x s'.loans := by
  obtain ⟨hl, hr⟩ := hp
  cases r with
  | none =>
    have hq : ∀ b ∈ acts, b.cursor.isNone = false := fun b hb =>
      Bool.eq_false_iff.2 (List.filter_eq_nil_iff.1 hf b hb)
    obtain ⟨hl', -, ho⟩ := quiet_exec hq he
    exact ⟨ho, hl'.trans hl⟩
  | some l =>
    obtain ⟨as₁, s₁, o₁, s₂, o₂, as₂, o₃, hq₁, he₁, hs, he₂, hf₂, rfl⟩ := Machine.exec_filter_cons he hf
    have hq₂ : ∀ b ∈ as₂, b.cursor.isNone = false := fun b hb =>
      Bool.eq_false_iff.2 (List.filter_eq_nil_iff.1 hf₂ b hb)
    obtain ⟨hl₁, hr₁, ho₁⟩ := quiet_exec hq₁ he₁
    obtain ⟨ho₂, o', hreset⟩ := reset_of_step (hr₁.trans hr) hs
    obtain ⟨hl₂, -, ho₃⟩ := quiet_exec hq₂ he₂
    rw [hl₁, hl] at hreset
    rw [← hl₂] at hreset
    exact ⟨by rw [published_append, published_append, ho₁, ho₂, ho₃]; rfl, o', hreset⟩

theorem handle_step {b : LoanedSample.Act ι L cfg.lay.Item} {x : LoanedSample.State ι L cfg.lay.Item}
    {o : List (LoanedSample.Event ι cfg.lay.Item)} (hs : s.free = true) (hb : ∀ i l, b ≠ .publish i l)
    (hx : LoanedSample.step cfg.loans s.loans b = some (x, o)) :
    step s (.loans b) = some ({ s with loans := x }, o.map .loans) := by
  have hstep : step s (.loans b) = if s.free then loansStep s b else none := by
    cases b with
    | publish i l => exact absurd rfl (hb i l)
    | _ => rfl
  rw [hstep, if_pos hs]
  unfold loansStep
  rw [hx]
  rfl

omit [DecidableEq ι] [DecidableEq L] [DecidableEq C] [DecidableEq S] in
theorem free_iff : s.free = true ↔ s.resetting = none ∧ s.ring.prod () = .idle := by
  unfold State.free
  rw [Bool.and_eq_true, Option.isNone_iff_eq_none]
  refine and_congr_right fun _ => ?_
  rcases s.ring.prod () <;> simp

theorem step_publishLoan {q : Ptr ι} {i : Option ι} (hl : s.loans.samples l = some ⟨some q, i⟩) :
    step s (.publishLoan l now) = publishItem s (s.loans.storage q) now (some l) := by
  simp only [step, hl]

/-- The `reset` that ends the publish of a loan. -/
theorem exec_reset (hl : s.resetting = some l) (hp : s.ring.prod () = .idle)
    (hx : s.loans.samples l ≠ none) :
    ∃ s' o, (machine cfg).exec s [.reset] = some (s', o) ∧ s'.free = true := by
  obtain ⟨x, hx⟩ := Option.ne_none_iff_exists'.1 hx
  obtain ⟨x', o, hreset⟩ : ∃ x' o, LoanedSample.step cfg.loans s.loans (.reset l) = some (x', o) := by
    simp only [LoanedSample.step, hx, Option.map_some]
    exact ⟨_, _, rfl⟩
  have hs : (machine cfg).step s .reset =
      some ({ s with loans := x', resetting := none }, o.map .loans) := by
    show step s .reset = _
    simp only [step, hl, hp, loansStep, hreset, Option.map_some]
  exact ⟨_, _, Machine.exec_cons_eq_some.2 ⟨_, _, _, hs, rfl, rfl⟩, free_iff.2 ⟨rfl, hp⟩⟩

theorem exec_path {p : Publication Bool L cfg.lay.Item (BitVec 64)} (hs : s.free = true)
    (hloan : ∀ l, p.path ≠ .loan l) (hready : (publisher cfg).Ready s p) :
    ∃ pushes s' o, (machine cfg).exec s ((publisher cfg).block p pushes) = some (s', o) ∧
      s'.free = true := by
  obtain ⟨hr, hp⟩ := free_iff.1 hs
  refine ⟨ShmRingBuffer.pushBody cfg.lay.slotSize Byte, ?_⟩
  rcases p with ⟨given | l | l, item, now⟩
  · have ha : step s ((publisher cfg).publish given item now) = publishItem s item now none := by
      cases given <;> rfl
    obtain ⟨s', o, he, hr', hp', -⟩ := exec_item hr hp ha
    refine ⟨s', o, ?_, free_iff.2 ⟨hr', hp'⟩⟩
    show (machine cfg).exec s (_ :: (_ ++ [])) = _
    rw [List.append_nil]
    exact he
  · exact absurd rfl (hloan l)
  · obtain ⟨q, i, hl, rfl⟩ := hready
    obtain ⟨s₁, o₁, he₁, hr₁, hp₁, -, -, hx₁, -⟩ := exec_item hr hp (step_publishLoan hl)
    have hl₁ : s₁.loans.samples l ≠ none := by
      rw [hx₁]
      exact Option.ne_none_iff_exists'.2 ⟨_, hl⟩
    obtain ⟨s₂, o₂, he₂, hend⟩ := exec_reset hr₁ hp₁ hl₁
    exact ⟨s₂, _, Machine.exec_append he₁ he₂, hend⟩

theorem push_of_step {b : PushAct cfg.lay.slotSize Byte} (hs : step s (.push b) = some (s', o)) :
    s'.loans = s.loans ∧ s'.resetting = s.resetting ∧ published o = [] := by
  have hstep : ringStep s (.prod () b) = some (s', o) := by
    cases b with
    | push item => cases hs
    | _ => exact hs
  obtain ⟨r, o', -, rfl, rfl⟩ := ringStep_prod hstep
  exact ⟨rfl, rfl, published_ring o'⟩

theorem state_of_runs (h : (machine cfg).Runs Machine.free tr s) (hs : s.free = true) :
    (s.ring.writePos, s.ring.slots) = SpmcRing.stored cfg.cap
      ((published tr).mapIdx fun k x => slotOf cfg (u64 (k + 1)) x.1 x.2) ∧
    s.loans.sequence cfg.me = u64 (published tr).length := by
  obtain ⟨hseq, hclaims⟩ := numbered_of_runs h
  have hstored := (stored_of_runs (ring_of_runs h)).of_idle (free_iff.1 hs).2
  rw [hclaims] at hstored
  exact ⟨hstored, hseq⟩

theorem lawful_publisher (cfg : Config ι C S D) : (publisher (L := L) cfg).Lawful published
    (fun l => SpmcRing.stored cfg.cap (l.mapIdx fun k x => slotOf cfg (u64 (k + 1)) x.1 x.2))
    (Publishing cfg) where
  free_init := rfl
  loans_init := rfl
  shown_nil := rfl
  shown_append _ _ := published_append
  state := state_of_runs
  quiet {s a s' o} ha hs := by
    obtain ⟨hl, hr, hp, ho⟩ := quiet_of_step ha hs
    have hfree : s'.free = s.free := by
      unfold State.free
      rw [hr, hp]
    exact ⟨ho, hl, hfree, fun l x hx => ⟨hl.trans hx.1, hr.trans hx.2⟩⟩
  handle {s b s' o} hs := by
    obtain ⟨hring, hr, ho, hstep⟩ := handle_of_step hs
    have hfree : s'.free = s.free := by
      unfold State.free
      rw [hr, hring]
    exact ⟨ho, hfree, hstep⟩
  publish {s v item now s' o} hs := by
    have hstep : publishItem s item now none = some (s', o) := by cases v <;> exact hs
    obtain ⟨hl, hr, ho⟩ := publishItem_eq_some hstep
    exact ⟨ho, hl, hr⟩
  publishLoan hl hs := by
    obtain ⟨hl', hr, ho⟩ := publishItem_eq_some ((step_publishLoan hl).symm.trans hs)
    exact ⟨ho, hl', hr⟩
  push hp hs := by
    obtain ⟨hl, hr, ho⟩ := push_of_step hs
    exact ⟨ho, hl.trans hp.1, hr.trans hp.2⟩
  finish := finish_exec
  own_block := (publisher cfg).filter_block (by rintro (_ | _) <;> intros <;> rfl) (fun _ _ => rfl)
    (fun _ => rfl) (by rintro (_ | _) <;> rfl) (fun _ => rfl)
  handles hs hb hx := ⟨_, _, handle_step hs hb hx, rfl, hs⟩
  completes _ := exec_path
  unchanged {s l now x} hs hl hptr := by
    obtain ⟨ptr, i⟩ := x
    obtain rfl : ptr = none := hptr
    show step s (.publishLoan l now) = _
    simp only [step, show s.loans.samples l = _ from hl]
    exact if_pos hs

end Lwipc.Channel

/-! ### `IntraPublisher` -/

namespace Lwipc.IntraChannel

open SpmcRing

variable {ι L C : Type} {n : Nat} {W : Type} [DecidableEq ι] [DecidableEq L] [DecidableEq C]
  {cfg : Config ι} {s s' : State ι L C n W} {tr o : List (Event ι C n W)} {acts : List (Act ι L C n W)}
  {item : Fin n → W} {l : L}

/-- Whether the publisher's thread takes the step. -/
def Act.own : Act ι L C n W → Bool
  | .cons _ _ => false
  | _ => true

def intraPublisher [Inhabited W] (cfg : Config ι) : PublisherClass (State ι L C n W) (Act ι L C n W)
    (Event ι C n W) ι L C Unit (Fin n → W) Unit n W where
  machine := machine cfg
  ring s := s.ring
  loans s := s.loans
  config := cfg.loans
  me := cfg.me
  free s := s.free
  own a := a.own
  publish _ item _ := .publish item
  publishLoan l _ := .publishLoan l
  push a := .push a
  finish loan := if loan then [.count, .reset] else [.count]
  handle a := .loans a

/-- In a publish that began with the loans as in `x`: the count is still to come. -/
def Publishing (l : Option L) (x : LoanedSample.State ι L (Fin n → W)) (s : State ι L C n W) : Prop :=
  s.loans = x ∧ s.pc = .pushing l

theorem quiet_of_step {a : Act ι L C n W} (ha : a.own = false) (hs : step cfg s a = some (s', o)) :
    s'.loans = s.loans ∧ s'.pc = s.pc ∧ published o = [] := by
  cases a with
  | cons c b =>
    obtain ⟨x, o', -, rfl, rfl⟩ := cons_of_step hs
    exact ⟨rfl, rfl, published_ring o'⟩
  | _ => cases ha

theorem quiet_exec [Inhabited W] (hacts : ∀ b ∈ acts, b.own = false)
    (he : (machine cfg).exec s acts = some (s', o)) :
    s'.loans = s.loans ∧ s'.pc = s.pc ∧ published o = [] := by
  have hstep : ∀ (s : State ι L C n W) a s' o, a.own = false → (machine cfg).step s a = some (s', o) →
      (s'.loans, s'.pc) = (s.loans, s.pc) ∧ published o = [] := by
    intro s a s' o ha hs
    obtain ⟨hl, hpc, ho⟩ := quiet_of_step ha hs
    exact ⟨Prod.ext hl hpc, ho⟩
  obtain ⟨hsame, ho⟩ := Machine.exec_frame (f := fun s => (s.loans, s.pc)) rfl
    (fun _ _ => published_append) hstep hacts he
  obtain ⟨hl, hpc⟩ := Prod.mk.inj hsame
  exact ⟨hl, hpc, ho⟩

theorem count_exec [Inhabited W] {r : Option L} {x : LoanedSample.State ι L (Fin n → W)}
    {bs : List (Act ι L C n W)} (hp : Publishing r x s) (he : (machine cfg).exec s acts = some (s', o))
    (hf : acts.filter Act.own = .count :: bs) :
    ∃ s₁ o₁ as o₂, published o₁ = [] ∧ s₁.loans = LoanedSample.push x cfg.me ∧ s₁.pc = .counted r ∧
      (machine cfg).exec s₁ as = some (s', o₂) ∧ as.filter Act.own = bs ∧ o = o₁ ++ o₂ := by
  obtain ⟨as₁, s₁, o₁, s₂, o₂, as₂, o₃, hq, he₁, hs, he₂, hf₂, rfl⟩ := Machine.exec_filter_cons he hf
  obtain ⟨hl₁, hpc₁, ho₁⟩ := quiet_exec hq he₁
  obtain ⟨r', hpc, -, rfl, rfl⟩ := count_of_step hs
  obtain rfl : r = r' := by
    rw [hpc₁, hp.2] at hpc
    exact PublishPc.pushing.inj hpc
  refine ⟨_, o₁, as₂, o₃, ho₁, ?_, rfl, he₂, hf₂, rfl⟩
  rw [hl₁, hp.1]

theorem finish_exec [Inhabited W] {r : Option L} {x : LoanedSample.State ι L (Fin n → W)}
    (hp : Publishing r x s) (he : (machine cfg).exec s acts = some (s', o))
    (hf : acts.filter Act.own = if r.isSome then [.count, .reset] else [.count]) :
    published o = [] ∧ (intraPublisher (C := C) cfg).Finished r x s'.loans := by
  have hquiet : ∀ {as : List (Act ι L C n W)}, as.filter Act.own = [] → ∀ b ∈ as, b.own = false :=
    fun h b hb => Bool.eq_false_iff.2 (List.filter_eq_nil_iff.1 h b hb)
  cases r with
  | none =>
    obtain ⟨s₁, o₁, as, o₂, ho₁, hl₁, -, he₁, hf₁, rfl⟩ := count_exec hp he hf
    obtain ⟨hl₂, -, ho₂⟩ := quiet_exec (hquiet hf₁) he₁
    exact ⟨by rw [published_append, ho₁, ho₂]; rfl, hl₂.trans hl₁⟩
  | some l =>
    obtain ⟨s₁, o₁, as, o₂, ho₁, hl₁, hpc₁, he₁, hf₁, rfl⟩ := count_exec hp he hf
    obtain ⟨as₁, s₂, o₃, s₃, o₄, as₂, o₅, hq, he₂, hs, he₃, hf₂, rfl⟩ := Machine.exec_filter_cons he₁ hf₁
    obtain ⟨hl₂, hpc₂, ho₂⟩ := quiet_exec hq he₂
    obtain ⟨l', y, o', hpc, hreset, rfl, rfl⟩ := reset_of_step hs
    obtain ⟨hl₃, -, ho₃⟩ := quiet_exec (hquiet hf₂) he₃
    obtain rfl : l = l' := by
      rw [hpc₂, hpc₁] at hpc
      exact PublishPc.resetting.inj hpc
    rw [hl₂, hl₁] at hreset
    refine ⟨by simp only [published_append, ho₁, ho₂, published_loans, ho₃]; rfl, o', ?_⟩
    rw [hl₃]
    exact hreset

/-! ### Uninterrupted publishes -/

theorem exec_push [Inhabited W] {b : List (PushAct n W)} {r : SpmcRing.State Unit C n W}
    {q : List (SpmcRing.Event Unit C n W)} (hb : ∀ item, .push item ∉ b)
    (he : (SpmcRing.machine false cfg.cap).exec s.ring (b.map (.prod ())) = some (r, q)) :
    (machine cfg).exec s (b.map .push) = some ({ s with ring := r }, q.map .ring) := by
  induction b generalizing s q with
  | nil =>
    cases he
    rfl
  | cons a b ih =>
    obtain ⟨r₁, q₁, q₂, hs, he₁, rfl⟩ := Machine.exec_cons_eq_some.1 he
    have hstep : step cfg s (.push a) = some ({ s with ring := r₁ }, q₁.map .ring) := by
      cases a with
      | push item => exact absurd List.mem_cons_self (hb item)
      | _ => exact Option.map_eq_some_iff.2 ⟨_, hs, rfl⟩
    have hrest := ih (s := { s with ring := r₁ }) (fun item h => hb item (List.mem_cons_of_mem _ h)) he₁
    rw [List.map_append]
    exact Machine.exec_cons_eq_some.2 ⟨_, _, _, hstep, hrest, rfl⟩

theorem exec_item [Inhabited W] {a : Act ι L C n W} {r : Option L} (hpc : s.pc = .idle)
    (hp : s.ring.prod () = .idle) (ha : step cfg s a = publishItem cfg s item r) :
    ∃ s' o, (machine cfg).exec s (a :: ((stores n W).map .push ++ [.count])) = some (s', o) ∧
      s'.pc = .counted r ∧ s'.loans = LoanedSample.push s.loans cfg.me := by
  obtain ⟨x, q, hclaim, hmark⟩ : ∃ x q, SpmcRing.step false cfg.cap s.ring (.prod () (.push item)) =
      some (x, q) ∧ x.prod () = .mark s.ring.writePos item :=
    ⟨_, _, step_prod_eq_some.2 (.claim item hp), State.setProd_self _ _ _⟩
  have hs : (machine cfg).step s a =
      some ({ s with ring := x, pc := .pushing r }, .publish item :: q.map .ring) := by
    show step cfg s a = _
    rw [ha]
    unfold publishItem ringStep
    rw [hpc, hclaim]
    rfl
  obtain ⟨x', q', he, hidle, -⟩ := exec_stores false cfg.cap hmark
  have hpush := exec_push (s := { s with ring := x, pc := .pushing r }) push_notMem_stores he
  have hcount : step cfg { s with ring := x', pc := .pushing r } .count =
      some ({ s with ring := x', loans := LoanedSample.push s.loans cfg.me, pc := .counted r }, []) := by
    simp only [step, hidle]
    rfl
  exact ⟨_, _, Machine.exec_cons_eq_some.2 ⟨_, _, _, hs, Machine.exec_append hpush
    (Machine.exec_cons_eq_some.2 ⟨_, _, _, hcount, rfl, rfl⟩), rfl⟩, rfl, rfl⟩

theorem step_publishLoan {q : Ptr ι} {i : Option ι} (hl : s.loans.samples l = some ⟨some q, i⟩) :
    step cfg s (.publishLoan l) = publishItem cfg s (s.loans.storage q) (some l) := by
  simp only [step, hl]

theorem handle_step {b : LoanedSample.Act ι L (Fin n → W)} {x : LoanedSample.State ι L (Fin n → W)}
    {q : List (LoanedSample.Event ι (Fin n → W))} (hs : s.free = true) (hb : ∀ i l, b ≠ .publish i l)
    (hx : LoanedSample.step cfg.loans s.loans b = some (x, q)) :
    step cfg s (.loans b) = some ({ s with loans := x }, q.map .loans) := by
  have hstep : step cfg s (.loans b) = if s.free then loansStep cfg s b else none := by
    cases b with
    | publish i l => exact absurd rfl (hb i l)
    | _ => rfl
  rw [hstep, if_pos hs]
  unfold loansStep
  rw [hx]
  rfl

theorem exec_reset [Inhabited W] (cfg : Config ι) (hpc : s.pc = .resetting l) (hx : s.loans.samples l ≠ none) :
    ∃ s' o, (machine cfg).exec s [.reset] = some (s', o) ∧ s'.free = true := by
  obtain ⟨x, hx⟩ := Option.ne_none_iff_exists'.1 hx
  obtain ⟨x', q, hreset⟩ : ∃ x' q, LoanedSample.step cfg.loans s.loans (.reset l) = some (x', q) := by
    simp only [LoanedSample.step, hx, Option.map_some]
    exact ⟨_, _, rfl⟩
  have hs : step cfg s .reset = some ({ s with loans := x', pc := .idle }, q.map .loans) := by
    simp only [step, hpc, loansStep, hreset, Option.map_some]
  exact ⟨_, _, Machine.exec_cons_eq_some.2 ⟨_, _, _, hs, rfl, rfl⟩, free_iff.2 rfl⟩

theorem exec_path [Inhabited W] {p : Publication Unit L (Fin n → W) Unit}
    (hr : (machine cfg).Runs Machine.free tr s) (hs : s.free = true) (hloan : ∀ l, p.path ≠ .loan l)
    (hready : (intraPublisher (C := C) cfg).Ready s p) :
    ∃ pushes s' o, (machine cfg).exec s ((intraPublisher cfg).block p pushes) = some (s', o) ∧
      s'.free = true := by
  have hpc := free_iff.1 hs
  have hp := (numbered_of_runs hr).prod (by rw [hpc]; simp)
  refine ⟨stores n W, ?_⟩
  rcases p with ⟨_ | l | l, item, now⟩
  · have ha : step cfg s (.publish item) = publishItem cfg s item none := rfl
    obtain ⟨s', o, he, hpc', -⟩ := exec_item hpc hp ha
    exact ⟨s', o, he, free_iff.2 hpc'⟩
  · exact absurd rfl (hloan l)
  · obtain ⟨q, i, hl, rfl⟩ := hready
    have ha : step cfg s (.publishLoan l) = publishItem cfg s _ _ := step_publishLoan hl
    obtain ⟨s₁, o₁, he₁, hpc₁, hx₁⟩ := exec_item hpc hp ha
    have hl₁ : s₁.loans.samples l ≠ none := by
      rw [hx₁]
      exact Option.ne_none_iff_exists'.2 ⟨_, hl⟩
    obtain ⟨s₂, o₂, he₂, hend⟩ := exec_reset cfg hpc₁ hl₁
    have he := Machine.exec_append he₁ he₂
    rw [List.cons_append, List.append_assoc] at he
    exact ⟨s₂, _, he, hend⟩

theorem state_of_runs [Inhabited W] (h : (machine cfg).Runs Machine.free tr s) (hs : s.free = true) :
    (s.ring.writePos, s.ring.slots) = SpmcRing.stored cfg.cap (published tr) ∧
      s.loans.sequence cfg.me = u64 (published tr).length := by
  obtain ⟨hseq, hclaims, hprod⟩ := numbered_of_runs h
  have hpc := free_iff.1 hs
  have hstored := (stored_of_runs (ring_of_runs h)).of_idle (hprod (by rw [hpc]; simp))
  rw [hclaims] at hstored
  unfold State.counted at hseq
  rw [hpc] at hseq
  exact ⟨hstored, hseq⟩

/-- The clock of `IntraPublisher`, which has none. -/
def stamped (tr : List (Event ι C n W)) : List ((Fin n → W) × Unit) := (published tr).map fun x => (x, ())

theorem lawful_intraPublisher [Inhabited W] (cfg : Config ι) :
    (intraPublisher (L := L) (C := C) (n := n) (W := W) cfg).Lawful stamped
      (fun l => SpmcRing.stored cfg.cap (l.map Prod.fst)) Publishing where
  free_init := rfl
  loans_init := rfl
  shown_nil := rfl
  shown_append tr o := by
    unfold stamped
    rw [published_append, List.map_append]
  state {tr s} h hs := by
    obtain ⟨hring, hseq⟩ := state_of_runs h hs
    unfold stamped
    rw [List.map_map, List.length_map]
    exact ⟨hring.trans (by simp [Function.comp_def]), hseq⟩
  quiet {s a s' o} ha hs := by
    obtain ⟨hl, hpc, ho⟩ := quiet_of_step ha hs
    have hfree : s'.free = s.free := by
      unfold State.free
      rw [hpc]
    exact ⟨congrArg _ ho, hl, hfree, fun l x hx => ⟨hl.trans hx.1, hpc.trans hx.2⟩⟩
  handle {s b s' o} hs := by
    obtain ⟨-, -, x, o', hx, rfl, rfl⟩ := handle_of_step hs
    exact ⟨congrArg _ (published_loans o'), rfl, o', hx⟩
  publish {s v item now s' o} hs := by
    obtain ⟨hpc, r, o', -, rfl, rfl⟩ := publish_of_item hs
    exact ⟨congrArg _ (congrArg (item :: ·) (published_ring o')), rfl, rfl⟩
  publishLoan {s l p i now s' o} hl hs := by
    obtain ⟨hpc, r, o', -, rfl, rfl⟩ := publish_of_item ((step_publishLoan hl).symm.trans hs)
    exact ⟨congrArg _ (congrArg (s.loans.storage p :: ·) (published_ring o')), rfl, rfl⟩
  push hp hs := by
    obtain ⟨-, r, o', -, rfl, rfl⟩ := push_of_step hs
    exact ⟨congrArg _ (published_ring o'), hp.1, hp.2⟩
  finish hp he hf := by
    obtain ⟨ho, hend⟩ := finish_exec hp he hf
    exact ⟨congrArg _ ho, hend⟩
  own_block := (intraPublisher cfg).filter_block (fun _ _ _ => rfl) (fun _ _ => rfl) (fun _ => rfl)
    (by rintro (_ | _) <;> rfl) (fun _ => rfl)
  handles hs hb hx := ⟨_, _, handle_step hs hb hx, rfl, hs⟩
  completes := exec_path
  unchanged {s l now x} hs hl hptr := by
    obtain ⟨ptr, i⟩ := x
    obtain rfl : ptr = none := hptr
    show step cfg s (.publishLoan l) = _
    simp only [step, show s.loans.samples l = _ from hl]
    exact if_pos hs

end Lwipc.IntraChannel

namespace Lwipc

/-- The loan path is the copy path, for both classes: two programs that publish the same values, at
the same clock readings, leave the same slots (header and payload), write position and count,
whichever of the values went through a loan and whatever other loans there were. A loan that has been
published is empty and its slot is back in front of the free list, and the publish of an empty loan
changes nothing. -/
theorem loan_path_is_copy_path {ι L C S D ι' L' C' W : Type} {n : Nat} [DecidableEq ι] [DecidableEq L]
    [DecidableEq C] [DecidableEq S] [DecidableEq ι'] [DecidableEq L'] [DecidableEq C'] [Inhabited W]
    (cfg : Channel.Config ι C S D) (cfg' : IntraChannel.Config ι') :
    (Channel.publisher (L := L) cfg).PathsAgree ∧
      (IntraChannel.intraPublisher (L := L') (C := C') (n := n) (W := W) cfg').PathsAgree :=
  ⟨(Channel.lawful_publisher cfg).pathsAgree, (IntraChannel.lawful_intraPublisher cfg').pathsAgree⟩

end Lwipc
