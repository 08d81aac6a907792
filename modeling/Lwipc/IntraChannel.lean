import Lwipc.IntraRingBuffer
import Lwipc.LoanedSample
import Lwipc.SpmcCalls

/-!
# The intra-process channel: `IntraPublisher` and `IntraSubscriber`

One publisher, driven by one thread, on a ring of its own, and any number of cursors; an
`IntraSubscriber` hands `make_cursor` and `try_receive` on to the ring. `publish` pushes the bare
item, then counts it in `sequence_` and, for a loan, resets the loan: `Publisher` counts first, since
it puts the count into the header.
-/

namespace Lwipc.IntraChannel

open SpmcRing

/-- The capacity of the ring and the publisher's place among those whose loans the program handles. -/
structure Config (ι : Type) where
  cap : Capacity
  loans : LoanedSample.Config ι
  me : ι

/-- Where a call of `publish` stands: outside, before `++sequence_`, or before the `reset` of its
loan. -/
inductive PublishPc (L : Type)
  | idle
  | pushing (l : Option L)
  | resetting (l : L)
  deriving DecidableEq

/-- What follows the push of a `publish`, of a loan or not, and its count. -/
def PublishPc.counted {L : Type} : Option L → PublishPc L
  | none => .idle
  | some l => .resetting l

/-- The payload type is its object representation; `sequence_` is kept with the pool. -/
structure State (ι L C : Type) (n : Nat) (W : Type) where
  ring : SpmcRing.State Unit C n W
  loans : LoanedSample.State ι L (Fin n → W)
  pc : PublishPc L

inductive Act (ι L C : Type) (n : Nat) (W : Type)
  | publish (item : Fin n → W)
  | publishLoan (l : L)
  /-- the next access of the push in progress -/
  | push (a : PushAct n W)
  /-- `++sequence_` -/
  | count
  /-- `loan_sample.reset()` at the end of `publish` -/
  | reset
  /-- an operation on loans outside `publish` -/
  | loans (a : LoanedSample.Act ι L (Fin n → W))
  /-- an access of a subscriber -/
  | cons (c : C) (a : PopAct n W)

inductive Event (ι C : Type) (n : Nat) (W : Type)
  | ring (e : SpmcRing.Event Unit C n W)
  | loans (e : LoanedSample.Event ι (Fin n → W))
  /-- a `publish` of this item reached the ring -/
  | publish (item : Fin n → W)

variable {ι L C : Type} {n : Nat} {W : Type} {cfg : Config ι}

def init [Inhabited W] (cfg : Config ι) : State ι L C n W where
  ring := SpmcRing.init
  loans := LoanedSample.init cfg.loans
  pc := .idle

section
variable [DecidableEq ι] [DecidableEq L] [DecidableEq C]

def ringStep (cfg : Config ι) (s : State ι L C n W) (a : SpmcRing.Act Unit C n W) :
    Option (State ι L C n W × List (Event ι C n W)) :=
  (SpmcRing.step false cfg.cap s.ring a).map fun (r, o) => ({ s with ring := r }, o.map .ring)

/-- Either overload of `publish`, up to the `fetch_add` of `push`; `l` is the loan it was called
for. -/
def publishItem (cfg : Config ι) (s : State ι L C n W) (item : Fin n → W) (l : Option L) :
    Option (State ι L C n W × List (Event ι C n W)) :=
  match s.pc with
  | .idle =>
    (ringStep cfg s (.prod () (.push item))).map fun (s', o) =>
      ({ s' with pc := .pushing l }, .publish item :: o)
  | _ => none

/-- Whether the publisher's thread is outside `publish`. -/
def State.free (s : State ι L C n W) : Bool := s.pc matches .idle

def loansStep (cfg : Config ι) (s : State ι L C n W) (a : LoanedSample.Act ι L (Fin n → W)) :
    Option (State ι L C n W × List (Event ι C n W)) :=
  (LoanedSample.step cfg.loans s.loans a).map fun (x, o) => ({ s with loans := x }, o.map .loans)

def step (cfg : Config ι) (s : State ι L C n W) :
    Act ι L C n W → Option (State ι L C n W × List (Event ι C n W))
  | .publish item => publishItem cfg s item none
  | .publishLoan l =>
    match s.loans.samples l with
    | none => none
    | some ⟨none, _⟩ => if s.free then some (s, []) else none
    | some ⟨some p, _⟩ => publishItem cfg s (s.loans.storage p) (some l)
  | .push (.push _) => none
  | .push a => ringStep cfg s (.prod () a)
  | .count =>
    match s.pc, s.ring.prod () with
    | .pushing l, .idle =>
      some ({ s with loans := LoanedSample.push s.loans cfg.me, pc := .counted l }, [])
    | _, _ => none
  | .reset =>
    match s.pc with
    | .resetting l => (loansStep cfg s (.reset l)).map fun (s', o) => ({ s' with pc := .idle }, o)
    | _ => none
  | .loans (.publish i l) =>
    if s.free ∧ i ≠ cfg.me then loansStep cfg s (.publish i l) else none
  | .loans a => if s.free then loansStep cfg s a else none
  | .cons c a => ringStep cfg s (.cons c a)

def machine [Inhabited W] (cfg : Config ι) :
    Machine (State ι L C n W) (Act ι L C n W) (Event ι C n W) :=
  ⟨init cfg, step cfg⟩

/-! ### The ways through `step` -/

variable {s s' : State ι L C n W} {item : Fin n → W} {l : Option L} {o : List (Event ι C n W)}

omit [DecidableEq ι] [DecidableEq L] [DecidableEq C] in
theorem free_iff : s.free = true ↔ s.pc = .idle := by
  unfold State.free
  rcases s.pc <;> simp

omit [DecidableEq ι] [DecidableEq L] in
theorem ringStep_prod {a : PushAct n W} (hs : ringStep cfg s (.prod () a) = some (s', o)) :
    ∃ r o', PushMove false cfg.cap s.ring () a r o' ∧ s' = { s with ring := r } ∧ o = o'.map .ring := by
  obtain ⟨⟨r, o'⟩, hr, heq⟩ := Option.map_eq_some_iff.1 hs
  cases heq
  exact ⟨r, o', step_prod_eq_some.1 hr, rfl, rfl⟩

omit [DecidableEq ι] [DecidableEq L] in
theorem publish_of_item (hs : publishItem cfg s item l = some (s', o)) :
    s.pc = .idle ∧ ∃ r o', PushMove false cfg.cap s.ring () (.push item) r o' ∧
      s' = { s with ring := r, pc := .pushing l } ∧ o = .publish item :: o'.map .ring := by
  unfold publishItem at hs
  split at hs
  · rename_i hpc
    obtain ⟨⟨s₁, o₁⟩, h1, heq⟩ := Option.map_eq_some_iff.1 hs
    obtain ⟨r, o', hr, rfl, rfl⟩ := ringStep_prod h1
    cases heq
    exact ⟨hpc, r, o', hr, rfl, rfl⟩
  · cases hs

/-- An empty loan is not published. -/
theorem publishLoan_of_step {l : L} (hs : step cfg s (.publishLoan l) = some (s', o)) :
    (s' = s ∧ o = []) ∨ ∃ item, publishItem cfg s item (some l) = some (s', o) := by
  simp only [step] at hs
  split at hs
  · cases hs
  · obtain ⟨-, heq⟩ := Option.ite_none_right_eq_some.1 hs
    cases heq
    exact .inl ⟨rfl, rfl⟩
  · exact .inr ⟨_, hs⟩

theorem push_of_step {b : PushAct n W} (hs : step cfg s (.push b) = some (s', o)) :
    (∀ item, b ≠ .push item) ∧ ∃ r o', PushMove false cfg.cap s.ring () b r o' ∧
      s' = { s with ring := r } ∧ o = o'.map .ring := by
  cases b with
  | push item => cases hs
  | _ => exact ⟨by simp, ringStep_prod hs⟩

theorem count_of_step (hs : step cfg s .count = some (s', o)) :
    ∃ l, s.pc = .pushing l ∧ s.ring.prod () = .idle ∧
      s' = { s with loans := LoanedSample.push s.loans cfg.me, pc := .counted l } ∧ o = [] := by
  simp only [step] at hs
  split at hs
  · rename_i l hpc hprod
    cases hs
    exact ⟨l, hpc, hprod, rfl, rfl⟩
  · cases hs

omit [DecidableEq C] in
theorem loans_of_step {b : LoanedSample.Act ι L (Fin n → W)} (hs : loansStep cfg s b = some (s', o)) :
    ∃ x o', LoanedSample.step cfg.loans s.loans b = some (x, o') ∧ s' = { s with loans := x } ∧
      o = o'.map .loans := by
  obtain ⟨⟨x, o'⟩, hx, heq⟩ := Option.map_eq_some_iff.1 hs
  cases heq
  exact ⟨x, o', hx, rfl, rfl⟩

theorem reset_of_step (hs : step cfg s .reset = some (s', o)) :
    ∃ l x o', s.pc = .resetting l ∧ LoanedSample.step cfg.loans s.loans (.reset l) = some (x, o') ∧
      s' = { s with loans := x, pc := .idle } ∧ o = o'.map .loans := by
  simp only [step] at hs
  split at hs
  · rename_i l hpc
    obtain ⟨⟨s₁, o₁⟩, h1, heq⟩ := Option.map_eq_some_iff.1 hs
    obtain ⟨x, o', hx, rfl, rfl⟩ := loans_of_step h1
    cases heq
    exact ⟨l, x, o', hpc, hx, rfl, rfl⟩
  · cases hs

theorem handle_of_step {b : LoanedSample.Act ι L (Fin n → W)} (hs : step cfg s (.loans b) = some (s', o)) :
    s.pc = .idle ∧ (∀ i l, b = .publish i l → i ≠ cfg.me) ∧ ∃ x o',
      LoanedSample.step cfg.loans s.loans b = some (x, o') ∧ s' = { s with loans := x } ∧
        o = o'.map .loans := by
  cases b with
  | publish i l =>
    obtain ⟨⟨hfree, hne⟩, hs⟩ := Option.ite_none_right_eq_some.1 hs
    refine ⟨free_iff.1 hfree, fun j k heq => ?_, loans_of_step hs⟩
    cases heq
    exact hne
  | _ =>
    obtain ⟨hfree, hs⟩ := Option.ite_none_right_eq_some.1 hs
    exact ⟨free_iff.1 hfree, by simp, loans_of_step hs⟩

theorem cons_of_step {c : C} {b : PopAct n W} (hs : step cfg s (.cons c b) = some (s', o)) :
    ∃ x o', PopMove cfg.cap s.ring.writePos s.ring.slots c (s.ring.cons c) b x o' ∧
      s' = { s with ring := s.ring.setCons c x } ∧ o = o'.map (.ring (ι := ι)) := by
  obtain ⟨⟨r, o'⟩, hr, heq⟩ := Option.map_eq_some_iff.1 hs
  obtain ⟨x, hx, rfl⟩ := step_cons_eq_some.1 hr
  cases heq
  exact ⟨x, o', hx, rfl, rfl⟩

end

/-! ### The counters -/

/-- The items whose push has begun, in order. -/
def published (tr : List (Event ι C n W)) : List (Fin n → W) :=
  tr.filterMap fun | .publish item => some item | _ => none

def ringEvents (tr : List (Event ι C n W)) : List (SpmcRing.Event Unit C n W) :=
  tr.filterMap fun | .ring e => some e | _ => none

/-- What `sequence_` comes to when the publish in progress has been counted. -/
def State.counted (cfg : Config ι) (s : State ι L C n W) : Nat :=
  match s.pc with
  | .pushing _ => u64 (s.loans.sequence cfg.me + 1)
  | _ => s.loans.sequence cfg.me

/-- The publishes have been claimed in order and counted, and the thread is in `push` at most between
the first step of a publish and the count. -/
structure Numbered (cfg : Config ι) (tr : List (Event ι C n W)) (s : State ι L C n W) : Prop where
  sequence : s.counted cfg = u64 (published tr).length
  claims : claims (ringEvents tr) = published tr
  prod : (∀ l, s.pc ≠ .pushing l) → s.ring.prod () = .idle

section
variable {tr o : List (Event ι C n W)} {s s' : State ι L C n W}

theorem published_append : published (tr ++ o) = published tr ++ published o := List.filterMap_append

theorem ringEvents_append (tr o : List (Event ι C n W)) :
    ringEvents (tr ++ o) = ringEvents tr ++ ringEvents o := List.filterMap_append

@[simp] theorem published_ring (o : List (SpmcRing.Event Unit C n W)) :
    published (o.map (Event.ring (ι := ι))) = [] :=
  filterMap_map_eq_nil (fun _ => rfl) o

@[simp] theorem published_loans (o : List (LoanedSample.Event ι (Fin n → W))) :
    published (o.map (Event.loans (C := C))) = [] :=
  filterMap_map_eq_nil (fun _ => rfl) o

@[simp] theorem ringEvents_ring (o : List (SpmcRing.Event Unit C n W)) :
    ringEvents (o.map (Event.ring (ι := ι))) = o := by
  unfold ringEvents
  rw [List.filterMap_map]
  exact List.filterMap_some

@[simp] theorem ringEvents_loans (o : List (LoanedSample.Event ι (Fin n → W))) :
    ringEvents (o.map (Event.loans (C := C))) = [] :=
  filterMap_map_eq_nil (fun _ => rfl) o

theorem Numbered.frame (h : Numbered cfg tr s) (hcount : s'.counted cfg = s.counted cfg)
    (hpub : published o = []) (hcl : SpmcRing.claims (ringEvents o) = [])
    (hprod : (∀ l, s'.pc ≠ .pushing l) → s'.ring.prod () = .idle) : Numbered cfg (tr ++ o) s' := by
  have hp : published (tr ++ o) = published tr := by rw [published_append, hpub, List.append_nil]
  have hc : SpmcRing.claims (ringEvents (tr ++ o)) = SpmcRing.claims (ringEvents tr) := by
    rw [ringEvents_append, claims_append, hcl, List.append_nil]
  exact ⟨by rw [hcount, hp]; exact h.sequence, by rw [hc, hp]; exact h.claims, hprod⟩

variable [DecidableEq ι] [DecidableEq L] [DecidableEq C]

omit [DecidableEq ι] [DecidableEq L] in
theorem Numbered.publish {item : Fin n → W} {l : Option L} (h : Numbered cfg tr s)
    (hs : publishItem cfg s item l = some (s', o)) : Numbered cfg (tr ++ o) s' := by
  obtain ⟨hpc, r, o', hr, rfl, rfl⟩ := publish_of_item hs
  cases hr
  have hseq : s.loans.sequence cfg.me = u64 (published tr).length := by
    have hcount := h.sequence
    unfold State.counted at hcount
    rw [hpc] at hcount
    exact hcount
  refine ⟨?_, ?_, fun hne => absurd rfl (hne l)⟩
  · show u64 (s.loans.sequence cfg.me + 1) = u64 (published (tr ++ _)).length
    rw [hseq, published_append, List.length_append]
    show u64 (u64 (published tr).length + 1) = u64 ((published tr).length + 1)
    unfold u64
    omega
  · rw [published_append, ringEvents_append, claims_append, h.claims]
    rfl

theorem Numbered.step {a : Act ι L C n W} (h : Numbered cfg tr s)
    (hs : step cfg s a = some (s', o)) : Numbered cfg (tr ++ o) s' := by
  cases a with
  | publish item => exact h.publish hs
  | publishLoan l =>
    rcases publishLoan_of_step hs with ⟨rfl, rfl⟩ | ⟨item, hitem⟩
    · exact h.frame rfl rfl rfl h.prod
    · exact h.publish hitem
  | push b =>
    obtain ⟨hb, r, o', hr, rfl, rfl⟩ := push_of_step hs
    refine h.frame rfl (published_ring o') ?_ fun hne => ?_
    · rw [ringEvents_ring]
      exact (hr.after_claim hb).1
    · have hidle := h.prod hne
      cases hr with
      | claim item => exact absurd rfl (hb item)
      | mark _ _ hp | word _ _ _ _ hp | ready _ _ _ hp | beat _ _ hp =>
        rw [hidle] at hp
        cases hp
  | count =>
    obtain ⟨l, hpc, hprod, rfl, rfl⟩ := count_of_step hs
    refine h.frame ?_ rfl rfl fun _ => hprod
    unfold State.counted
    rw [hpc]
    rcases l with - | l <;> exact Function.update_self _ _ _
  | reset =>
    obtain ⟨l, x, o', hpc, hx, rfl, rfl⟩ := reset_of_step hs
    refine h.frame ?_ (published_loans o') (by rw [ringEvents_loans]; rfl) fun _ =>
      h.prod (by rw [hpc]; simp)
    unfold State.counted
    rw [hpc]
    exact LoanedSample.sequence_of_step (by simp) hx
  | loans b =>
    obtain ⟨hpc, hne, x, o', hx, rfl, rfl⟩ := handle_of_step hs
    refine h.frame ?_ (published_loans o') (by rw [ringEvents_loans]; rfl) h.prod
    unfold State.counted
    rw [hpc]
    exact LoanedSample.sequence_of_step hne hx
  | cons c b =>
    obtain ⟨x, o', hx, rfl, rfl⟩ := cons_of_step hs
    refine h.frame rfl (published_ring o') ?_ h.prod
    rw [ringEvents_ring]
    exact hx.claims_eq

variable [Inhabited W]

theorem numbered_of_runs {ok : List (Event ι C n W) → State ι L C n W → Act ι L C n W → Prop}
    (h : (machine cfg).Runs ok tr s) : Numbered cfg tr s :=
  h.invariant (I := Numbered cfg) ⟨rfl, rfl, fun _ => rfl⟩ fun _ _ _ _ _ ih _ hs => ih.step hs

/-- Forgetting everything but the ring, the channel runs as `IntraRingBuffer` does. -/
theorem ring_of_runs {ok : List (Event ι C n W) → State ι L C n W → Act ι L C n W → Prop}
    (h : (machine cfg).Runs ok tr s) :
    (IntraRingBuffer.machine cfg.cap).Runs Machine.free (ringEvents tr) s.ring := by
  refine h.project (f := fun s => s.ring) (g := ringEvents) ?_ ?_ ringEvents_append ?_
  · rfl
  · rfl
  intro tr s a s' o _ _ hs
  have hpublish : ∀ {item : Fin n → W} {l : Option L}, publishItem cfg s item l = some (s', o) →
      SpmcRing.step false cfg.cap s.ring (.prod () (.push item)) = some (s'.ring, ringEvents o) := by
    intro item l hs
    obtain ⟨-, r, o', hr, rfl, rfl⟩ := publish_of_item hs
    rw [show ringEvents (.publish item :: o'.map (Event.ring (ι := ι))) = o' from ringEvents_ring o']
    exact step_prod_eq_some.2 hr
  cases a with
  | publish item => exact .inr ⟨.prod () (.push item), trivial, hpublish hs⟩
  | publishLoan l =>
    rcases publishLoan_of_step hs with ⟨rfl, rfl⟩ | ⟨item, hitem⟩
    · exact .inl ⟨rfl, rfl⟩
    · exact .inr ⟨.prod () (.push item), trivial, hpublish hitem⟩
  | push b =>
    obtain ⟨-, r, o', hr, rfl, rfl⟩ := push_of_step hs
    refine .inr ⟨.prod () b, trivial, ?_⟩
    rw [ringEvents_ring]
    exact step_prod_eq_some.2 hr
  | count =>
    obtain ⟨l, -, -, rfl, rfl⟩ := count_of_step hs
    exact .inl ⟨rfl, rfl⟩
  | reset =>
    obtain ⟨l, x, o', -, -, rfl, rfl⟩ := reset_of_step hs
    exact .inl ⟨rfl, ringEvents_loans o'⟩
  | loans b =>
    obtain ⟨-, -, x, o', -, rfl, rfl⟩ := handle_of_step hs
    exact .inl ⟨rfl, ringEvents_loans o'⟩
  | cons c b =>
    obtain ⟨x, o', hx, rfl, rfl⟩ := cons_of_step hs
    refine .inr ⟨.cons c b, trivial, ?_⟩
    rw [ringEvents_ring]
    exact cons_step.2 ⟨x, hx, rfl⟩

end

end Lwipc.IntraChannel
