import Lwipc.LoanOwnership
import Lwipc.SpmcCalls

/-!
# Publishing through a loan

`Publisher` and `IntraPublisher` offer the same two ways to publish a value: `publish` copies it, or
the caller fills a slot of the pool and `publish(std::move(loan))` copies it from there and gives the
slot back. `PublisherClass` is what the two have in common, and `PathsAgree` says that it makes no
difference which way each value goes, whatever the subscribers do and whatever other loans the program
holds. `Lawful` lists what a class has to meet, step by step, for that (`Lawful.pathsAgree`): what it
publishes determines the ring and the count.
-/

namespace Lwipc.LoanedSample

open ObjectPool

variable {ι L T : Type} [DecidableEq ι] [DecidableEq L] {cfg : Config ι} {s s' : State ι L T} {i : ι}
  {l : L} {item : T} {o : List (Event ι T)}

/-- `loan` from a pool that is not exhausted, and the fill: the object refers to a slot of the pool
that holds the value. -/
theorem loan_fill {s₁ s₂ : State ι L T} {o₁ o₂ : List (Event ι T)}
    (hpool : ((s.pools i).acquire (cfg.pool i)).1 ≠ none)
    (h1 : step cfg s (.loan i l) = some (s₁, o₁)) (h2 : step cfg s₁ (.fill l item) = some (s₂, o₂)) :
    ∃ p pool, (s.pools i).acquire (cfg.pool i) = (some p, pool) ∧
      s₂ = State.setSample { s with
        pools := Function.update s.pools i pool
        storage := Function.update s.storage ⟨i, p⟩ item } l (some ⟨some ⟨i, p⟩, some i⟩) := by
  rcases hacq : (s.pools i).acquire (cfg.pool i) with ⟨p | p, pool⟩
  · rw [hacq] at hpool
    exact absurd rfl hpool
  obtain ⟨-, heq⟩ := Option.ite_none_right_eq_some.1 h1
  have hloan : loan cfg s i l = State.setSample { s with pools := Function.update s.pools i pool } l
      (some ⟨some ⟨i, p⟩, some i⟩) := by
    unfold loan
    rw [hacq]
  rw [hloan] at heq
  cases heq
  refine ⟨p, pool, rfl, ?_⟩
  simp only [step, State.setSample, Function.update_self, Option.bind_some, Option.map_some] at h2
  cases h2
  rfl

theorem exists_loan_fill (item : T) (hl : s.samples l = none)
    (hpool : ((s.pools i).acquire (cfg.pool i)).1 ≠ none) :
    ∃ s₁ o₁ s₂ o₂ p, step cfg s (.loan i l) = some (s₁, o₁) ∧ step cfg s₁ (.fill l item) = some (s₂, o₂) ∧
      s₂.samples l = some ⟨some p, some i⟩ ∧ s₂.storage p = item := by
  obtain ⟨p, hp⟩ := Option.ne_none_iff_exists'.1 hpool
  have hloan : step cfg s (.loan i l) = some (loan cfg s i l, []) := if_pos hl
  have hsample : (loan cfg s i l).samples l = some ⟨some ⟨i, p⟩, some i⟩ := by
    unfold loan
    split
    · rename_i heq
      rw [heq] at hp
      cases hp
      exact Function.update_self _ _ _
    · rename_i heq
      rw [heq] at hp
      cases hp
  have hfill : step cfg (loan cfg s i l) (.fill l item) = some ({ loan cfg s i l with
      storage := Function.update (loan cfg s i l).storage ⟨i, p⟩ item }, []) := by
    simp only [step, hsample, Option.bind_some, Option.map_some]
  exact ⟨_, _, _, _, ⟨i, p⟩, hloan, hfill, hsample, Function.update_self _ _ _⟩

/-- The count and the reset at the end of the `publish` of a loan. -/
theorem publish_of_reset {x : LoanedSample ι} {p : Ptr ι} (hx : s.samples l = some x)
    (hptr : x.ptr = some p) (hs : step cfg (push s i) (.reset l) = some (s', o)) :
    ∃ o', step cfg s (.publish i l) = some (s', o') := by
  have hx' : (push s i).samples l = some x := hx
  obtain ⟨y, hy, heq⟩ := Option.map_eq_some_iff.1 hs
  obtain rfl : x = y := Option.some.inj (hx'.symm.trans hy)
  have hpub : step cfg s (.publish i l) = some (publish cfg s i l x) := by
    simp only [step, hx, Option.map_some]
  rw [hpub]
  unfold publish
  rw [hptr, heq]
  exact ⟨_, rfl⟩

omit [DecidableEq ι] in
/-- The slot that `acquire` took goes back to where it was. -/
theorem freeList_release_acquire {c : Params} {pool pool' : Pool} {F : List Nat} {p : Nat}
    (h : pool.FreeList c F) (hacq : pool.acquire c = (some p, pool')) :
    (pool'.release c p).FreeList c F := by
  cases F with
  | nil =>
    rw [h.acquire_nil] at hacq
    cases hacq
  | cons idx F =>
    obtain ⟨pool₁, heq, hF⟩ := h.acquire_cons
    obtain ⟨rfl, rfl⟩ : c.ptr idx = p ∧ pool₁ = pool' := by
      rw [heq] at hacq
      simpa using hacq
    have hnodup := List.nodup_cons.1 h.chain.nodup
    exact hF.release (h.lt idx (List.mem_cons_self ..)) hnodup.1

/-- `loan`, the fill and `publish` leave the loan empty and the pools as they were. -/
theorem exec_loan_path [Inhabited T] {F : List Nat} (hF : (s.pools i).FreeList (cfg.pool i) F)
    (hpool : ((s.pools i).acquire (cfg.pool i)).1 ≠ none)
    (he : (machine cfg).exec s [.loan i l, .fill l item, .publish i l] = some (s', o)) :
    s'.samples = Function.update s.samples l (some empty) ∧ (s'.pools i).FreeList (cfg.pool i) F ∧
      ∀ j, j ≠ i → s'.pools j = s.pools j := by
  obtain ⟨s₁, o₁, _, h1, he₁, -⟩ := Machine.exec_cons_eq_some.1 he
  obtain ⟨s₂, o₂, _, h2, he₂, -⟩ := Machine.exec_cons_eq_some.1 he₁
  obtain ⟨s₃, o₃, _, h3, he₃, -⟩ := Machine.exec_cons_eq_some.1 he₂
  cases he₃
  obtain ⟨p, pool, hacq, rfl⟩ := loan_fill hpool h1 h2
  have hstep : step cfg _ (.publish i l) = some (s', o₃) := h3
  simp only [step, State.setSample, Function.update_self, Option.map_some, publish, doRelease, push,
    State.poolRelease, Function.update_idem] at hstep
  cases hstep
  refine ⟨rfl, ?_, fun j hj => Function.update_of_ne hj _ _⟩
  show (Function.update s.pools i (pool.release (cfg.pool i) p) i).FreeList _ _
  rw [Function.update_self]
  exact freeList_release_acquire hF hacq

end Lwipc.LoanedSample

namespace Lwipc

open SpmcRing

/-- How a value is published: by an overload of `publish` that copies it, or by `loan`, filling the
slot and `publish(std::move(loan))`. -/
inductive Path (O L : Type)
  | copy (overload : O)
  | loan (l : L)
  /-- the `publish` of a loan that was taken and filled before -/
  | held (l : L)

structure Publication (O L T K : Type) where
  path : Path O L
  item : T
  now : K

def Publication.value {O L T K : Type} (p : Publication O L T K) : T × K := (p.item, p.now)

/-- A publisher class as a machine: its ring, the loans of the program, and the actions of the thread
that drives it. `K` is what the clock reads, `O` tells the overloads of `publish(const T&)` apart. -/
structure PublisherClass (σ α ε ι L C O T K : Type) (n : Nat) (W : Type) where
  machine : Machine σ α ε
  ring : σ → SpmcRing.State Unit C n W
  loans : σ → LoanedSample.State ι L T
  config : LoanedSample.Config ι
  me : ι
  /-- the thread is outside `publish` -/
  free : σ → Bool
  own : α → Bool
  publish : O → T → K → α
  publishLoan : L → K → α
  push : PushAct n W → α
  /-- what follows the push, of a loan or not -/
  finish : Bool → List α
  handle : LoanedSample.Act ι L T → α

namespace PublisherClass

variable {σ α ε ι L C O T K : Type} {n : Nat} {W : Type} (X : PublisherClass σ α ε ι L C O T K n W)

/-- What the thread does to publish `p`, given the accesses of its push. -/
def block (p : Publication O L T K) (pushes : List (PushAct n W)) : List α :=
  match p.path with
  | .copy v => X.publish v p.item p.now :: (pushes.map X.push ++ X.finish false)
  | .loan l => X.handle (.loan X.me l) :: X.handle (.fill l p.item) :: X.publishLoan l p.now ::
      (pushes.map X.push ++ X.finish true)
  | .held l => X.publishLoan l p.now :: (pushes.map X.push ++ X.finish true)

theorem filter_block (hpublish : ∀ v item now, X.own (X.publish v item now) = true)
    (hloan : ∀ l now, X.own (X.publishLoan l now) = true) (hpush : ∀ a, X.own (X.push a) = true)
    (hfinish : ∀ loan, (X.finish loan).all X.own = true) (hhandle : ∀ a, X.own (X.handle a) = true)
    (p : Publication O L T K) (pushes : List (PushAct n W)) :
    (X.block p pushes).filter X.own = X.block p pushes := by
  have hrest : ∀ loan, (pushes.map X.push ++ X.finish loan).filter X.own =
      pushes.map X.push ++ X.finish loan := by
    intro loan
    refine List.filter_eq_self.2 fun a ha => ?_
    rcases List.mem_append.1 ha with ha | ha
    · obtain ⟨b, -, rfl⟩ := List.mem_map.1 ha
      exact hpush b
    · exact List.all_eq_true.1 (hfinish loan) a ha
  rcases p with ⟨v | l | l, item, now⟩
  · simp only [block, List.filter_cons_of_pos (hpublish v item now), hrest]
  · simp only [block, List.filter_cons_of_pos (hhandle _), List.filter_cons_of_pos (hloan l now), hrest]
  · simp only [block, List.filter_cons_of_pos (hloan l now), hrest]

/-- `loan` makes a new object from a pool that is not exhausted; a loan taken before holds the value. -/
def Ready (s : σ) (p : Publication O L T K) : Prop :=
  match p.path with
  | .copy _ => True
  | .loan l => (X.loans s).samples l = none ∧
      (((X.loans s).pools X.me).acquire (X.config.pool X.me)).1 ≠ none
  | .held l => ∃ q i, (X.loans s).samples l = some ⟨some q, i⟩ ∧ (X.loans s).storage q = p.item

/-- The thread publishes `p` and comes out of it, whatever the subscribers do in the meantime. -/
structure Publishes (s : σ) (p : Publication O L T K) (s' : σ) : Prop where
  ready : X.Ready s p
  runs : ∃ acts pushes o, X.machine.exec s acts = some (s', o) ∧ acts.filter X.own = X.block p pushes
  ends : X.free s' = true

/-- An action that publishes nothing: of a subscriber, on loans, or the publish of an empty loan. -/
def Silent (s : σ) (a : α) : Prop :=
  X.own a = false ∨ (∃ b, a = X.handle b) ∨
    ∃ l now x, a = X.publishLoan l now ∧ (X.loans s).samples l = some x ∧ x.ptr = none

/-- What a program has published, in order, each value along some path. -/
inductive Program : List (Publication O L T K) → σ → Prop
  | start : Program [] X.machine.init
  | publish {ps : List (Publication O L T K)} {s s' : σ} {p : Publication O L T K} (h : Program ps s)
      (hp : X.Publishes s p s') : Program (ps ++ [p]) s'
  | silent {ps : List (Publication O L T K)} {s s' : σ} {a : α} {o : List ε} (h : Program ps s)
      (ha : X.Silent s a) (hs : X.machine.step s a = some (s', o)) : Program ps s'

/-- Which path a value takes makes no difference. -/
structure PathsAgree [DecidableEq L] : Prop where
  /-- two programs that publish the same values at the same clock readings -/
  same : ∀ ps ps' s s', X.Program ps s → X.Program ps' s' →
    ps.map Publication.value = ps'.map Publication.value →
      (X.ring s).writePos = (X.ring s').writePos ∧ (X.ring s).slots = (X.ring s').slots ∧
      (X.loans s).sequence X.me = (X.loans s').sequence X.me
  /-- every path is open -/
  completes : ∀ ps s p, X.Program ps s → X.Ready s p → ∃ s', X.Publishes s p s'
  /-- a loan comes back empty, its slot to where it was -/
  returns : ∀ ps s p l s', X.Program ps s → p.path = .loan l → X.Publishes s p s' →
    (X.loans s').samples = Function.update (X.loans s).samples l (some .empty) ∧
    ∃ F, ((X.loans s).pools X.me).FreeList (X.config.pool X.me) F ∧
      ((X.loans s').pools X.me).FreeList (X.config.pool X.me) F
  /-- the publish of an empty loan does nothing -/
  unchanged : ∀ ps s l now x, X.Program ps s → (X.loans s).samples l = some x → x.ptr = none →
    X.machine.step s (X.publishLoan l now) = some (s, [])

/-- The state `x` of the loans when a publish began, of loan `l` if it is one, and the state at its
end. -/
def Finished [DecidableEq ι] [DecidableEq L] (l : Option L) (x x' : LoanedSample.State ι L T) : Prop :=
  match l with
  | none => x' = LoanedSample.push x X.me
  | some l => ∃ o, LoanedSample.step X.config (LoanedSample.push x X.me) (.reset l) = some (x', o)

/-- What has to be shown of a class: `shown` are the values that a history published, `stored` is what
they leave in the ring, and `Pending l x s` says that `s` is in a publish that began with the loans as
in `x`, of loan `l` if it is one. -/
structure Lawful [DecidableEq ι] [DecidableEq L] [Inhabited T] (shown : List ε → List (T × K))
    (stored : List (T × K) → Nat × (Nat → Slot n W))
    (Pending : Option L → LoanedSample.State ι L T → σ → Prop) : Prop where
  free_init : X.free X.machine.init = true
  loans_init : X.loans X.machine.init = LoanedSample.init X.config
  shown_nil : shown [] = []
  shown_append : ∀ tr o, shown (tr ++ o) = shown tr ++ shown o
  state : ∀ {tr s}, X.machine.Runs Machine.free tr s → X.free s = true →
    ((X.ring s).writePos, (X.ring s).slots) = stored (shown tr) ∧
      (X.loans s).sequence X.me = u64 (shown tr).length
  /-- subscribers -/
  quiet : ∀ {s a s' o}, X.own a = false → X.machine.step s a = some (s', o) → shown o = [] ∧
    X.loans s' = X.loans s ∧ X.free s' = X.free s ∧ ∀ l x, Pending l x s → Pending l x s'
  /-- the single steps of the thread -/
  handle : ∀ {s b s' o}, X.machine.step s (X.handle b) = some (s', o) → shown o = [] ∧
    X.free s' = X.free s ∧ ∃ o', LoanedSample.step X.config (X.loans s) b = some (X.loans s', o')
  publish : ∀ {s v item now s' o}, X.machine.step s (X.publish v item now) = some (s', o) →
    shown o = [(item, now)] ∧ Pending none (X.loans s) s'
  publishLoan : ∀ {s l p i now s' o}, (X.loans s).samples l = some ⟨some p, i⟩ →
    X.machine.step s (X.publishLoan l now) = some (s', o) →
      shown o = [((X.loans s).storage p, now)] ∧ Pending (some l) (X.loans s) s'
  push : ∀ {s b s' o l x}, Pending l x s → X.machine.step s (X.push b) = some (s', o) →
    shown o = [] ∧ Pending l x s'
  finish : ∀ {s acts s' o l x}, Pending l x s → X.machine.exec s acts = some (s', o) →
    acts.filter X.own = X.finish l.isSome → shown o = [] ∧ X.Finished l x (X.loans s')
  /-- the thread is never stuck -/
  own_block : ∀ p pushes, (X.block p pushes).filter X.own = X.block p pushes
  handles : ∀ {s b x o}, X.free s = true → (∀ i l, b ≠ .publish i l) →
    LoanedSample.step X.config (X.loans s) b = some (x, o) →
      ∃ s' o', X.machine.step s (X.handle b) = some (s', o') ∧ X.loans s' = x ∧ X.free s' = true
  completes : ∀ {tr s p}, X.machine.Runs Machine.free tr s → X.free s = true →
    (∀ l, p.path ≠ .loan l) → X.Ready s p →
      ∃ pushes s' o, X.machine.exec s (X.block p pushes) = some (s', o) ∧ X.free s' = true
  unchanged : ∀ {s l now x}, X.free s = true → (X.loans s).samples l = some x → x.ptr = none →
    X.machine.step s (X.publishLoan l now) = some (s, [])

section
variable {X} [DecidableEq ι] [DecidableEq L] [Inhabited T] {shown : List ε → List (T × K)}
  {stored : List (T × K) → Nat × (Nat → Slot n W)}
  {Pending : Option L → LoanedSample.State ι L T → σ → Prop} {ps : List (Publication O L T K)}
  {s s' : σ} {acts : List α} {pushes : List (PushAct n W)} {o : List ε} {l : L} {item : T} {now : K}

theorem Lawful.quiet_exec (h : X.Lawful shown stored Pending) (hacts : ∀ b ∈ acts, X.own b = false)
    (he : X.machine.exec s acts = some (s', o)) : X.loans s' = X.loans s ∧ shown o = [] := by
  refine Machine.exec_frame h.shown_nil h.shown_append (fun s a s' o ha hs => ?_) hacts he
  obtain ⟨ho, hl, -⟩ := h.quiet ha hs
  exact ⟨hl, ho⟩

/-- The accesses of the push, the subscribers running. -/
theorem Lawful.push_exec {r : Option L} {x : LoanedSample.State ι L T}
    (h : X.Lawful shown stored Pending) (hp : Pending r x s) (hf : acts.filter X.own = pushes.map X.push)
    (he : X.machine.exec s acts = some (s', o)) : shown o = [] ∧ Pending r x s' := by
  have hacts : ∀ b ∈ acts, X.own b = false ∨ ∃ c, b = X.push c := by
    intro b hb
    by_cases hown : X.own b = true
    · have hmem : b ∈ acts.filter X.own := List.mem_filter.2 ⟨hb, hown⟩
      rw [hf] at hmem
      obtain ⟨c, -, rfl⟩ := List.mem_map.1 hmem
      exact .inr ⟨c, rfl⟩
    · exact .inl (Bool.eq_false_iff.2 hown)
  have h0 : shown [] = [] ∧ Pending r x s := ⟨h.shown_nil, hp⟩
  refine Machine.exec_invariant (I := fun o t => shown o = [] ∧ Pending r x t) ?_ h0 hacts he
  rintro tr t a t' o ⟨h1, h2⟩ ha hs
  have hstep : shown o = [] ∧ Pending r x t' := by
    rcases ha with ha | ⟨c, rfl⟩
    · obtain ⟨h3, -, -, h4⟩ := h.quiet ha hs
      exact ⟨h3, h4 r x h2⟩
    · exact h.push h2 hs
  exact ⟨by rw [h.shown_append, h1, hstep.1]; rfl, hstep.2⟩

/-- From the `fetch_add` of a publish to its end. -/
theorem Lawful.rest_exec {r : Option L} {x : LoanedSample.State ι L T}
    (h : X.Lawful shown stored Pending) (hp : Pending r x s)
    (hf : acts.filter X.own = pushes.map X.push ++ X.finish r.isSome)
    (he : X.machine.exec s acts = some (s', o)) : shown o = [] ∧ X.Finished r x (X.loans s') := by
  obtain ⟨as₁, as₂, rfl, hf₁, hf₂⟩ := List.filter_eq_append_iff.1 hf
  obtain ⟨s₁, o₁, o₂, he₁, he₂, rfl⟩ := Machine.exec_append_eq_some.1 he
  obtain ⟨ho₁, hp₁⟩ := h.push_exec hp hf₁ he₁
  obtain ⟨ho₂, hend⟩ := h.finish hp₁ he₂ hf₂
  exact ⟨by rw [h.shown_append, ho₁, ho₂]; rfl, hend⟩

theorem Lawful.copy {v : O} (h : X.Lawful shown stored Pending)
    (he : X.machine.exec s acts = some (s', o))
    (hf : acts.filter X.own = X.block ⟨.copy v, item, now⟩ pushes) :
    shown o = [(item, now)] ∧ X.loans s' = LoanedSample.push (X.loans s) X.me := by
  obtain ⟨as₁, s₁, o₁, s₂, o₂, as₂, o₃, hq, he₁, hs, he₂, hf₂, rfl⟩ := Machine.exec_filter_cons he hf
  obtain ⟨hl₁, ho₁⟩ := h.quiet_exec hq he₁
  obtain ⟨ho₂, hp⟩ := h.publish hs
  rw [hl₁] at hp
  obtain ⟨ho₃, hend⟩ := h.rest_exec hp hf₂ he₂
  exact ⟨by rw [h.shown_append, h.shown_append, ho₁, ho₂, ho₃]; rfl, hend⟩

theorem Lawful.held {q : Ptr ι} {i : Option ι} (h : X.Lawful shown stored Pending)
    (hl : (X.loans s).samples l = some ⟨some q, i⟩) (hitem : (X.loans s).storage q = item)
    (he : X.machine.exec s acts = some (s', o))
    (hf : acts.filter X.own = X.block ⟨.held l, item, now⟩ pushes) :
    shown o = [(item, now)] ∧
      ∃ o', LoanedSample.step X.config (X.loans s) (.publish X.me l) = some (X.loans s', o') := by
  obtain ⟨as₁, s₁, o₁, s₂, o₂, as₂, o₃, hq, he₁, hs, he₂, hf₂, rfl⟩ := Machine.exec_filter_cons he hf
  obtain ⟨hl₁, ho₁⟩ := h.quiet_exec hq he₁
  obtain ⟨ho₂, hp⟩ := h.publishLoan (by rw [hl₁]; exact hl) hs
  rw [hl₁] at hp ho₂
  rw [hitem] at ho₂
  obtain ⟨ho₃, x, hreset⟩ := h.rest_exec hp hf₂ he₂
  exact ⟨by rw [h.shown_append, h.shown_append, ho₁, ho₂, ho₃]; rfl,
    LoanedSample.publish_of_reset hl rfl hreset⟩

theorem Lawful.loan (h : X.Lawful shown stored Pending)
    (hpool : (((X.loans s).pools X.me).acquire (X.config.pool X.me)).1 ≠ none)
    (he : X.machine.exec s acts = some (s', o))
    (hf : acts.filter X.own = X.block ⟨.loan l, item, now⟩ pushes) :
    shown o = [(item, now)] ∧ ∃ o', (LoanedSample.machine X.config).exec (X.loans s)
      [.loan X.me l, .fill l item, .publish X.me l] = some (X.loans s', o') := by
  obtain ⟨as₁, s₁, o₁, t₁, q₁, bs₁, r₁, hq₁, he₁, hs₁, ht₁, hf₁, rfl⟩ := Machine.exec_filter_cons he hf
  obtain ⟨as₂, s₂, o₂, t₂, q₂, bs₂, r₂, hq₂, he₂, hs₂, ht₂, hf₂, rfl⟩ := Machine.exec_filter_cons ht₁ hf₁
  obtain ⟨hl₁, ho₁⟩ := h.quiet_exec hq₁ he₁
  obtain ⟨hp₁, -, x₁, hloan⟩ := h.handle hs₁
  obtain ⟨hl₂, ho₂⟩ := h.quiet_exec hq₂ he₂
  obtain ⟨hp₂, -, x₂, hfill⟩ := h.handle hs₂
  rw [hl₁] at hloan
  rw [hl₂] at hfill
  obtain ⟨p, pool, hacq, hfilled⟩ := LoanedSample.loan_fill hpool hloan hfill
  have hsample : (X.loans t₂).samples l = some ⟨some ⟨X.me, p⟩, some X.me⟩ := by
    rw [hfilled]
    exact Function.update_self _ _ _
  have hitem : (X.loans t₂).storage ⟨X.me, p⟩ = item := by
    rw [hfilled]
    exact Function.update_self _ _ _
  -- from here on the loan is one that was taken before
  obtain ⟨hr₂, x₃, hend⟩ := h.held hsample hitem ht₂ hf₂
  refine ⟨?_, _, Machine.exec_cons_eq_some.2 ⟨_, _, _, hloan, Machine.exec_cons_eq_some.2
    ⟨_, _, _, hfill, Machine.exec_cons_eq_some.2 ⟨_, _, _, hend, Machine.exec_nil _, rfl⟩, rfl⟩, rfl⟩⟩
  simp only [h.shown_append, ho₁, hp₁, ho₂, hp₂, hr₂]
  rfl

theorem Lawful.exec_block {tr : List ε} {p : Publication O L T K} (h : X.Lawful shown stored Pending)
    (hr : X.machine.Runs Machine.free tr s) (hs : X.free s = true) (hready : X.Ready s p) :
    ∃ pushes s' o, X.machine.exec s (X.block p pushes) = some (s', o) ∧ X.free s' = true := by
  rcases p with ⟨v | l | l, item, now⟩
  · exact h.completes hr hs (by simp) hready
  · obtain ⟨x₁, o₁, x₂, o₂, q, h1, h2, hl, hitem⟩ :=
      LoanedSample.exists_loan_fill item hready.1 hready.2
    obtain ⟨s₁, r₁, hs₁, rfl, hfree₁⟩ := h.handles hs (by simp) h1
    obtain ⟨s₂, r₂, hs₂, rfl, hfree₂⟩ := h.handles hfree₁ (by simp) h2
    obtain ⟨pushes, s', o, he, hend⟩ :=
      h.completes (p := ⟨.held l, item, now⟩) ((hr.step trivial hs₁).step trivial hs₂) hfree₂ (by simp)
        ⟨q, _, hl, hitem⟩
    exact ⟨pushes, s', _, Machine.exec_cons_eq_some.2 ⟨_, _, _, hs₁, Machine.exec_cons_eq_some.2
      ⟨_, _, _, hs₂, he, rfl⟩, rfl⟩, hend⟩
  · exact h.completes hr hs (by simp) hready

theorem Lawful.exists_publishes {tr : List ε} {p : Publication O L T K}
    (h : X.Lawful shown stored Pending) (hr : X.machine.Runs Machine.free tr s) (hs : X.free s = true)
    (hready : X.Ready s p) : ∃ s', X.Publishes s p s' := by
  obtain ⟨pushes, s', o, he, hend⟩ := h.exec_block hr hs hready
  exact ⟨s', hready, ⟨_, pushes, o, he, h.own_block p pushes⟩, hend⟩

theorem Lawful.silent {a : α} (h : X.Lawful shown stored Pending) (hs : X.free s = true)
    (ha : X.Silent s a) (hstep : X.machine.step s a = some (s', o)) :
    shown o = [] ∧ X.free s' = true ∧ (X.loans s' = X.loans s ∨
      ∃ b o', LoanedSample.step X.config (X.loans s) b = some (X.loans s', o')) := by
  rcases ha with ha | ⟨b, rfl⟩ | ⟨l, now, x, rfl, hx, hptr⟩
  · obtain ⟨ho, hl, hfree, -⟩ := h.quiet ha hstep
    exact ⟨ho, hfree.trans hs, .inl hl⟩
  · obtain ⟨ho, hfree, o', hb⟩ := h.handle hstep
    exact ⟨ho, hfree.trans hs, .inr ⟨b, o', hb⟩⟩
  · rw [h.unchanged hs hx hptr] at hstep
    cases hstep
    exact ⟨h.shown_nil, hs, .inl rfl⟩

theorem Lawful.shown_publishes {p : Publication O L T K} (h : X.Lawful shown stored Pending)
    (hready : X.Ready s p) (he : X.machine.exec s acts = some (s', o))
    (hf : acts.filter X.own = X.block p pushes) : shown o = [p.value] := by
  rcases p with ⟨v | l | l, item, now⟩
  · exact (h.copy he hf).1
  · exact (h.loan hready.2 he hf).1
  · obtain ⟨q, i, hl, hitem⟩ := hready
    exact (h.held hl hitem he hf).1

theorem Lawful.owns_publishes {p : Publication O L T K} (h : X.Lawful shown stored Pending)
    (hp : X.Publishes s p s') (hown : ∃ own, LoanedSample.Owns X.config (X.loans s) own) :
    ∃ own, LoanedSample.Owns X.config (X.loans s') own := by
  obtain ⟨hready, ⟨acts, pushes, o, he, hf⟩, -⟩ := hp
  rcases p with ⟨v | l | l, item, now⟩
  · obtain ⟨own, hown⟩ := hown
    rw [(h.copy he hf).2]
    exact ⟨own, hown.congr rfl (fun _ => .inl rfl) rfl⟩
  · obtain ⟨-, o', hexec⟩ := h.loan hready.2 he hf
    refine Machine.exec_preserves (P := fun _ => True)
      (I := fun x => ∃ own, LoanedSample.Owns X.config x own) ?_ hown (by simp) hexec
    rintro x a x' o ⟨own, hown⟩ - hstep
    exact (hown.step hstep).1
  · obtain ⟨own, hown⟩ := hown
    obtain ⟨q, i, hl, hitem⟩ := hready
    obtain ⟨-, o', hstep⟩ := h.held hl hitem he hf
    exact (hown.step hstep).1

/-- The states of a program: what it has published, and who owns the slots of the pools. -/
theorem Lawful.of_program (h : X.Lawful shown stored Pending) (hprog : X.Program ps s) :
    X.free s = true ∧ (∃ own, LoanedSample.Owns X.config (X.loans s) own) ∧
      ∃ tr, X.machine.Runs Machine.free tr s ∧ shown tr = ps.map Publication.value := by
  induction hprog with
  | start =>
    refine ⟨h.free_init, ?_, [], .init, h.shown_nil⟩
    rw [h.loans_init]
    exact ⟨_, LoanedSample.owns_init⟩
  | @publish ps s s' p _ hp ih =>
    obtain ⟨hs, hown, tr, hr, htr⟩ := ih
    refine ⟨hp.ends, h.owns_publishes hp hown, ?_⟩
    obtain ⟨hready, ⟨acts, pushes, o, he, hf⟩, -⟩ := hp
    refine ⟨tr ++ o, hr.exec he, ?_⟩
    rw [h.shown_append, htr, h.shown_publishes hready he hf, List.map_append]
    rfl
  | @silent ps s s' a o _ ha hstep ih =>
    obtain ⟨hs, ⟨own, hown⟩, tr, hr, htr⟩ := ih
    obtain ⟨ho, hs', hloans⟩ := h.silent hs ha hstep
    refine ⟨hs', ?_, tr ++ o, hr.step trivial hstep, by rw [h.shown_append, ho, List.append_nil, htr]⟩
    rcases hloans with heq | ⟨b, o', hb⟩
    · rw [heq]
      exact ⟨own, hown⟩
    · exact (hown.step hb).1

theorem Lawful.pathsAgree (h : X.Lawful shown stored Pending) : X.PathsAgree where
  same ps ps' s s' hprog hprog' heq := by
    obtain ⟨hs, -, tr, hr, htr⟩ := h.of_program hprog
    obtain ⟨hs', -, tr', hr', htr'⟩ := h.of_program hprog'
    obtain ⟨hring, hseq⟩ := h.state hr hs
    obtain ⟨hring', hseq'⟩ := h.state hr' hs'
    rw [htr, heq, ← htr'] at hring hseq
    obtain ⟨hw, hslots⟩ := Prod.mk.inj (hring.trans hring'.symm)
    exact ⟨hw, hslots, hseq.trans hseq'.symm⟩
  completes ps s p hprog hready := by
    obtain ⟨hs, -, tr, hr, -⟩ := h.of_program hprog
    exact h.exists_publishes hr hs hready
  returns ps s p l s' hprog hl hp := by
    obtain ⟨-, ⟨own, hown⟩, -⟩ := h.of_program hprog
    obtain ⟨hready, ⟨acts, pushes, o, he, hf⟩, -⟩ := hp
    obtain ⟨path, item, now⟩ := p
    obtain rfl : path = .loan l := hl
    obtain ⟨-, o', hexec⟩ := h.loan hready.2 he hf
    obtain ⟨F, hF, -⟩ := hown.free X.me
    obtain ⟨hsamples, hF', -⟩ := LoanedSample.exec_loan_path hF hready.2 hexec
    exact ⟨hsamples, F, hF, hF'⟩
  unchanged ps s l now x hprog hx hptr := h.unchanged (h.of_program hprog).1 hx hptr

end

end PublisherClass

end Lwipc
