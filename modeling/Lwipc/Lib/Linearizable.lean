import Lwipc.Lib.Runs
import Mathlib.Logic.Function.Basic

/-!
# Linearizable histories

A history is the sequence of calls and returns that the clients of a concurrent object see. It is
linearizable when each call can be given one instant between its call and its return at which it takes
effect on an object that does one thing at a time. `Object.Runs` is the object with these instants made
explicit, as silent steps; a machine is linearizable when every step of it is matched by some of its
steps that show the same calls and returns (`Machine.Observed.simulation`).

The outcome of an operation may depend on more than the object's state: whether the state has changed
since the call, and which operations of others have taken effect and not yet returned. An operation that
uses neither is atomic in the strict sense.
-/

/-- A call of `i`, or the return of its call. -/
inductive Hist (ι ω ρ : Type*)
  | call (i : ι) (op : ω)
  | ret (i : ι) (r : ρ)
  deriving DecidableEq

/-- What an operation finds at the instant it takes effect. -/
structure Scene (τ ω : Type*) where
  now : τ
  /-- the state has not changed since the call -/
  quiet : Prop
  /-- somebody else's operation has taken effect and not returned -/
  busy : ω → Prop

structure Object (τ ω ρ : Type*) where
  init : τ
  Outcome : Scene τ ω → ω → ρ → τ → Prop

inductive Status (ω ρ : Type*)
  | idle
  | pending (op : ω) (quiet : Prop)
  | done (op : ω) (r : ρ)

/-- The state has changed under a call, if `same` fails. -/
def Status.after {ω ρ : Type*} (same : Prop) : Status ω ρ → Status ω ρ
  | .pending op quiet => .pending op (quiet ∧ same)
  | st => st

theorem Status.after_of {ω ρ : Type*} {same : Prop} (h : same) (st : Status ω ρ) : st.after same = st := by
  cases st with
  | pending op quiet => simp [after, h]
  | idle | done => rfl

namespace Object

variable {ι τ ω ρ : Type*} [DecidableEq ι]

structure State (ι τ ω ρ : Type*) where
  now : τ
  status : ι → Status ω ρ

namespace State

def set (c : State ι τ ω ρ) (i : ι) (st : Status ω ρ) : State ι τ ω ρ :=
  { c with status := Function.update c.status i st }

/-- The operation of `i` takes effect. -/
def effect (c : State ι τ ω ρ) (i : ι) (op : ω) (r : ρ) (x : τ) : State ι τ ω ρ :=
  ⟨x, Function.update (fun j => (c.status j).after (x = c.now)) i (.done op r)⟩

def scene (c : State ι τ ω ρ) (i : ι) (quiet : Prop) : Scene τ ω :=
  ⟨c.now, quiet, fun op => ∃ j r, j ≠ i ∧ c.status j = .done op r⟩

variable (c : State ι τ ω ρ) (i : ι) (st : Status ω ρ) (op : ω) (r : ρ) (x : τ)

@[simp] theorem set_now : (c.set i st).now = c.now := rfl
@[simp] theorem set_status_self : (c.set i st).status i = st := by simp [set]
@[simp] theorem effect_now : (c.effect i op r x).now = x := rfl
@[simp] theorem effect_status_self : (c.effect i op r x).status i = .done op r := by simp [effect]

theorem set_set (st' : Status ω ρ) : (c.set i st').set i st = c.set i st := by simp [set]

/-- An operation that leaves the state alone disturbs nobody. -/
theorem effect_self : c.effect i op r c.now = c.set i (.done op r) := by
  simp [set, effect, Status.after_of]

variable {c i st} in
theorem set_of_status (h : c.status i = st) : c.set i st = c := by
  subst h
  simp [set]

variable {i} {j : ι}

theorem set_status_of_ne (h : j ≠ i) : (c.set i st).status j = c.status j := by simp [set, h]

theorem effect_status_of_ne (h : j ≠ i) :
    (c.effect i op r x).status j = (c.status j).after (x = c.now) := by simp [effect, h]

end State

/-- The object at work: the history so far and where it stands. -/
inductive Runs (A : Object τ ω ρ) : List (Hist ι ω ρ) → State ι τ ω ρ → Prop
  | init : A.Runs [] ⟨A.init, fun _ => .idle⟩
  | call {H : List (Hist ι ω ρ)} {c : State ι τ ω ρ} (i : ι) (op : ω) (h : A.Runs H c)
      (hi : c.status i = .idle) : A.Runs (H ++ [.call i op]) (c.set i (.pending op True))
  | effect {H : List (Hist ι ω ρ)} {c : State ι τ ω ρ} {i : ι} {op : ω} {quiet : Prop} (r : ρ) (x : τ)
      (h : A.Runs H c) (hi : c.status i = .pending op quiet) (ho : A.Outcome (c.scene i quiet) op r x) :
      A.Runs H (c.effect i op r x)
  | ret {H : List (Hist ι ω ρ)} {c : State ι τ ω ρ} {i : ι} {op : ω} {r : ρ} (h : A.Runs H c)
      (hi : c.status i = .done op r) : A.Runs (H ++ [.ret i r]) (c.set i .idle)

/-- An operation that leaves the state alone. -/
theorem Runs.observe {A : Object τ ω ρ} {H : List (Hist ι ω ρ)} {c : State ι τ ω ρ} {i : ι} {op : ω}
    {quiet : Prop} {r : ρ} (h : A.Runs H (c.set i (.pending op quiet)))
    (ho : A.Outcome ((c.set i (.pending op quiet)).scene i quiet) op r c.now) :
    A.Runs H (c.set i (.done op r)) := by
  have heff := h.effect r c.now (c.set_status_self i _) ho
  rwa [← State.set_now c i (.pending op quiet), State.effect_self, State.set_set] at heff

/-- Every call of the history can be given an instant at which it takes effect on `A`. -/
def Linearizable (A : Object τ ω ρ) (H : List (Hist ι ω ρ)) : Prop := ∃ c : State ι τ ω ρ, A.Runs H c

end Object

namespace Machine

variable {σ α ε : Type*} {M : Machine σ α ε} {ok : List ε → σ → α → Prop} {tr : List ε} {s : σ}
variable {ι τ ω ρ : Type*} [DecidableEq ι] {A : Object τ ω ρ} {view : σ → α → σ → List (Hist ι ω ρ)}
  {H : List (Hist ι ω ρ)}

/-- Forward simulation by the object, for runs whose events stay in `B`. -/
theorem Observed.simulation {R : List ε → σ → Object.State ι τ ω ρ → Prop} {B : List ε → Prop}
    (hB : ∀ tr o, B (tr ++ o) → B tr) (h0 : R [] M.init ⟨A.init, fun _ => .idle⟩)
    (hstep : ∀ {tr H s a s' o c}, B (tr ++ o) → M.Runs ok tr s → ok tr s a → M.step s a = some (s', o) →
      A.Runs H c → R tr s c → ∃ c', A.Runs (H ++ view s a s') c' ∧ R (tr ++ o) s' c')
    (h : M.Observed ok view tr H s) (hb : B tr) : ∃ c, A.Runs H c ∧ R tr s c := by
  induction h with
  | init => exact ⟨_, .init, h0⟩
  | step h hok hs ih =>
    obtain ⟨c, hc, hr⟩ := ih (hB _ _ hb)
    exact hstep hb h.runs hok hs hc hr

end Machine
