import Mathlib.Data.List.Basic
import Mathlib.Data.List.Induction
import Mathlib.Order.WellFounded

/-!
# Machines, runs and invariants

A machine is an initial state with a partial step function: `step s a = some (s', o)` says that
action `a` is enabled in `s`, leads to `s'` and shows the events `o`. A run carries the events seen
so far, so an invariant may speak about the history without the state recording it. Each step of a
run meets a side condition `ok` on the history, the state and the action; `free` is no condition.
-/

theorem getElem?_append_of_some {β : Type*} {l l' : List β} {k : Nat} {x : β} (h : l[k]? = some x) :
    (l ++ l')[k]? = some x := by
  rw [List.getElem?_append_left (List.getElem?_eq_some_iff.1 h).1, h]

/-- The events that are all of one kind `f`, read by a `g` that looks for another. -/
theorem filterMap_map_eq_nil {β ε γ : Type*} {f : β → ε} {g : ε → Option γ} (h : ∀ b, g (f b) = none)
    (l : List β) : (l.map f).filterMap g = [] := by
  rw [List.filterMap_map]
  exact List.filterMap_eq_nil_iff.2 fun b _ => h b

/-- An element of a list that has grown by one: the new one, or one that was there. -/
theorem append_singleton_eq_append_cons {β : Type*} {l l₁ l₂ : List β} {e e' : β}
    (h : l ++ [e] = l₁ ++ e' :: l₂) : (l = l₁ ∧ e = e') ∨ ∃ l₃, l = l₁ ++ e' :: l₃ := by
  rcases List.eq_nil_or_concat l₂ with rfl | ⟨l₃, x, rfl⟩
  · obtain ⟨hl, he⟩ := List.append_inj' h rfl
    exact .inl ⟨hl, List.singleton_inj.1 he⟩
  · rw [List.concat_eq_append, ← List.cons_append, ← List.append_assoc] at h
    exact .inr ⟨l₃, (List.append_inj' h rfl).1⟩

/-- A transition system with named actions `α` and visible events `ε`. -/
structure Machine (σ α ε : Type*) where
  init : σ
  step : σ → α → Option (σ × List ε)

namespace Machine

variable {σ α ε σ' α' ε' : Type*} {M : Machine σ α ε} {M' : Machine σ' α' ε'}

/-- No condition on the steps of a run. -/
def free (_ : List ε) (_ : σ) (_ : α) : Prop := True

/-- `M.Runs ok tr s`: `M` reaches `s` showing `tr`, every step on the way meeting `ok`. -/
inductive Runs (M : Machine σ α ε) (ok : List ε → σ → α → Prop) : List ε → σ → Prop
  | init : M.Runs ok [] M.init
  | step {tr : List ε} {s s' : σ} {a : α} {o : List ε} (h : M.Runs ok tr s) (hok : ok tr s a)
      (hs : M.step s a = some (s', o)) : M.Runs ok (tr ++ o) s'

/-- Run a list of actions from `s`, collecting the events. -/
def exec (M : Machine σ α ε) (s : σ) : List α → Option (σ × List ε)
  | [] => some (s, [])
  | a :: as => (M.step s a).bind fun (s', o) => (M.exec s' as).map fun (s'', o') => (s'', o ++ o')

/-- The state and the events after a list of actions from the start. -/
def after (M : Machine σ α ε) (as : List α) : σ × List ε := (M.exec M.init as).getD (M.init, [])

/-- The machine from another state on. -/
def startAt (M : Machine σ α ε) (s : σ) : Machine σ α ε := ⟨s, M.step⟩

/-- The machine that refuses the actions failing the test `g`. -/
def restrict (M : Machine σ α ε) (g : σ → α → Bool) : Machine σ α ε :=
  ⟨M.init, fun s a => if g s a = true then M.step s a else none⟩

@[simp] theorem exec_nil (s : σ) : M.exec s [] = some (s, []) := rfl

theorem exec_cons {s s' : σ} {a : α} {as : List α} {o : List ε} (h : M.step s a = some (s', o)) :
    M.exec s (a :: as) = (M.exec s' as).map fun (s'', o') => (s'', o ++ o') := by
  simp [exec, h]

theorem exec_cons_eq_some {s s'' : σ} {a : α} {as : List α} {tr : List ε} :
    M.exec s (a :: as) = some (s'', tr) ↔
      ∃ s' o o', M.step s a = some (s', o) ∧ M.exec s' as = some (s'', o') ∧ tr = o ++ o' := by
  simp only [exec, Option.bind_eq_some_iff, Option.map_eq_some_iff, Prod.exists, Prod.mk.injEq]
  constructor
  · rintro ⟨s', o, h, x, o', h', rfl, rfl⟩
    exact ⟨s', o, o', h, h', rfl⟩
  · rintro ⟨s', o, o', h, h', rfl⟩
    exact ⟨s', o, h, s'', o', h', rfl, rfl⟩

theorem exec_append {s s' s'' : σ} {as bs : List α} {tr tr' : List ε}
    (h : M.exec s as = some (s', tr)) (h' : M.exec s' bs = some (s'', tr')) :
    M.exec s (as ++ bs) = some (s'', tr ++ tr') := by
  induction as generalizing s tr with
  | nil =>
    obtain ⟨rfl, rfl⟩ : s = s' ∧ tr = [] := by simpa [eq_comm] using h
    exact h'
  | cons a as ih =>
    obtain ⟨s₁, o, o', hs, he, rfl⟩ := exec_cons_eq_some.1 h
    exact exec_cons_eq_some.2 ⟨s₁, o, o' ++ tr', hs, ih he, by simp⟩

theorem exec_append_eq_some {s s'' : σ} {as bs : List α} {tr : List ε} :
    M.exec s (as ++ bs) = some (s'', tr) ↔
      ∃ s' o o', M.exec s as = some (s', o) ∧ M.exec s' bs = some (s'', o') ∧ tr = o ++ o' := by
  constructor
  · intro h
    induction as generalizing s tr with
    | nil => exact ⟨s, [], tr, rfl, h, rfl⟩
    | cons a as ih =>
      obtain ⟨s₁, o, o', hs, he, rfl⟩ := exec_cons_eq_some.1 h
      obtain ⟨s', o₁, o₂, h1, h2, rfl⟩ := ih he
      exact ⟨s', o ++ o₁, o₂, exec_cons_eq_some.2 ⟨s₁, o, o₁, hs, h1, rfl⟩, h2, by simp⟩
  · rintro ⟨s', o, o', h, h', rfl⟩
    exact exec_append h h'

/-- Of the actions of a thread `p`, the first, and what the other threads do before it. -/
theorem exec_filter_cons {p : α → Bool} {s s' : σ} {as bs : List α} {a : α} {tr : List ε}
    (h : M.exec s as = some (s', tr)) (hf : as.filter p = a :: bs) :
    ∃ as₁ s₁ o₁ s₂ o₂ as₂ o₃, (∀ b ∈ as₁, p b = false) ∧ M.exec s as₁ = some (s₁, o₁) ∧
      M.step s₁ a = some (s₂, o₂) ∧ M.exec s₂ as₂ = some (s', o₃) ∧ as₂.filter p = bs ∧
      tr = o₁ ++ (o₂ ++ o₃) := by
  obtain ⟨as₁, as₂, rfl, hno, -, hrest⟩ := List.filter_eq_cons_iff.1 hf
  obtain ⟨s₁, o₁, o', h1, h2, rfl⟩ := exec_append_eq_some.1 h
  obtain ⟨s₂, o₂, o₃, hs, h3, rfl⟩ := exec_cons_eq_some.1 h2
  exact ⟨as₁, s₁, o₁, s₂, o₂, as₂, o₃, fun b hb => Bool.eq_false_iff.2 (hno b hb), h1, hs, h3, hrest,
    rfl⟩

/-- An induction over the actions of `exec`: `I` may depend on the events shown so far. -/
theorem exec_invariant {I : List ε → σ → Prop} {P : α → Prop}
    (hstep : ∀ tr s a s' o, I tr s → P a → M.step s a = some (s', o) → I (tr ++ o) s')
    {s s' : σ} {as : List α} {tr tr' : List ε} (h0 : I tr s) (hok : ∀ a ∈ as, P a)
    (h : M.exec s as = some (s', tr')) : I (tr ++ tr') s' := by
  induction as generalizing s tr tr' with
  | nil =>
    obtain ⟨rfl, rfl⟩ : s = s' ∧ tr' = [] := by simpa [eq_comm] using h
    simpa using h0
  | cons a as ih =>
    obtain ⟨s₁, o, o', hs, he, rfl⟩ := exec_cons_eq_some.1 h
    rw [← List.append_assoc]
    exact ih (hstep _ _ _ _ _ h0 (hok a (by simp)) hs) (fun b hb => hok b (by simp [hb])) he

/-- The same for an invariant of the state alone. -/
theorem exec_preserves {I : σ → Prop} {P : α → Prop}
    (hstep : ∀ s a s' o, I s → P a → M.step s a = some (s', o) → I s')
    {s s' : σ} {as : List α} {tr : List ε} (h0 : I s) (hok : ∀ a ∈ as, P a)
    (h : M.exec s as = some (s', tr)) : I s' :=
  @exec_invariant σ α ε M (fun _ s => I s) P (fun _ s a s' o => hstep s a s' o) s s' as [] tr h0 hok h

/-- Actions that leave `f` as it is and show nothing that `g` reads. -/
theorem exec_frame {β γ : Type*} {P : α → Prop} {f : σ → β} {g : List ε → List γ} (hnil : g [] = [])
    (happ : ∀ tr o, g (tr ++ o) = g tr ++ g o)
    (hstep : ∀ s a s' o, P a → M.step s a = some (s', o) → f s' = f s ∧ g o = [])
    {s s' : σ} {as : List α} {tr : List ε} (hok : ∀ a ∈ as, P a) (h : M.exec s as = some (s', tr)) :
    f s' = f s ∧ g tr = [] := by
  have h0 : f s = f s ∧ g [] = [] := ⟨rfl, hnil⟩
  refine exec_invariant (I := fun tr t => f t = f s ∧ g tr = []) ?_ h0 hok h
  rintro tr t a t' o ⟨hf, hg⟩ ha hs
  obtain ⟨hf', hg'⟩ := hstep t a t' o ha hs
  exact ⟨hf'.trans hf, by rw [happ, hg, hg', List.append_nil]⟩

namespace Runs

variable {ok ok' : List ε → σ → α → Prop} {tr : List ε} {s : σ}

theorem invariant {I : List ε → σ → Prop} (h0 : I [] M.init)
    (hstep : ∀ tr s a s' o, I tr s → ok tr s a → M.step s a = some (s', o) → I (tr ++ o) s')
    (h : M.Runs ok tr s) : I tr s := by
  induction h with
  | init => exact h0
  | step _ hok hs ih => exact hstep _ _ _ _ _ ih hok hs

/-- The invariant rule for runs whose history stays in `B`, a condition that every prefix of a
history in `B` meets too. -/
theorem invariant_of {I : List ε → σ → Prop} {B : List ε → Prop}
    (hB : ∀ tr o, B (tr ++ o) → B tr) (h0 : I [] M.init)
    (hstep : ∀ tr s a s' o, B (tr ++ o) → I tr s → ok tr s a → M.step s a = some (s', o) →
      I (tr ++ o) s')
    (h : M.Runs ok tr s) (hb : B tr) : I tr s :=
  invariant (I := fun tr s => B tr → I tr s) (fun _ => h0)
    (fun tr s a s' o ih hok hs hb => hstep tr s a s' o hb (ih (hB tr o hb)) hok hs) h hb

/-- Exchanging the condition on the steps, for runs whose history stays in `B`. -/
theorem mono_of {B : List ε → Prop} (hB : ∀ tr o, B (tr ++ o) → B tr) (h : M.Runs ok tr s)
    (hok : ∀ tr s a s' o, B (tr ++ o) → ok tr s a → M.step s a = some (s', o) → ok' tr s a)
    (hb : B tr) : M.Runs ok' tr s := by
  induction h with
  | init => exact .init
  | step _ h hs ih => exact .step (ih (hB _ _ hb)) (hok _ _ _ _ _ hb h hs) hs

theorem mono (h : M.Runs ok tr s)
    (hok : ∀ tr s a s' o, ok tr s a → M.step s a = some (s', o) → ok' tr s a) : M.Runs ok' tr s :=
  mono_of (B := fun _ => True) (fun _ _ _ => trivial) h (fun tr s a s' o _ => hok tr s a s' o) trivial

theorem exec {s' : σ} {as : List α} {tr' : List ε} (h : M.Runs free tr s)
    (he : M.exec s as = some (s', tr')) : M.Runs free (tr ++ tr') s' := by
  refine exec_invariant (I := fun tr s => M.Runs free tr s) (P := fun _ => True) ?_ h (by simp) he
  intro tr s a s' o hr _ hs
  exact hr.step trivial hs

theorem after {as : List α} (h : (M.exec M.init as).isSome = true) :
    M.Runs free (M.after as).2 (M.after as).1 := by
  obtain ⟨⟨s, tr⟩, he⟩ := Option.isSome_iff_exists.1 h
  have hrun : M.Runs free tr s := Runs.init.exec he
  unfold Machine.after
  rw [he]
  exact hrun

/-- A run by its actions, each of which meets a condition on the run up to it. -/
theorem of_after {as : List α} (h : (M.exec M.init as).isSome = true)
    (hok : ∀ k : Fin as.length, ok (M.after (as.take k)).2 (M.after (as.take k)).1 (as.get k)) :
    M.Runs ok (M.after as).2 (M.after as).1 := by
  induction as using List.reverseRecOn with
  | nil => exact .init
  | append_singleton as a ih =>
    obtain ⟨⟨s', tr⟩, he⟩ := Option.isSome_iff_exists.1 h
    obtain ⟨s, o, o', h₁, h₂, rfl⟩ := exec_append_eq_some.1 he
    obtain ⟨s₂, o₂, o₃, hs, hnil, rfl⟩ := exec_cons_eq_some.1 h₂
    obtain ⟨rfl, rfl⟩ : s₂ = s' ∧ [] = o₃ := by simpa using hnil
    have hafter : M.after as = (s, o) := by rw [Machine.after, h₁]; rfl
    have hlast := hok ⟨as.length, by simp⟩
    simp only [List.take_left, List.get_eq_getElem, List.getElem_concat_length, hafter] at hlast
    have hrun := ih (by rw [h₁]; rfl) fun k => by
      have hk := hok ⟨k, Nat.lt_of_lt_of_le k.isLt (by simp)⟩
      simpa [List.take_append_of_le_length k.isLt.le, List.getElem_append_left k.isLt] using hk
    rw [hafter] at hrun
    rw [Machine.after, he, List.append_nil]
    exact hrun.step hlast hs

/-- A run by its actions, with what an evaluation says about its end. -/
theorem exists_of_exec {β : Type*} {f : σ × List ε → β} {as : List α} {b : β}
    (h : (M.exec M.init as).map f = some b) : ∃ tr s, M.Runs free tr s ∧ f (s, tr) = b := by
  obtain ⟨⟨s, tr⟩, he, hf⟩ := Option.map_eq_some_iff.1 h
  exact ⟨tr, s, Runs.init.exec he, hf⟩

theorem append {s' : σ} {tr' : List ε} (h : M.Runs free tr s) (h' : (M.startAt s).Runs ok tr' s') :
    M.Runs free (tr ++ tr') s' := by
  induction h' with
  | init =>
    rw [List.append_nil]
    exact h
  | step _ _ hs ih =>
    rw [← List.append_assoc]
    exact ih.step trivial hs

/-- What holds at the end and not at the start came about by a step on the way. -/
theorem exists_step {P : σ → Prop} (h : M.Runs ok tr s) (h0 : ¬ P M.init) (hP : P s) :
    ∃ tr₁ s₁ a s₂ o tr₂, M.Runs ok tr₁ s₁ ∧ ¬ P s₁ ∧ M.step s₁ a = some (s₂, o) ∧ P s₂ ∧
      (M.startAt s₂).Runs free tr₂ s ∧ tr = tr₁ ++ o ++ tr₂ := by
  induction h with
  | init => exact absurd hP h0
  | @step tr s s' a o h _ hs ih =>
    by_cases hp : P s
    · obtain ⟨tr₁, s₁, a', s₂, o', tr₂, h₁, hn, hs', hp₂, h₂, rfl⟩ := ih hp
      exact ⟨tr₁, s₁, a', s₂, o', tr₂ ++ o, h₁, hn, hs', hp₂, h₂.step trivial hs,
        List.append_assoc _ _ _⟩
    · exact ⟨tr, s, a, s', o, [], h, hp, hs, hP, .init, (List.append_nil _).symm⟩

theorem cons {P : σ → α → Prop} {s' s'' : σ} {a : α} {o tr' : List ε} (hok : P s a)
    (hs : M.step s a = some (s', o)) (h : (M.startAt s').Runs (fun _ => P) tr' s'') :
    (M.startAt s).Runs (fun _ => P) (o ++ tr') s'' := by
  induction h with
  | init =>
    have hinit : (M.startAt s).Runs (fun _ => P) [] s := .init
    rw [List.append_nil]
    exact hinit.step hok hs
  | step _ hok' hs' ih =>
    rw [← List.append_assoc]
    exact ih.step hok' hs'

/-- When the states in `Q` allow a step that leads to `R` or, with a smaller measure, to `Q` again, there
is a run to `R`. -/
theorem exists_of_measure {β : Type*} [LT β] [WellFoundedLT β] (μ : σ → β) {P : σ → α → Prop}
    {Q R : σ → Prop}
    (hstep : ∀ s, Q s → ∃ a s' o, P s a ∧ M.step s a = some (s', o) ∧ (R s' ∨ Q s' ∧ μ s' < μ s))
    (h : Q s) : ∃ tr s', (M.startAt s).Runs (fun _ => P) tr s' ∧ R s' := by
  induction hμ : μ s using WellFoundedLT.induction generalizing s with
  | ind b ih =>
    subst hμ
    obtain ⟨a, s', o, hok, hs, hr | ⟨hq, hlt⟩⟩ := hstep s h
    · exact ⟨_, _, cons hok hs .init, hr⟩
    · obtain ⟨tr, s'', hrun, hr⟩ := ih _ hlt hq rfl
      exact ⟨_, _, cons hok hs hrun, hr⟩

theorem of_restrict {g : σ → α → Bool} (h : (M.restrict g).Runs free tr s) :
    M.Runs (fun _ s a => g s a = true) tr s := by
  induction h with
  | init => exact .init
  | step _ _ hs ih =>
    obtain ⟨hg, hs'⟩ := Option.ite_none_right_eq_some.1 hs
    exact ih.step hg hs'

/-- A run by its actions, each of which passes a test for `ok`. -/
theorem exists_of_restrict (ok : List ε → σ → α → Prop) {β : Type*} {f : σ × List ε → β}
    {g : σ → α → Bool} {as : List α} {b : β} (hg : ∀ tr s a, g s a = true → ok tr s a)
    (h : ((M.restrict g).exec M.init as).map f = some b) : ∃ tr s, M.Runs ok tr s ∧ f (s, tr) = b := by
  obtain ⟨tr, s, hr, hf⟩ := exists_of_exec (M := M.restrict g) h
  exact ⟨tr, s, hr.of_restrict.mono fun tr s a _ _ h _ => hg tr s a h, hf⟩

/-- A machine whose every step is one step of `M'`, or none, runs only as `M'` does: `f` reads the
state of `M'` off the state of `M` and `g` its events off those of `M`. -/
theorem project {f : σ → σ'} {g : List ε → List ε'} {ok' : List ε' → σ' → α' → Prop}
    (hinit : f M.init = M'.init) (hnil : g [] = [])
    (happ : ∀ tr o, g (tr ++ o) = g tr ++ g o)
    (hstep : ∀ tr s a s' o, M.Runs ok tr s → ok tr s a → M.step s a = some (s', o) →
      (f s' = f s ∧ g o = []) ∨
        ∃ a', ok' (g tr) (f s) a' ∧ M'.step (f s) a' = some (f s', g o))
    (h : M.Runs ok tr s) : M'.Runs ok' (g tr) (f s) := by
  induction h with
  | init => rw [hinit, hnil]; exact .init
  | @step tr s s' a o h hok hs ih =>
    rw [happ]
    rcases hstep tr s a s' o h hok hs with ⟨hf, ho⟩ | ⟨a', hok', hs'⟩
    · rw [hf, ho, List.append_nil]; exact ih
    · exact ih.step hok' hs'

end Runs

/-! ### Runs with a view -/

section
variable {η : Type*} {ok : List ε → σ → α → Prop} {view : σ → α → σ → List η} {tr : List ε} {H : List η} {s : σ}

/-- A run together with what `view` reads off its steps. -/
inductive Observed (M : Machine σ α ε) (ok : List ε → σ → α → Prop) (view : σ → α → σ → List η) :
    List ε → List η → σ → Prop
  | init : M.Observed ok view [] [] M.init
  | step {tr : List ε} {H : List η} {s s' : σ} {a : α} {o : List ε} (h : M.Observed ok view tr H s)
      (hok : ok tr s a) (hs : M.step s a = some (s', o)) :
      M.Observed ok view (tr ++ o) (H ++ view s a s') s'

theorem Observed.runs (h : M.Observed ok view tr H s) : M.Runs ok tr s := by
  induction h with
  | init => exact .init
  | step _ hok hs ih => exact ih.step hok hs

/-- Exchanging the condition on the steps, for runs whose events stay in `B`. -/
theorem Observed.mono_of {ok' : List ε → σ → α → Prop} {B : List ε → Prop}
    (hB : ∀ tr o, B (tr ++ o) → B tr) (h : M.Observed ok view tr H s)
    (hok : ∀ tr s a, B tr → ok tr s a → ok' tr s a) (hb : B tr) : M.Observed ok' view tr H s := by
  induction h with
  | init => exact .init
  | step _ h hs ih => exact .step (ih (hB _ _ hb)) (hok _ _ _ (hB _ _ hb) h) hs

/-- What a run costs, when each step is paid for by a potential of the states and by what is credited to
it. -/
theorem Observed.amortized (h : M.Observed ok view tr H s) (Φ : σ → Nat)
    (cost credit : List ε → List η → Nat) (hnil : cost [] [] = 0)
    (hcost : ∀ tr H o H', cost (tr ++ o) (H ++ H') = cost tr H + cost o H')
    (hcredit : ∀ tr H o H', credit (tr ++ o) (H ++ H') = credit tr H + credit o H')
    (hstep : ∀ tr s a s' o, M.Runs ok tr s → ok tr s a → M.step s a = some (s', o) →
      cost o (view s a s') + Φ s' ≤ Φ s + credit o (view s a s')) :
    cost tr H + Φ s ≤ Φ M.init + credit tr H := by
  induction h with
  | init => omega
  | step h hok hs ih =>
    have := hstep _ _ _ _ _ h.runs hok hs
    rw [hcost, hcredit]
    omega

/-- Run a list of actions from `s`, collecting the events and what `view` sees. -/
def watch (M : Machine σ α ε) (view : σ → α → σ → List η) (s : σ) : List α → Option (List ε × List η × σ)
  | [] => some ([], [], s)
  | a :: as => (M.step s a).bind fun (s', o) =>
    (M.watch view s' as).map fun (o', H, s'') => (o ++ o', view s a s' ++ H, s'')

theorem Observed.watch {s' : σ} {as : List α} {tr' : List ε} {H' : List η}
    (h : M.Observed free view tr H s) (hw : M.watch view s as = some (tr', H', s')) :
    M.Observed free view (tr ++ tr') (H ++ H') s' := by
  induction as generalizing s tr H tr' H' with
  | nil =>
    obtain ⟨rfl, rfl, rfl⟩ : [] = tr' ∧ [] = H' ∧ s = s' := by simpa [Machine.watch] using hw
    simpa using h
  | cons a as ih =>
    simp only [Machine.watch, Option.bind_eq_some_iff, Option.map_eq_some_iff, Prod.exists,
      Prod.mk.injEq] at hw
    obtain ⟨s₁, o, hs, o', H₁, s₂, hrest, rfl, rfl, rfl⟩ := hw
    have := ih (h.step trivial hs) hrest
    simpa using this

/-- An observed run by its actions, with what an evaluation says about it. -/
theorem exists_of_watch {β : Type*} {f : List ε × List η × σ → β} {as : List α} {b : β}
    (h : (M.watch view M.init as).map f = some b) :
    ∃ tr H s, M.Observed free view tr H s ∧ f (tr, H, s) = b := by
  obtain ⟨⟨tr, H, s⟩, hw, hf⟩ := Option.map_eq_some_iff.1 h
  exact ⟨tr, H, s, Observed.init.watch hw, hf⟩

theorem Observed.of_restrict {g : σ → α → Bool} (h : (M.restrict g).Observed free view tr H s) :
    M.Observed (fun _ s a => g s a = true) view tr H s := by
  induction h with
  | init => exact .init
  | step _ _ hs ih =>
    obtain ⟨hg, hs'⟩ := Option.ite_none_right_eq_some.1 hs
    exact ih.step hg hs'

/-- An observed run by its actions, each of which passes a test for `ok`. -/
theorem exists_of_watch_restrict (ok : List ε → σ → α → Prop) {β : Type*} {f : List ε × List η × σ → β}
    {g : σ → α → Bool} {as : List α} {b : β} (hg : ∀ tr s a, g s a = true → ok tr s a)
    (h : ((M.restrict g).watch view M.init as).map f = some b) :
    ∃ tr H s, M.Observed ok view tr H s ∧ f (tr, H, s) = b := by
  obtain ⟨tr, H, s, hr, hf⟩ := exists_of_watch (M := M.restrict g) h
  exact ⟨tr, H, s, hr.of_restrict.mono_of (B := fun _ => True) (fun _ _ _ => trivial)
    (fun tr s a _ => hg tr s a) trivial, hf⟩

end

end Machine
