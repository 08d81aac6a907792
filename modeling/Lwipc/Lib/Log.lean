import Mathlib.Data.List.DropRight
import Mathlib.Logic.Function.Basic

/-!
# Logs that keep their latest items

A log is everything ever put into it, read through cursors. Only the last `k` items can still be
read: a cursor that has fallen further behind goes on at the oldest of them. What a cursor delivers
until there is nothing left is the end of the log (`run_takes`), and it depends on what was put and on
the commands for that cursor alone (`run_concerning`).
-/

structure Log (C α : Type*) where
  items : List α
  cursor : C → Nat

namespace Log

inductive Cmd (C α : Type*)
  | put (x : α)
  | place (c : C) (pos : Nat)
  | take (c : C)

variable {C α : Type*} {k : Nat} {l : Log C α} {c : C}

def empty : Log C α := ⟨[], fun _ => 0⟩

/-- The index at which cursor `c` reads on. -/
def next (k : Nat) (l : Log C α) (c : C) : Nat := max (l.cursor c) (l.items.length - k)

/-- Whether a command bears on what cursor `c` delivers. -/
def Cmd.concerns [DecidableEq C] (c : C) : Cmd C α → Bool
  | .put _ => true
  | .place c' _ | .take c' => c' = c

def Cmd.isTake [DecidableEq C] (c : C) : Cmd C α → Bool
  | .take c' => c' = c
  | _ => false

section
variable [DecidableEq C]

def moveTo (l : Log C α) (c : C) (pos : Nat) : Log C α :=
  { l with cursor := Function.update l.cursor c pos }

def step (k : Nat) (l : Log C α) : Cmd C α → Log C α × Option α
  | .put x => ({ l with items := l.items ++ [x] }, none)
  | .place c pos => (l.moveTo c pos, none)
  | .take c =>
    if l.cursor c < l.items.length then (l.moveTo c (l.next k c + 1), l.items[l.next k c]?)
    else (l, none)

def run (k : Nat) (l : Log C α) : List (Cmd C α) → Log C α × List (Option α)
  | [] => (l, [])
  | a :: as => ((run k (step k l a).1 as).1, (step k l a).2 :: (run k (step k l a).1 as).2)

/-- What a list of commands with these results delivered to cursor `c`. -/
def delivered (c : C) (as : List (Cmd C α)) (rs : List (Option α)) : List (Option α) :=
  ((as.zip rs).filter fun x => x.1.isTake c).map Prod.snd

@[simp] theorem items_moveTo (pos : Nat) : (l.moveTo c pos).items = l.items := rfl

@[simp] theorem cursor_moveTo_self (pos : Nat) : (l.moveTo c pos).cursor c = pos :=
  Function.update_self _ _ _

theorem cursor_moveTo_of_ne {c' : C} (h : c' ≠ c) (pos : Nat) :
    (l.moveTo c pos).cursor c' = l.cursor c' :=
  Function.update_of_ne h _ _

@[simp] theorem moveTo_cursor : l.moveTo c (l.cursor c) = l :=
  congrArg (fun f => { l with cursor := f }) (Function.update_eq_self c l.cursor)

theorem step_take_of_lt (h : l.cursor c < l.items.length) :
    l.step k (.take c) = (l.moveTo c (l.next k c + 1), l.items[l.next k c]?) :=
  if_pos h

theorem step_take_of_le (h : l.items.length ≤ l.cursor c) : l.step k (.take c) = (l, none) :=
  if_neg (Nat.not_lt.2 h)

theorem run_cons (a : Cmd C α) (as : List (Cmd C α)) : l.run k (a :: as) =
    (((l.step k a).1.run k as).1, (l.step k a).2 :: ((l.step k a).1.run k as).2) := rfl

/-! ### One cursor alone -/

omit [DecidableEq C] in
theorem next_le (h : l.cursor c ≤ l.items.length) : l.next k c ≤ l.items.length := by
  unfold next
  omega

theorem items_take : (l.step k (.take c)).1.items = l.items := by
  rcases Nat.lt_or_ge (l.cursor c) l.items.length with hlt | hle
  · rw [step_take_of_lt hlt, items_moveTo]
  · rw [step_take_of_le hle]

/-- A cursor at the end of the log stays there. -/
theorem cursor_take (hk : 0 < k) (h : l.cursor c ≤ l.items.length) :
    (l.step k (.take c)).1.cursor c = min (l.next k c + 1) l.items.length := by
  rcases Nat.lt_or_ge (l.cursor c) l.items.length with hlt | hle
  · rw [step_take_of_lt hlt, cursor_moveTo_self]
    unfold next
    omega
  · rw [step_take_of_le hle]
    show l.cursor c = _
    unfold next
    omega

theorem next_take (hk : 0 < k) (h : l.cursor c ≤ l.items.length) :
    (l.step k (.take c)).1.next k c = min (l.next k c + 1) l.items.length := by
  rw [next, cursor_take hk h, items_take]
  unfold next
  omega

theorem result_take (h : l.cursor c ≤ l.items.length) :
    (l.step k (.take c)).2 = l.items[l.next k c]? := by
  rcases Nat.lt_or_ge (l.cursor c) l.items.length with hlt | hle
  · rw [step_take_of_lt hlt]
  · rw [step_take_of_le hle]
    refine (List.getElem?_eq_none ?_).symm
    unfold next
    omega

theorem items_takes (m : Nat) : (l.run k (List.replicate m (.take c))).1.items = l.items := by
  induction m generalizing l with
  | zero => rfl
  | succ m ih => rw [List.replicate_succ, run_cons, ih, items_take]

/-- Taking `m` times: the items from `next` on, then nothing. -/
theorem run_takes (hk : 0 < k) (h : l.cursor c ≤ l.items.length) (m : Nat) :
    (l.run k (List.replicate m (.take c))).2 = (List.range m).map fun i => l.items[l.next k c + i]? := by
  induction m generalizing l with
  | zero => rfl
  | succ m ih =>
    have hle : (l.step k (.take c)).1.cursor c ≤ (l.step k (.take c)).1.items.length := by
      rw [cursor_take hk h, items_take]
      exact Nat.min_le_right _ _
    rw [List.replicate_succ, run_cons, ih hle, result_take h, next_take hk h, items_take,
      List.range_succ_eq_map, List.map_cons, List.map_map]
    refine congrArg _ (List.map_congr_left fun i _ => ?_)
    have hnext := next_le (k := k) h
    show l.items[min (l.next k c + 1) l.items.length + i]? = l.items[l.next k c + (i + 1)]?
    rcases Nat.lt_or_eq_of_le hnext with hlt | heq
    · rw [Nat.min_eq_left hlt]
      congr 1
      omega
    · rw [List.getElem?_eq_none (by omega), List.getElem?_eq_none (by omega)]

theorem cursor_takes (hk : 0 < k) (h : l.cursor c ≤ l.items.length) (m : Nat) :
    (l.run k (List.replicate (m + 1) (.take c))).1.cursor c = min (l.next k c + m + 1) l.items.length := by
  induction m generalizing l with
  | zero => exact cursor_take hk h
  | succ m ih =>
    have hle : (l.step k (.take c)).1.cursor c ≤ (l.step k (.take c)).1.items.length := by
      rw [cursor_take hk h, items_take]
      exact Nat.min_le_right _ _
    rw [List.replicate_succ, run_cons, ih hle, next_take hk h, items_take]
    omega

omit [DecidableEq C] in
/-- What can still be read at `next` is the end of the log. -/
theorem drop_next (h : l.cursor c ≤ l.items.length) :
    l.items.drop (l.next k c) = l.items.rtake (min k (l.items.length - l.cursor c)) := by
  unfold List.rtake next
  congr 1
  omega

/-- Taking until there is nothing left. -/
theorem run_takes_eq (hk : 0 < k) (h : l.cursor c ≤ l.items.length) {xs : List α}
    (hr : (l.run k (List.replicate (xs.length + 1) (.take c))).2 = xs.map some ++ [none]) :
    xs = l.items.rtake (min k (l.items.length - l.cursor c)) := by
  rw [← drop_next h]
  rw [run_takes hk h] at hr
  have hlast : l.items[l.next k c + xs.length]? = none := by
    have := congrArg (·[xs.length]?) hr
    simpa using this
  rw [List.getElem?_eq_none_iff] at hlast
  refine List.ext_getElem? fun i => ?_
  rw [List.getElem?_drop]
  by_cases hi : i < xs.length
  · have := congrArg (·[i]?) hr
    rw [List.getElem?_append_left (by simpa using hi)] at this
    simp only [List.getElem?_map, List.getElem?_range (Nat.lt_succ_of_lt hi), Option.map_some,
      List.getElem?_eq_getElem hi] at this
    rw [List.getElem?_eq_getElem hi]
    exact (Option.some.inj this).symm
  · rw [List.getElem?_eq_none (Nat.not_lt.1 hi), List.getElem?_eq_none (by omega)]

theorem run_takes_all (hk : 0 < k) (h : l.cursor c ≤ l.items.length) :
    (l.run k (List.replicate ((l.items.drop (l.next k c)).length + 1) (.take c))).2 =
      (l.items.drop (l.next k c)).map some ++ [none] := by
  have hnext := next_le (k := k) h
  rw [run_takes hk h]
  refine List.ext_getElem (by simp) fun i h1 h2 => ?_
  rw [List.length_map, List.length_range] at h1
  rw [List.getElem_map, List.getElem_range]
  by_cases hi : i < (l.items.drop (l.next k c)).length
  · rw [List.getElem_append_left (by simpa using hi), List.getElem_map, List.getElem_drop]
    rw [List.length_drop] at hi
    exact List.getElem?_eq_getElem (by omega)
  · rw [List.getElem_append_right (by simpa using Nat.not_lt.1 hi)]
    rw [List.length_drop] at hi
    simp only [List.getElem_singleton]
    exact List.getElem?_eq_none (by omega)

/-! ### Cursors do not disturb each other -/

theorem delivered_cons (a : Cmd C α) (as : List (Cmd C α)) (r : Option α) (rs : List (Option α)) :
    delivered c (a :: as) (r :: rs) =
      if a.isTake c then r :: delivered c as rs else delivered c as rs := by
  unfold delivered
  rw [List.zip_cons_cons, List.filter_cons]
  split <;> rfl

/-- A command for another cursor leaves cursor `c` where it is. -/
theorem step_of_not_concerns {a : Cmd C α} (ha : a.concerns c = false) :
    (l.step k a).1.items = l.items ∧ (l.step k a).1.cursor c = l.cursor c ∧ a.isTake c = false := by
  rcases a with x | ⟨c', pos⟩ | c'
  · cases ha
  · have hc : c ≠ c' := fun h => of_decide_eq_false ha h.symm
    exact ⟨rfl, cursor_moveTo_of_ne hc pos, rfl⟩
  · have hc : c ≠ c' := fun h => of_decide_eq_false ha h.symm
    refine ⟨items_take, ?_, ha⟩
    rcases Nat.lt_or_ge (l.cursor c') l.items.length with hlt | hle
    · rw [step_take_of_lt hlt, cursor_moveTo_of_ne hc]
    · rw [step_take_of_le hle]

/-- A command for cursor `c` reads the items and that cursor. -/
theorem step_of_concerns {l' : Log C α} {a : Cmd C α} (ha : a.concerns c = true)
    (hitems : l'.items = l.items) (hc : l'.cursor c = l.cursor c) :
    (l'.step k a).1.items = (l.step k a).1.items ∧
      (l'.step k a).1.cursor c = (l.step k a).1.cursor c ∧ (l'.step k a).2 = (l.step k a).2 := by
  rcases a with x | ⟨c', pos⟩ | c'
  · exact ⟨by rw [step, step, hitems], hc, rfl⟩
  · obtain rfl : c' = c := of_decide_eq_true ha
    exact ⟨hitems, by simp [step], rfl⟩
  · obtain rfl : c' = c := of_decide_eq_true ha
    have hnext : l'.next k c' = l.next k c' := by rw [next, next, hitems, hc]
    rcases Nat.lt_or_ge (l.cursor c') l.items.length with hlt | hle
    · rw [step_take_of_lt hlt, step_take_of_lt (by rw [hc, hitems]; exact hlt), hnext, hitems]
      exact ⟨hitems, by simp, rfl⟩
    · rw [step_take_of_le hle, step_take_of_le (by rw [hc, hitems]; exact hle)]
      exact ⟨hitems, hc, rfl⟩

/-- Leaving out the commands for other cursors changes nothing for cursor `c`. -/
theorem run_concerning {l' : Log C α} (hitems : l'.items = l.items) (hc : l'.cursor c = l.cursor c)
    (as : List (Cmd C α)) :
    delivered c (as.filter (Cmd.concerns c)) (l'.run k (as.filter (Cmd.concerns c))).2 =
      delivered c as (l.run k as).2 := by
  induction as generalizing l l' with
  | nil => rfl
  | cons a as ih =>
    rw [run_cons, delivered_cons]
    by_cases ha : a.concerns c = true
    · obtain ⟨h1, h2, h3⟩ := step_of_concerns (k := k) ha hitems hc
      rw [List.filter_cons_of_pos ha, run_cons, delivered_cons, ih h1 h2, h3]
    · obtain ⟨h1, h2, h3⟩ := step_of_not_concerns (k := k) (l := l) (Bool.eq_false_iff.2 ha)
      rw [List.filter_cons_of_neg ha, h3, ih (hitems.trans h1.symm) (hc.trans h2.symm)]
      rfl

end

end Log
