import Mathlib.Data.List.Basic
import Mathlib.Logic.Function.Basic

/-!
# Singly linked lists in an array of successors

`Linked next null a l`: following `next` from `a` visits the nodes `l` in order and then reaches
`null`. The list is determined by the start, so a chain that ends visits no node twice.
-/

/-- The list of nodes that `next` visits from a node on, up to `null`. -/
def Linked {α : Type*} (next : α → α) (null : α) : α → List α → Prop
  | a, [] => a = null
  | a, x :: l => a = x ∧ x ≠ null ∧ Linked next null (next x) l

namespace Linked

variable {α : Type*} {next next' : α → α} {null a x : α} {l l' : List α}

theorem eq_nil (h : Linked next null null l) : l = [] := by
  cases l with
  | nil => rfl
  | cons y l => exact absurd h.1.symm h.2.1

theorem exists_cons (h : Linked next null a l) (ha : a ≠ null) :
    ∃ l', l = a :: l' ∧ Linked next null (next a) l' := by
  cases l with
  | nil => exact absurd h ha
  | cons y l =>
    obtain ⟨rfl, -, h⟩ := h
    exact ⟨l, rfl, h⟩

theorem unique (h : Linked next null a l) (h' : Linked next null a l') : l = l' := by
  induction l generalizing a l' with
  | nil =>
    obtain rfl : a = null := h
    exact h'.eq_nil.symm
  | cons y l ih =>
    obtain ⟨rfl, hne, h⟩ := h
    obtain ⟨l'', rfl, h''⟩ := h'.exists_cons hne
    rw [ih h h'']

/-- The rest of a chain from one of its nodes on. -/
theorem exists_suffix (h : Linked next null a l) (hx : x ∈ l) :
    ∃ l', Linked next null x (x :: l') ∧ l'.length < l.length := by
  induction l generalizing a with
  | nil => cases hx
  | cons y l ih =>
    obtain ⟨rfl, hne, h⟩ := h
    rcases List.mem_cons.1 hx with rfl | hx
    · exact ⟨l, ⟨rfl, hne, h⟩, Nat.lt_succ_self _⟩
    · obtain ⟨l', h', hlen⟩ := ih h hx
      exact ⟨l', h', Nat.lt_succ_of_lt hlen⟩

theorem nodup (h : Linked next null a l) : l.Nodup := by
  induction l generalizing a with
  | nil => exact List.nodup_nil
  | cons y l ih =>
    obtain ⟨rfl, hne, h⟩ := h
    refine List.nodup_cons.2 ⟨fun hmem => ?_, ih h⟩
    -- from a second visit of `a` the chain would go on as from the first
    obtain ⟨l', h', hlen⟩ := h.exists_suffix hmem
    have heq : a :: l = a :: l' := unique ⟨rfl, hne, h⟩ h'
    rw [(List.cons.inj heq).2] at hlen
    exact absurd hlen (Nat.lt_irrefl _)

theorem congr (h : Linked next null a l) (heq : ∀ x ∈ l, next' x = next x) :
    Linked next' null a l := by
  induction l generalizing a with
  | nil => exact h
  | cons y l ih =>
    obtain ⟨rfl, hne, h⟩ := h
    refine ⟨rfl, hne, ?_⟩
    rw [heq a (by simp)]
    exact ih h fun x hx => heq x (by simp [hx])

theorem update [DecidableEq α] (h : Linked next null a l) (hx : x ∉ l) (b : α) :
    Linked (Function.update next x b) null a l := by
  refine h.congr fun y hy => Function.update_of_ne ?_ _ _
  rintro rfl
  exact hx hy

end Linked
