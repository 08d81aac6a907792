import Lwipc.Lib.LittleEndian

/-!
# Bounded C strings

A character array is a list of bytes, and reading behind its end gives the terminator. `strncmp` and
`strncpy` see of a string the bytes before its terminator, and of these the first `n`.
-/

namespace CString

/-- The string in a character array. -/
def cstr : List Byte → List Byte
  | [] => []
  | x :: a => if x = 0 then [] else x :: cstr a

/-- The difference at the first place where the strings differ, among the first `n`. -/
def strncmp : List Byte → List Byte → Nat → Int
  | _, _, 0 => 0
  | a, b, n + 1 =>
    if a.headD 0 ≠ b.headD 0 then (a.headD 0).toNat - (b.headD 0).toNat
    else if a.headD 0 = 0 then 0
    else strncmp a.tail b.tail n

/-- The first `n` bytes of `dst` are those of the string, filled up with terminators. -/
def strncpy (dst src : List Byte) (n : Nat) : List Byte :=
  (cstr src ++ List.replicate n 0).take n ++ dst.drop n

variable {a b dst src : List Byte} {n : Nat}

@[simp] theorem cstr_nil : cstr [] = [] := rfl

theorem cstr_cons (x : Byte) (a : List Byte) : cstr (x :: a) = if x = 0 then [] else x :: cstr a := rfl

theorem cstr_eq_self (h : 0 ∉ a) : cstr a = a := by
  induction a with
  | nil => rfl
  | cons x a ih =>
    rw [cstr_cons, if_neg fun h0 => h (by simp [h0]), ih fun h0 => h (List.mem_cons_of_mem x h0)]

theorem zero_notMem_cstr (a : List Byte) : 0 ∉ cstr a := by
  induction a with
  | nil => simp
  | cons x a ih =>
    rw [cstr_cons]
    split
    · simp
    · rename_i hx
      simpa using ⟨Ne.symm hx, ih⟩

@[simp] theorem cstr_cstr (a : List Byte) : cstr (cstr a) = cstr a := cstr_eq_self (zero_notMem_cstr a)

theorem cstr_append_zero (h : 0 ∉ a) (l : List Byte) : cstr (a ++ 0 :: l) = a := by
  induction a with
  | nil => simp [cstr_cons]
  | cons x a ih =>
    rw [List.cons_append, cstr_cons, if_neg fun h0 => h (by simp [h0]), ih fun h0 => h (List.mem_cons_of_mem x h0)]

theorem length_cstr_le (h : a[n]? = some 0) : (cstr a).length ≤ n := by
  induction a generalizing n with
  | nil => simp
  | cons x a ih =>
    rw [cstr_cons]
    split
    · exact Nat.zero_le _
    · rename_i hx
      cases n with
      | zero => exact absurd (by simpa using h) hx
      | succ n => exact Nat.succ_le_succ (ih (by simpa using h))

theorem headD_cstr (a : List Byte) : (cstr a).headD 0 = a.headD 0 := by
  cases a with
  | nil => rfl
  | cons x a =>
    rw [cstr_cons]
    split
    · rename_i hx
      exact hx.symm
    · rfl

theorem take_cstr_succ (a : List Byte) (n : Nat) :
    (cstr a).take (n + 1) = if a.headD 0 = 0 then [] else a.headD 0 :: (cstr a.tail).take n := by
  cases a with
  | nil => simp
  | cons x a =>
    rw [cstr_cons]
    by_cases hx : x = 0
    · simp [hx]
    · rw [if_neg hx, List.take_succ_cons]
      exact (if_neg hx).symm

theorem strncmp_eq_zero_iff : strncmp a b n = 0 ↔ (cstr a).take n = (cstr b).take n := by
  induction n generalizing a b with
  | zero => simp [strncmp]
  | succ n ih =>
    rw [strncmp, take_cstr_succ, take_cstr_succ]
    by_cases heq : a.headD 0 = b.headD 0
    · rw [if_neg (not_not.2 heq), heq]
      split
      · simp
      · rw [ih, List.cons_inj_right]
    · rw [if_pos heq]
      have hdiff : ((a.headD 0).toNat : Int) - (b.headD 0).toNat ≠ 0 := fun h0 =>
        heq (BitVec.eq_of_toNat_eq (by omega))
      refine iff_of_false hdiff fun hlist => ?_
      split at hlist <;> split at hlist
      · rename_i h1 h2
        exact heq (h1.trans h2.symm)
      · cases hlist
      · cases hlist
      · exact heq (List.cons.inj hlist).1

/-- A comparison that has come `k` bytes far goes on behind them. -/
theorem strncmp_drop {k : Nat} (hk : k ≤ n) (h : ∀ j, j < k → a.getD j 0 = b.getD j 0 ∧ a.getD j 0 ≠ 0) :
    strncmp a b n = strncmp (a.drop k) (b.drop k) (n - k) := by
  induction k generalizing a b n with
  | zero => simp
  | succ k ih =>
    obtain ⟨m, rfl⟩ : ∃ m, n = m + 1 := ⟨n - 1, by omega⟩
    obtain ⟨heq, hne⟩ := h 0 (by omega)
    have hhead (l : List Byte) : l.headD 0 = l.getD 0 0 := by cases l <;> rfl
    have htail (l : List Byte) (j : Nat) : l.tail.getD j 0 = l.getD (j + 1) 0 := by cases l <;> rfl
    rw [strncmp, hhead, hhead, if_neg (not_not.2 heq), if_neg hne, Nat.add_sub_add_right, ← List.drop_tail,
      ← List.drop_tail]
    refine ih (by omega) fun j hj => ?_
    rw [htail, htail]
    exact h (j + 1) (by omega)

theorem length_strncpy (h : n ≤ dst.length) : (strncpy dst src n).length = dst.length := by
  unfold strncpy
  rw [List.length_append, List.length_take, List.length_append, List.length_replicate, List.length_drop]
  omega

/-- The string that is there after a copy of at most `n` bytes with a terminator behind them. -/
theorem cstr_set_strncpy (h : n < dst.length) (hsrc : 0 ∉ src) :
    cstr ((strncpy dst src n).set n 0) = src.take n := by
  have hset : (strncpy dst src n).set n 0 =
      (src ++ List.replicate n 0).take n ++ 0 :: dst.drop (n + 1) := by
    unfold strncpy
    have hlen : ((src ++ List.replicate n 0).take n).length = n := by simp
    rw [cstr_eq_self hsrc, List.set_append_right _ _ (Nat.le_of_eq hlen), hlen, Nat.sub_self,
      List.drop_eq_getElem_cons h, List.set_cons_zero]
  rw [hset]
  by_cases hle : n ≤ src.length
  · rw [List.take_append_of_le_length hle]
    exact cstr_append_zero (fun h0 => hsrc (List.mem_of_mem_take h0)) _
  · -- a shorter string is followed by its own terminator
    obtain ⟨k, hk⟩ : ∃ k, n - src.length = k + 1 := ⟨n - src.length - 1, by omega⟩
    rw [List.take_append, List.take_of_length_le (show src.length ≤ n by omega), List.take_replicate, hk,
      Nat.min_eq_left (by omega), List.replicate_succ, List.append_assoc, List.cons_append,
      cstr_append_zero hsrc]

end CString
