import Mathlib.Data.Nat.Bitwise
import Mathlib.Data.Int.ModEq

/-!
# 64-bit words and power-of-two capacities

Unsigned 64-bit values are naturals below `2 ^ 64`, with `u64` taken after every operation that can
leave the range; `s64` is the two's-complement reading of an integer. A ring has a power-of-two
number of slots, so masking a position with `capacity - 1` is taking it modulo the capacity, and
the positions that share a slot are those congruent modulo the capacity.
-/

/-- Wrap to an unsigned 64-bit value. -/
def u64 (n : Nat) : Nat := n % 2 ^ 64

/-- Wrap to a signed 64-bit value. -/
def s64 (x : Int) : Int := x.bmod (2 ^ 64)

theorem u64_of_lt {n : Nat} (h : n < 2 ^ 64) : u64 n = n := Nat.mod_eq_of_lt h

theorem s64_sub_eq_zero {a b : Nat} (ha : a < 2 ^ 64) (hb : b < 2 ^ 64) :
    s64 (s64 a - s64 b) = 0 ↔ a = b := by
  unfold s64
  rw [Int.sub_bmod_bmod, Int.bmod_sub_bmod, ← Int.dvd_iff_bmod_eq_zero]
  constructor
  · intro h
    obtain ⟨k, hk⟩ := h
    omega
  · rintro rfl; simp

/-- Values less than `2 ^ 63` apart are subtracted without wrapping. -/
theorem s64_sub_of_lt {a b : Nat} (h₁ : a < b + 2 ^ 63) (h₂ : b ≤ a + 2 ^ 63) :
    s64 (s64 a - s64 b) = (a : Int) - b := by
  unfold s64
  rw [Int.sub_bmod_bmod, Int.bmod_sub_bmod]
  exact Int.bmod_eq_of_le (by omega) (by omega)

/-- The number of slots of a ring: a power of two, at least 2, that a `size_t` holds. -/
structure Capacity where
  val : Nat
  ge_two : 2 ≤ val
  pow2 : val &&& (val - 1) = 0
  lt : val < 2 ^ 64

namespace Capacity

/-- The smallest ring. -/
def two : Capacity := ⟨2, by decide, by decide, by decide⟩

variable (cap : Capacity)

/-- The slot of a position, `pos & kMask`. -/
def slot (pos : Nat) : Nat := pos &&& (cap.val - 1)

theorem exists_pow : ∃ k, k < 64 ∧ cap.val = 2 ^ k := by
  have h := cap.ge_two
  obtain ⟨k, hk⟩ := (Nat.and_sub_one_eq_zero_iff_isPowerOfTwo (by omega)).1 cap.pow2
  refine ⟨k, ?_, hk⟩
  have := cap.lt
  rw [hk] at this
  exact (Nat.pow_lt_pow_iff_right (by decide)).1 this

theorem pos : 0 < cap.val := Nat.lt_of_lt_of_le (by decide) cap.ge_two

theorem le : cap.val ≤ 2 ^ 63 := by
  obtain ⟨k, hk, h⟩ := cap.exists_pow
  rw [h]
  exact Nat.pow_le_pow_right (by decide) (by omega)

theorem slot_eq_mod (pos : Nat) : cap.slot pos = pos % cap.val := by
  obtain ⟨k, -, h⟩ := cap.exists_pow
  rw [slot, h, Nat.and_two_pow_sub_one_eq_mod]

theorem slot_of_lt {pos : Nat} (h : pos < cap.val) : cap.slot pos = pos := by
  rw [slot_eq_mod]; exact Nat.mod_eq_of_lt h

@[simp] theorem slot_add (pos : Nat) : cap.slot (pos + cap.val) = cap.slot pos := by
  simp [slot_eq_mod]

theorem slot_sub {pos : Nat} (h : cap.val ≤ pos) : cap.slot (pos - cap.val) = cap.slot pos := by
  rw [← cap.slot_add (pos - cap.val), Nat.sub_add_cancel h]

variable {cap}

/-- Two positions of one slot are a whole number of laps apart. -/
theorem add_le_of_slot_eq {p q : Nat} (h : cap.slot p = cap.slot q) (hlt : p < q) :
    p + cap.val ≤ q := by
  rw [slot_eq_mod, slot_eq_mod] at h
  have hd : cap.val ∣ q - p := (Nat.modEq_iff_dvd' (Nat.le_of_lt hlt)).1 h
  have := Nat.le_of_dvd (by omega) hd
  omega

/-- The laps below `2 ^ 63` fill it exactly. -/
theorem sub_add_le_of_slot_eq {p q : Nat} (h : cap.slot p = cap.slot q) (hle : q ≤ p) (hp : p < 2 ^ 63) :
    p - q + cap.val ≤ 2 ^ 63 := by
  rw [slot_eq_mod, slot_eq_mod] at h
  have hd : cap.val ∣ p - q := (Nat.modEq_iff_dvd' hle).1 h.symm
  have hcap : cap.val ∣ 2 ^ 63 := by
    obtain ⟨k, hk, hval⟩ := cap.exists_pow
    rw [hval]
    exact Nat.pow_dvd_pow 2 (by omega)
  obtain ⟨a, ha⟩ := hd
  obtain ⟨b, hb⟩ := hcap
  have hlt : a < b := Nat.lt_of_mul_lt_mul_left (a := cap.val) (by omega)
  have hmul : cap.val * (a + 1) ≤ cap.val * b := Nat.mul_le_mul_left _ hlt
  rw [Nat.mul_add, Nat.mul_one] at hmul
  omega

theorem eq_of_slot_eq {p q : Nat} (h : cap.slot p = cap.slot q) (h₁ : p < q + cap.val)
    (h₂ : q < p + cap.val) : p = q := by
  rcases Nat.lt_trichotomy p q with hlt | rfl | hlt
  · have := add_le_of_slot_eq h hlt; omega
  · rfl
  · have := add_le_of_slot_eq h.symm hlt; omega

/-- `p` is the last position below `w` in its slot. -/
def Current (cap : Capacity) (w p : Nat) : Prop := p < w ∧ w ≤ p + cap.val

theorem Current.eq {w p q : Nat} (hp : cap.Current w p) (hq : cap.Current w q)
    (h : cap.slot p = cap.slot q) : p = q :=
  eq_of_slot_eq h (by have := hp.1; have := hq.2; omega) (by have := hq.1; have := hp.2; omega)

/-- A current position shares its slot with the next position only a whole lap behind. -/
theorem Current.add_eq {w p : Nat} (hp : cap.Current w p) (h : cap.slot p = cap.slot w) :
    w = p + cap.val :=
  Nat.le_antisymm hp.2 (add_le_of_slot_eq h hp.1)

/-- Every slot that holds a position below `w` has a current one. -/
theorem exists_current {q w : Nat} (h : q < w) :
    ∃ p, q ≤ p ∧ cap.slot p = cap.slot q ∧ cap.Current w p := by
  have hm := Nat.mod_lt (w - 1 - q) cap.pos
  have hle := Nat.mod_le (w - 1 - q) cap.val
  have hdm := Nat.div_add_mod (w - 1 - q) cap.val
  refine ⟨q + cap.val * ((w - 1 - q) / cap.val), Nat.le_add_right _ _, ?_, ⟨by omega, by omega⟩⟩
  rw [slot_eq_mod, slot_eq_mod, Nat.add_mul_mod_self_left]

end Capacity
