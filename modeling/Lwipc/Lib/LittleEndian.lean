import Mathlib.Data.Nat.ModEq
import Mathlib.Data.List.TakeDrop

/-!
# Little-endian fields in byte strings

A field of `w` bits, `w` a multiple of 8, is stored as `w / 8` bytes, least significant first.
`bytes` writes one and `field` reads one at an offset.
-/

abbrev Byte := BitVec 8

namespace LittleEndian

/-- The `n` low bytes of `v`. -/
def toLE : Nat → Nat → List Byte
  | 0, _ => []
  | n + 1, v => BitVec.ofNat 8 v :: toLE n (v / 256)

def fromLE : List Byte → Nat
  | [] => 0
  | b :: bs => b.toNat + 256 * fromLE bs

@[simp] theorem length_toLE (n v : Nat) : (toLE n v).length = n := by
  induction n generalizing v with
  | zero => rfl
  | succ n ih => rw [toLE, List.length_cons, ih]

theorem fromLE_toLE (n v : Nat) : fromLE (toLE n v) = v % 256 ^ n := by
  induction n generalizing v with
  | zero => rw [Nat.pow_zero, Nat.mod_one]; rfl
  | succ n ih =>
    have hpow : 256 ^ (n + 1) = 256 * 256 ^ n := by rw [Nat.pow_succ, Nat.mul_comm]
    rw [toLE, fromLE, ih, BitVec.toNat_ofNat, hpow, Nat.mod_mul]

theorem fromLE_lt (l : List Byte) : fromLE l < 256 ^ l.length := by
  induction l with
  | nil => exact Nat.one_pos
  | cons b l ih =>
    have := b.isLt
    rw [fromLE, List.length_cons, Nat.pow_succ]
    omega

theorem toLE_fromLE (l : List Byte) : toLE l.length (fromLE l) = l := by
  induction l with
  | nil => rfl
  | cons b l ih =>
    have hb := b.isLt
    rw [List.length_cons, toLE, fromLE, show (b.toNat + 256 * fromLE l) / 256 = fromLE l by omega, ih]
    congr 1
    apply BitVec.eq_of_toNat_eq
    rw [BitVec.toNat_ofNat]
    omega

/-- The bytes of a field. -/
def bytes {w : Nat} (v : BitVec w) : List Byte := toLE (w / 8) v.toNat

/-- The field of `w` bits at offset `o`. -/
def field (w o : Nat) (b : List Byte) : BitVec w :=
  BitVec.ofNat w (fromLE ((b.drop o).take (w / 8)))

variable {w w' o : Nat} {b l : List Byte}

@[simp] theorem length_bytes (v : BitVec w) : (bytes v).length = w / 8 := length_toLE _ _

theorem pow_eq (hw : 8 ∣ w) : 256 ^ (w / 8) = 2 ^ w := by
  rw [show 256 = 2 ^ 8 by rfl, ← Nat.pow_mul, Nat.mul_div_cancel' hw]

theorem field_bytes_append (hw : 8 ∣ w) (v : BitVec w) (l : List Byte) :
    field w 0 (bytes v ++ l) = v := by
  have htake : (bytes v ++ l).take (w / 8) = bytes v := by
    rw [List.take_append_of_le_length (by simp), List.take_of_length_le (by simp)]
  rw [field, List.drop_zero, htake, bytes, fromLE_toLE, pow_eq hw, Nat.mod_eq_of_lt v.isLt]
  apply BitVec.eq_of_toNat_eq
  rw [BitVec.toNat_ofNat, Nat.mod_eq_of_lt v.isLt]

theorem bytes_inj (hw : 8 ∣ w) {v v' : BitVec w} : bytes v = bytes v' ↔ v = v' := by
  refine ⟨fun h => ?_, fun h => by rw [h]⟩
  rw [← field_bytes_append hw v [], h, field_bytes_append hw]

theorem field_append (v : BitVec w') (h : w' / 8 ≤ o) :
    field w o (bytes v ++ l) = field w (o - w' / 8) l := by
  have hdrop : (bytes v ++ l).drop o = l.drop (o - w' / 8) := by
    rw [List.drop_append, List.drop_of_length_le (by simpa using h), length_bytes, List.nil_append]
  rw [field, field, hdrop]

theorem bytes_field (hw : 8 ∣ w) (h : o + w / 8 ≤ b.length) :
    bytes (field w o b) = (b.drop o).take (w / 8) := by
  have hlen : ((b.drop o).take (w / 8)).length = w / 8 := by
    rw [List.length_take, List.length_drop]; omega
  have hlt := fromLE_lt ((b.drop o).take (w / 8))
  rw [hlen, pow_eq hw] at hlt
  have hback := toLE_fromLE ((b.drop o).take (w / 8))
  rw [hlen] at hback
  rw [bytes, field, BitVec.toNat_ofNat, Nat.mod_eq_of_lt hlt, hback]

end LittleEndian
