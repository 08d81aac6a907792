import Mathlib.Logic.Function.Iterate
import Mathlib.Data.List.GetD

/-!
# Cyclic redundancy checks, reflected

A register of `w` bits with the generator polynomial in reflected order: the least significant bit is
the coefficient of the highest power. The register map is linear over exclusive or, and injective when
the polynomial has its top bit; so a message and a corrupted one leave different registers when the
difference is not zero and fits into the register.
-/

namespace ReflectedCrc

variable {w : Nat} (poly : BitVec w)

/-- One step of the register. -/
def shift (r : BitVec w) : BitVec w := if r.getLsbD 0 then (r >>> 1) ^^^ poly else r >>> 1

/-- A message bit enters at the low end. -/
def feed (r : BitVec w) (b : Bool) : BitVec w := shift poly (r ^^^ (BitVec.ofBool b).setWidth w)

/-- The register after a message. -/
def run (r : BitVec w) (bits : List Bool) : BitVec w := bits.foldl (feed poly) r

/-- The word with these bits, the first one the lowest. -/
def ofBits (w : Nat) : List Bool → BitVec w
  | [] => 0
  | b :: bits => (BitVec.ofBool b).setWidth w ^^^ (ofBits w bits <<< 1)

/-! ### Linearity -/

@[simp] theorem shift_zero : shift poly 0 = 0 := by
  simp [shift]

theorem shift_xor (r r' : BitVec w) : shift poly (r ^^^ r') = shift poly r ^^^ shift poly r' := by
  unfold shift
  rw [BitVec.getLsbD_xor, BitVec.ushiftRight_xor_distrib]
  cases r.getLsbD 0 <;> cases r'.getLsbD 0
  · rfl
  · exact BitVec.xor_assoc _ _ _
  · show r >>> 1 ^^^ r' >>> 1 ^^^ poly = r >>> 1 ^^^ poly ^^^ r' >>> 1
    ac_rfl
  · show r >>> 1 ^^^ r' >>> 1 = r >>> 1 ^^^ poly ^^^ (r' >>> 1 ^^^ poly)
    rw [show r >>> 1 ^^^ poly ^^^ (r' >>> 1 ^^^ poly) = r >>> 1 ^^^ r' >>> 1 ^^^ (poly ^^^ poly) by ac_rfl,
      BitVec.xor_self, BitVec.xor_zero]

theorem iterate_shift_xor (n : Nat) (r r' : BitVec w) :
    (shift poly)^[n] (r ^^^ r') = (shift poly)^[n] r ^^^ (shift poly)^[n] r' := by
  induction n generalizing r r' with
  | zero => rfl
  | succ n ih => rw [Function.iterate_succ_apply, shift_xor, ih]; rfl

theorem feed_xor (r r' : BitVec w) (b b' : Bool) :
    feed poly (r ^^^ r') (b ^^ b') = feed poly r b ^^^ feed poly r' b' := by
  have hbit : (BitVec.ofBool (b ^^ b')).setWidth w =
      (BitVec.ofBool b).setWidth w ^^^ (BitVec.ofBool b').setWidth w := by
    rw [← BitVec.setWidth_xor]
    cases b <;> cases b' <;> rfl
  unfold feed
  rw [hbit, ← shift_xor]
  congr 1
  ac_rfl

/-- The registers of two messages differ by the register of their difference. -/
theorem run_xor (r r' : BitVec w) {bits bits' : List Bool} (h : bits.length = bits'.length) :
    run poly (r ^^^ r') (List.zipWith xor bits bits') = run poly r bits ^^^ run poly r' bits' := by
  induction bits generalizing r r' bits' with
  | nil =>
    cases bits' with
    | nil => rfl
    | cons b' bits' => cases h
  | cons b bits ih =>
    cases bits' with
    | nil => cases h
    | cons b' bits' =>
      have hstep := ih (feed poly r b) (feed poly r' b') (Nat.succ.inj h)
      rw [← feed_xor] at hstep
      exact hstep

/-! ### Injectivity -/

variable {poly}

theorem iterate_shift_of_low {n : Nat} {r : BitVec w} (h : ∀ i, i < n → r.getLsbD i = false) :
    (shift poly)^[n] r = r >>> n := by
  induction n with
  | zero => simp
  | succ n ih =>
    rw [Function.iterate_succ_apply', ih fun i hi => h i (Nat.lt_succ_of_lt hi)]
    have hlow : (r >>> n).getLsbD 0 = false := by
      rw [BitVec.getLsbD_ushiftRight]
      exact h n (Nat.lt_succ_self n)
    unfold shift
    rw [hlow, BitVec.shiftRight_add]
    rfl

theorem shift_eq_zero (hp : poly.getLsbD (w - 1) = true) {r : BitVec w} (h : shift poly r = 0) :
    r = 0 := by
  unfold shift at h
  -- a bit shifted out would leave the top bit of the polynomial behind
  have hlow : r.getLsbD 0 = false := by
    by_contra hb
    rw [Bool.not_eq_false] at hb
    rw [if_pos hb] at h
    have htop : ((r >>> 1) ^^^ poly).getLsbD (w - 1) = true := by
      rw [BitVec.getLsbD_xor, BitVec.getLsbD_ushiftRight, BitVec.getLsbD_of_ge r _ (by omega), hp]
      rfl
    rw [h] at htop
    simp at htop
  rw [hlow, if_neg (by simp)] at h
  apply BitVec.eq_of_getLsbD_eq
  intro i hi
  cases i with
  | zero => simpa using hlow
  | succ i =>
    have hbit := congrArg (fun x => x.getLsbD i) h
    simp only [BitVec.getLsbD_ushiftRight] at hbit
    rw [Nat.add_comm i 1, hbit]
    simp

theorem iterate_shift_eq_zero (hp : poly.getLsbD (w - 1) = true) {n : Nat} {r : BitVec w}
    (h : (shift poly)^[n] r = 0) : r = 0 := by
  induction n with
  | zero => exact h
  | succ n ih =>
    rw [Function.iterate_succ_apply'] at h
    exact ih (shift_eq_zero hp h)

/-! ### Bursts -/

theorem getLsbD_ofBits (bits : List Bool) (i : Nat) :
    (ofBits w bits).getLsbD i = (decide (i < w) && bits.getD i false) := by
  induction bits generalizing i with
  | nil => simp [ofBits]
  | cons b bits ih =>
    unfold ofBits
    rw [BitVec.getLsbD_xor, BitVec.getLsbD_setWidth, BitVec.getLsbD_shiftLeft]
    cases i with
    | zero => cases b <;> simp
    | succ i =>
      have hb : (BitVec.ofBool b).getLsbD (i + 1) = false := BitVec.getLsbD_of_ge _ _ (by omega)
      rw [hb, Nat.add_sub_cancel, ih]
      by_cases hi : i + 1 < w
      · simp [hi, Nat.lt_of_succ_lt hi]
      · simp [hi]

/-- As many bits as fit into the register may as well enter all at once. -/
theorem run_eq_iterate (r : BitVec w) {bits : List Bool} (h : bits.length ≤ w) :
    run poly r bits = (shift poly)^[bits.length] (r ^^^ ofBits w bits) := by
  induction bits generalizing r with
  | nil => simp [run, ofBits]
  | cons b bits ih =>
    rw [List.length_cons] at h
    have hdown : shift poly (ofBits w bits <<< 1) = ofBits w bits := by
      have hone : (shift poly)^[1] (ofBits w bits <<< 1) = ofBits w bits <<< 1 >>> 1 :=
        iterate_shift_of_low fun i hi => by simp [show i = 0 by omega]
      rw [Function.iterate_one] at hone
      rw [hone]
      apply BitVec.eq_of_getLsbD_eq
      intro i hi
      rw [BitVec.getLsbD_ushiftRight, BitVec.getLsbD_shiftLeft, Nat.add_comm 1 i, Nat.add_sub_cancel]
      by_cases hlast : i + 1 < w
      · simp [hlast]
      · rw [getLsbD_ofBits, List.getD_eq_default _ _ (by omega)]
        simp
    show run poly (feed poly r b) bits = _
    rw [ih _ (by omega), List.length_cons, Function.iterate_succ_apply, ofBits, ← BitVec.xor_assoc,
      shift_xor poly _ (ofBits w bits <<< 1), hdown]
    rfl

theorem run_append (r : BitVec w) (bits bits' : List Bool) :
    run poly r (bits ++ bits') = run poly (run poly r bits) bits' := List.foldl_append

theorem run_false (r : BitVec w) (n : Nat) :
    run poly r (List.replicate n false) = (shift poly)^[n] r := by
  induction n generalizing r with
  | zero => rfl
  | succ n ih =>
    have hfeed : feed poly r false = shift poly r := by simp [feed]
    rw [List.replicate_succ, Function.iterate_succ_apply, ← ih, ← hfeed]
    rfl

/-- A difference that fits into the register, and is not zero, leaves a register that is not zero. -/
theorem run_burst_ne_zero (hp : poly.getLsbD (w - 1) = true) {burst : List Bool}
    (hlen : burst.length ≤ w) (hne : true ∈ burst) (a b : Nat) :
    run poly 0 (List.replicate a false ++ burst ++ List.replicate b false) ≠ 0 := by
  intro h
  have hzero : (shift poly)^[a] 0 = 0 := Function.iterate_fixed (shift_zero poly) a
  rw [run_append, run_append, run_false, run_false, hzero, run_eq_iterate _ hlen] at h
  have hbits := iterate_shift_eq_zero hp (iterate_shift_eq_zero hp h)
  rw [show (0 : BitVec w) ^^^ ofBits w burst = ofBits w burst from BitVec.zero_xor] at hbits
  obtain ⟨i, hi, htrue⟩ := List.getElem_of_mem hne
  have hbit := getLsbD_ofBits (w := w) burst i
  rw [hbits, List.getD_eq_getElem _ _ hi, htrue] at hbit
  simp [show i < w by omega] at hbit

end ReflectedCrc
