import Lwipc.IPCMessage
import Lwipc.Lib.ReflectedCrc

/-!
# What the checksum of a message detects

`crc32_update` goes through the payload half a byte at a time with a table of 16 words. Each word is
what four single steps of the register make of a half byte, so the loop is the reflected CRC with
polynomial `0xEDB88320`, fed bit by bit, least significant bit of each byte first. The checksums of a
payload and of a corrupted payload then differ by the register of the difference, and this is not zero
for a burst that fits into the register.
-/

namespace Lwipc

open LittleEndian ReflectedCrc

def crcPoly : BitVec 32 := 0xEDB88320

/-! ### The table -/

theorem kTable_eq_iterate : ∀ i < 16, kTable.getD i 0 = (shift crcPoly)^[4] (BitVec.ofNat 32 i) := by
  decide

theorem getLsbD_low (i : Nat) : (0x0F : BitVec 32).getLsbD i = decide (i < 4) := by
  rw [show (0x0F : BitVec 32) = BitVec.ofNat 32 (2 ^ 4 - 1) from rfl, BitVec.getLsbD_ofNat,
    Nat.testBit_two_pow_sub_one]
  by_cases h : i < 4
  · simp [h, show i < 32 by omega]
  · simp [h]

theorem crcNibble_eq_iterate (crc x : BitVec 32) :
    crcNibble crc x = (shift crcPoly)^[4] (crc ^^^ (x &&& 0x0F)) := by
  have hlt : ((crc ^^^ x) &&& 0x0F).toNat < 16 := by
    rw [BitVec.toNat_and]
    exact Nat.lt_of_le_of_lt Nat.and_le_right (by decide)
  -- the low four bits go through the table, the others move down
  have hsplit : crc ^^^ (x &&& 0x0F) = (crc &&& ~~~0x0F) ^^^ ((crc ^^^ x) &&& 0x0F) := by
    apply BitVec.eq_of_getLsbD_eq
    intro i hi
    simp only [BitVec.getLsbD_xor, BitVec.getLsbD_and, BitVec.getLsbD_not, getLsbD_low, hi]
    cases crc.getLsbD i <;> cases x.getLsbD i <;> cases decide (i < 4) <;> rfl
  have hhigh : (shift crcPoly)^[4] (crc &&& ~~~0x0F) = crc >>> 4 := by
    rw [iterate_shift_of_low]
    · apply BitVec.eq_of_getLsbD_eq
      intro i hi
      simp only [BitVec.getLsbD_ushiftRight, BitVec.getLsbD_and, BitVec.getLsbD_not, getLsbD_low]
      by_cases h : 4 + i < 32
      · simp [h]
      · rw [BitVec.getLsbD_of_ge crc _ (by omega)]
        rfl
    · intro i hi
      simp only [BitVec.getLsbD_and, BitVec.getLsbD_not, getLsbD_low]
      simp [hi]
  unfold crcNibble
  rw [hsplit, iterate_shift_xor, hhigh, kTable_eq_iterate _ hlt, BitVec.ofNat_toNat, BitVec.setWidth_eq]

/-- A byte is eight steps, the byte entering at once. -/
theorem crcByte_eq_iterate (crc : BitVec 32) (p : Byte) :
    crcByte crc p = (shift crcPoly)^[8] (crc ^^^ p.setWidth 32) := by
  have hsplit : crc ^^^ p.setWidth 32 = (crc ^^^ (p.setWidth 32 &&& (0x0F : BitVec 32))) ^^^
      (((p >>> 4).setWidth 32 &&& (0x0F : BitVec 32)) <<< 4) := by
    apply BitVec.eq_of_getLsbD_eq
    intro i hi
    simp only [BitVec.getLsbD_xor, BitVec.getLsbD_and, BitVec.getLsbD_setWidth, getLsbD_low,
      BitVec.getLsbD_shiftLeft, BitVec.getLsbD_ushiftRight, hi]
    by_cases h4 : i < 4
    · simp [h4]
    · by_cases h8 : i < 8
      · simp [h4, show 4 + (i - 4) = i by omega, show i - 4 < 4 by omega, show i - 4 < 32 by omega]
      · simp [h4, show ¬ i - 4 < 4 by omega, BitVec.getLsbD_of_ge p i (by omega)]
  have hdown : (shift crcPoly)^[4] (((p >>> 4).setWidth 32 &&& (0x0F : BitVec 32)) <<< 4) =
      (p >>> 4).setWidth 32 &&& (0x0F : BitVec 32) := by
    rw [iterate_shift_of_low]
    · apply BitVec.eq_of_getLsbD_eq
      intro i hi
      simp only [BitVec.getLsbD_ushiftRight, BitVec.getLsbD_shiftLeft, BitVec.getLsbD_and, getLsbD_low,
        Nat.add_sub_cancel_left]
      by_cases h4 : i < 4
      · simp [h4, show 4 + i < 32 by omega]
      · simp [h4]
    · intro i hi
      simp [hi]
  unfold crcByte
  rw [crcNibble_eq_iterate, crcNibble_eq_iterate, Function.iterate_add_apply _ 4 4, hsplit,
    iterate_shift_xor _ 4 _ (((p >>> 4).setWidth 32 &&& (0x0F : BitVec 32)) <<< 4), hdown]

/-! ### The plain algorithm -/

/-- One step of CRC-32: shift, and subtract the polynomial if a one fell out. -/
def crc32Bit (crc : BitVec 32) : BitVec 32 :=
  if crc &&& 1 = 1 then (crc >>> 1) ^^^ 0xEDB88320 else crc >>> 1

/-- CRC-32 without a table: a byte enters the low eight bits, then eight steps. -/
def crc32Bitwise (crc : BitVec 32) (data : List Byte) : BitVec 32 :=
  data.foldl (fun r p => crc32Bit^[8] (r ^^^ p.setWidth 32)) (crc ^^^ 0xFFFFFFFF) ^^^ 0xFFFFFFFF

theorem and_one_eq_one_iff (crc : BitVec 32) : crc &&& 1 = 1 ↔ crc.getLsbD 0 = true := by
  constructor
  · intro h
    have hbit := congrArg (fun x => x.getLsbD 0) h
    simpa using hbit
  · intro h
    apply BitVec.eq_of_getLsbD_eq
    intro i hi
    rw [BitVec.getLsbD_and]
    rcases Nat.eq_zero_or_pos i with rfl | hpos
    · rw [h]
      rfl
    · have hone : (1 : BitVec 32).getLsbD i = false := by
        rw [BitVec.ofNat_eq_ofNat, BitVec.getLsbD_one]
        simp [Nat.ne_of_gt hpos]
      rw [hone, Bool.and_false]

theorem crc32Bit_eq_shift : crc32Bit = shift crcPoly := by
  funext crc
  unfold crc32Bit shift
  simp only [and_one_eq_one_iff]
  rfl

/-- The table of half bytes computes CRC-32, from every starting value. -/
theorem crc32Update_eq_bitwise (crc : BitVec 32) (data : List Byte) :
    crc32Update crc data = crc32Bitwise crc data := by
  have hbyte : crcByte = fun r p => crc32Bit^[8] (r ^^^ p.setWidth 32) := by
    funext r p
    rw [crc32Bit_eq_shift, crcByte_eq_iterate]
  rw [crc32Update, crc32Bitwise, hbyte]

/-! ### Bit by bit -/

/-- The bits of a byte, least significant first. -/
def bitsOf (p : Byte) : List Bool := (List.range 8).map p.getLsbD

/-- The bits of a payload in the order in which the checksum goes through them. -/
def payloadBits (data : List Byte) : List Bool := data.flatMap bitsOf

@[simp] theorem length_bitsOf (p : Byte) : (bitsOf p).length = 8 := by simp [bitsOf]

theorem ofBits_bitsOf (p : Byte) : ofBits 32 (bitsOf p) = p.setWidth 32 := by
  apply BitVec.eq_of_getLsbD_eq
  intro i hi
  rw [getLsbD_ofBits, BitVec.getLsbD_setWidth]
  unfold bitsOf
  by_cases h : i < 8
  · simp [h]
  · simp [h, BitVec.getLsbD_of_ge p i (by omega)]

theorem crcByte_eq_run (crc : BitVec 32) (p : Byte) : crcByte crc p = run crcPoly crc (bitsOf p) := by
  rw [crcByte_eq_iterate, run_eq_iterate _ (by simp), ofBits_bitsOf, length_bitsOf]

theorem foldl_crcByte (crc : BitVec 32) (data : List Byte) :
    data.foldl crcByte crc = run crcPoly crc (payloadBits data) := by
  induction data generalizing crc with
  | nil => rfl
  | cons p data ih =>
    have hbits : payloadBits (p :: data) = bitsOf p ++ payloadBits data := List.flatMap_cons
    rw [List.foldl_cons, ih, crcByte_eq_run, hbits, run_append]

/-! ### Bursts -/

/-- The bytes of `data`, each with the byte of the pattern at its place. -/
def flip (data pattern : List Byte) : List Byte := List.zipWith (fun p e => p ^^^ e) data pattern

/-- Some bit is set, and all those that are set lie within 32 consecutive bits. -/
def Burst (pattern : List Byte) : Prop :=
  true ∈ payloadBits pattern ∧
    ∃ k, ∀ j, (payloadBits pattern)[j]? = some true → k ≤ j ∧ j < k + 32

theorem payloadBits_flip {data pattern : List Byte} (h : data.length = pattern.length) :
    payloadBits (flip data pattern) = List.zipWith xor (payloadBits data) (payloadBits pattern) := by
  induction data generalizing pattern with
  | nil =>
    cases pattern with
    | nil => rfl
    | cons e pattern => cases h
  | cons p data ih =>
    cases pattern with
    | nil => cases h
    | cons e pattern =>
      have hbyte : bitsOf (p ^^^ e) = List.zipWith xor (bitsOf p) (bitsOf e) := by
        simp [bitsOf, List.range_succ]
      have hrest : payloadBits (flip (p :: data) (e :: pattern)) =
          bitsOf (p ^^^ e) ++ payloadBits (flip data pattern) := rfl
      rw [hrest, ih (Nat.succ.inj h), hbyte, ← List.zipWith_append (by simp)]
      rfl

theorem length_payloadBits (data : List Byte) : (payloadBits data).length = 8 * data.length := by
  induction data with
  | nil => rfl
  | cons p data ih =>
    have hbits : payloadBits (p :: data) = bitsOf p ++ payloadBits data := rfl
    rw [hbits, List.length_append, ih, length_bitsOf, List.length_cons]
    omega

theorem eq_replicate_false {l : List Bool} (h : true ∉ l) : l = List.replicate l.length false :=
  List.eq_replicate_of_mem fun b hb => by
    cases b with
    | false => rfl
    | true => exact absurd hb h

/-- The bits of a burst: nothing, at most 32 bits that are not all clear, nothing. -/
theorem Burst.split {pattern : List Byte} (h : Burst pattern) : ∃ a burst b,
    payloadBits pattern = List.replicate a false ++ burst ++ List.replicate b false ∧
      burst.length ≤ 32 ∧ true ∈ burst := by
  obtain ⟨htrue, k, hk⟩ := h
  generalize payloadBits pattern = bits at htrue hk
  have hpart : bits = bits.take k ++ (bits.drop k).take 32 ++ bits.drop (k + 32) := by
    rw [List.append_assoc, ← List.drop_drop, List.take_append_drop, List.take_append_drop]
  have hleft : true ∉ bits.take k := by
    intro hmem
    obtain ⟨j, hj, hjt⟩ := List.getElem_of_mem hmem
    rw [List.length_take] at hj
    rw [List.getElem_take] at hjt
    have := hk j (by rw [List.getElem?_eq_getElem (by omega), hjt])
    omega
  have hright : true ∉ bits.drop (k + 32) := by
    intro hmem
    obtain ⟨j, hj, hjt⟩ := List.getElem_of_mem hmem
    rw [List.length_drop] at hj
    rw [List.getElem_drop] at hjt
    have := hk (k + 32 + j) (by rw [List.getElem?_eq_getElem (by omega), hjt])
    omega
  refine ⟨(bits.take k).length, (bits.drop k).take 32, (bits.drop (k + 32)).length, ?_,
    List.length_take_le _ _, ?_⟩
  · rw [← eq_replicate_false hleft, ← eq_replicate_false hright]
    exact hpart
  · rw [hpart, List.mem_append, List.mem_append] at htrue
    exact (htrue.resolve_right hright).resolve_left hleft

theorem crc32Update_flip_ne {data pattern : List Byte} (h : data.length = pattern.length)
    (hb : Burst pattern) (crc : BitVec 32) : crc32Update crc (flip data pattern) ≠ crc32Update crc data := by
  obtain ⟨a, burst, b, hbits, hlen, hne⟩ := hb.split
  unfold crc32Update
  intro heq
  have hfold := (BitVec.xor_left_inj _).1 heq
  have hlen' : (payloadBits data).length = (payloadBits pattern).length := by
    rw [length_payloadBits, length_payloadBits, h]
  have hdiff := run_xor crcPoly (crc ^^^ 0xFFFFFFFF) 0 hlen'
  rw [show (crc ^^^ 0xFFFFFFFF) ^^^ 0 = crc ^^^ 0xFFFFFFFF from BitVec.xor_zero] at hdiff
  rw [foldl_crcByte, foldl_crcByte, payloadBits_flip h, hdiff] at hfold
  have htop : crcPoly.getLsbD (32 - 1) = true := by decide
  refine run_burst_ne_zero htop hlen hne a b ?_
  rw [← hbits]
  exact (BitVec.xor_right_inj _).1 (hfold.trans BitVec.xor_zero.symm)

/-- The serialised message with the pattern in its payload. -/
def corrupt (buf pattern : List Byte) : List Byte := buf.take 64 ++ flip (buf.drop 64) pattern

/-- The message whose payload are these bytes. -/
def messageWith (hdr : IPCHeader) (payload : List Byte) : IPCMessage :=
  .new hdr (some fun i => payload.getD i 0) (BitVec.ofNat 32 payload.length)

theorem data_messageWith {hdr : IPCHeader} {payload : List Byte} (hlen : payload.length < 2 ^ 32) :
    (messageWith hdr payload).data = payload := by
  have hn : (BitVec.ofNat 32 payload.length).toNat = payload.length := by
    rw [BitVec.toNat_ofNat, Nat.mod_eq_of_lt hlen]
  show (List.range (BitVec.ofNat 32 payload.length).toNat).map (fun i => payload.getD i 0) = payload
  rw [hn]
  refine List.ext_getElem (by simp) fun i h1 h2 => ?_
  rw [List.getElem_map, List.getElem_range, List.getD_eq_getElem _ _ h2]

/-- A burst of at most 32 bits in the payload of a message is noticed by the receiver: the message
parses, and its checksum does not verify. -/
theorem burst_detected (hdr : IPCHeader) (hv : hdr.valid = true) (payload : List Byte)
    (hne : payload ≠ []) (hlen : payload.length < 2 ^ 32) (pattern : List Byte)
    (hp : pattern.length = payload.length) (hb : Burst pattern) :
    (IPCMessage.fromBuffer (corrupt (messageWith hdr payload).toBuffer pattern)).valid = true ∧
    (IPCMessage.fromBuffer (corrupt (messageWith hdr payload).toBuffer pattern)).verifyChecksum =
      false := by
  have hdata : (messageWith hdr payload).data = payload := data_messageWith hlen
  have hsize : (messageWith hdr payload).header.dataLength.toNat = payload.length := by
    show (BitVec.ofNat 32 payload.length).toNat = _
    rw [BitVec.toNat_ofNat, Nat.mod_eq_of_lt hlen]
  have hsum : (messageWith hdr payload).header.checksum = crc32Update 0 payload := by
    show IPCMessage.computeChecksum (messageWith hdr payload).data = _
    rw [hdata]
    exact if_neg hne
  have hflip : (flip payload pattern).length = payload.length := by
    unfold flip
    rw [List.length_zipWith, hp, Nat.min_self]
  -- what arrives is a message with the same header and the other payload
  obtain ⟨m, hm, hmh, hmd⟩ : ∃ m : IPCMessage,
      corrupt (messageWith hdr payload).toBuffer pattern = m.toBuffer ∧
      m.header = (messageWith hdr payload).header ∧ m.data = flip payload pattern := by
    refine ⟨⟨_, flip payload pattern, true, .inr (hsize.trans hflip.symm)⟩, ?_, rfl, rfl⟩
    unfold corrupt IPCMessage.toBuffer
    rw [List.take_left' (IPCHeader.length_toBytes _), List.drop_left' (IPCHeader.length_toBytes _), hdata]
  have hvalid := m.valid_of_fromBuffer (by rw [hmh]; exact hv) (by rw [hmh, hmd, hsize, hflip])
  have hcont := m.contents_of_fromBuffer hvalid
  rw [hm]
  refine ⟨hvalid, ?_⟩
  obtain ⟨hh, hd⟩ := Prod.mk.inj hcont
  have hnil : flip payload pattern ≠ [] := by
    intro h
    rw [h, List.length_nil] at hflip
    exact hne (List.length_eq_zero_iff.1 hflip.symm)
  unfold IPCMessage.verifyChecksum IPCMessage.computeChecksum
  rw [hvalid, hh, hd, hmh, hmd, hsum, if_neg hnil, Bool.true_and, decide_eq_false_iff_not]
  exact fun h => crc32Update_flip_ne hp.symm hb 0 h.symm

/-- The last bit of one byte and the first bit of the next one. -/
theorem burst_detected_two_bytes :
    Burst [0x80, 0x01] ∧
    (IPCMessage.fromBuffer (corrupt (messageWith .default [7, 9]).toBuffer [0x80, 0x01])).verifyChecksum =
      false := by
  have hb : Burst [0x80, 0x01] := by
    refine ⟨by decide, 7, fun j hj => ?_⟩
    have hlt : j < 16 := (List.getElem?_eq_some_iff.1 hj).1
    have hall : ∀ j < 16, (payloadBits [0x80, 0x01])[j]? = some true → 7 ≤ j ∧ j < 7 + 32 := by decide
    exact hall j hlt hj
  exact ⟨hb, (burst_detected .default rfl [7, 9] (by simp) (by decide) [0x80, 0x01] rfl hb).2⟩

end Lwipc
