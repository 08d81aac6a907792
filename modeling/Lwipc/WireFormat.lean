import Lwipc.IPCMessage

/-!
# Serialising and parsing messages

`to_buffer` writes the header and the payload, and `from_buffer` reads them back. The bytes accepted are
those that start with the magic and the version and are long enough for the payload length in them,
whatever this length is; the message then carries all of them. The validity flag is not written: a
parsed message is valid, so a message comes back as it was only if it was valid, its header is one that
`from_buffer` accepts, and its payload is as long as its header says. The constructors do not ensure
this.
-/

namespace Lwipc.IPCMessage

open LittleEndian

/-- Parsing the serialised message gives the same flag, header and payload. -/
def RoundTrips (m : IPCMessage) : Prop :=
  (fromBuffer m.toBuffer).valid = m.valid ∧ (fromBuffer m.toBuffer).contents = m.contents

theorem accepts_toBuffer_iff (m : IPCMessage) :
    Accepts m.toBuffer ↔ m.header.valid = true ∧ m.header.dataLength.toNat = m.data.length := by
  unfold Accepts
  rw [ofBytes_toBuffer, length_toBuffer]
  constructor
  · rintro ⟨-, hv, hle⟩
    refine ⟨hv, ?_⟩
    rcases m.sized with hnil | hsize
    · rw [hnil, List.length_nil] at hle ⊢
      omega
    · exact hsize
  · rintro ⟨hv, hsize⟩
    exact ⟨Nat.le_add_right _ _, hv, Nat.le_of_eq (by rw [hsize])⟩

theorem roundTrips_iff (m : IPCMessage) : RoundTrips m ↔
    m.valid = true ∧ m.header.valid = true ∧ m.header.dataLength.toNat = m.data.length := by
  rw [← accepts_toBuffer_iff]
  constructor
  · rintro ⟨hflag, hcont⟩
    by_cases hacc : Accepts m.toBuffer
    · exact ⟨hflag ▸ (fromBuffer_of_accepts hacc).1, hacc⟩
    · -- a refused buffer gives the default message, which is itself accepted
      rw [fromBuffer_of_not_accepts hacc] at hcont
      obtain ⟨hh, hd⟩ := Prod.mk.inj hcont
      refine absurd ((accepts_toBuffer_iff m).2 ?_) hacc
      rw [← hh, ← hd]
      exact ⟨rfl, rfl⟩
  · rintro ⟨hv, hacc⟩
    have hvalid := (fromBuffer_of_accepts hacc).1
    exact ⟨hvalid.trans hv.symm, m.contents_of_fromBuffer hvalid⟩

/-! ### The format -/

/-- The payload length that the bytes announce. -/
def announced (b : List Byte) : Nat := fromLE ((b.drop 32).take 4)

/-- The format, byte by byte. -/
def HasFormat (b : List Byte) : Prop :=
  64 ≤ b.length ∧ b.take 4 = toLE 4 0x4C574950 ∧ b[4]? = some 1 ∧ 64 + announced b ≤ b.length

/-- A copy of `n` bytes at offset `o`, which fails when it would read past the end. -/
def memcpy (b : List Byte) (o n : Nat) : Option (List Byte) :=
  if o + n ≤ b.length then some ((b.drop o).take n) else none

/-- `from_buffer` with each of its copies checked: `none` when one reads past the end. -/
def fromBufferChecked (b : List Byte) : Option (IPCHeader × List Byte × Bool) :=
  if b.length < 64 then some (.default, [], false)
  else do
    let header := IPCHeader.ofBytes (← memcpy b 0 64)
    if header.valid = false then return (.default, [], false)
    let dlen := header.dataLength.toNat
    if dlen > 0 then
      if b.length < 64 + dlen then return (.default, [], false)
      let data ← memcpy b 64 dlen
      return (header, data, true)
    return (header, [], true)

theorem dataLength_ofBytes (b : List Byte) : (IPCHeader.ofBytes b).dataLength.toNat = announced b := by
  have hlt : announced b < 2 ^ 32 :=
    Nat.lt_of_lt_of_le (fromLE_lt _) (Nat.pow_le_pow_right (by decide) (List.length_take_le 4 _))
  exact Nat.mod_eq_of_lt hlt

theorem valid_ofBytes_iff {b : List Byte} (h : 64 ≤ b.length) :
    (IPCHeader.ofBytes b).valid = true ↔ b.take 4 = toLE 4 0x4C574950 ∧ b[4]? = some 1 := by
  have hmagic : bytes (IPCHeader.ofBytes b).magic = b.take 4 := bytes_field (by decide) (by omega)
  have hversion : bytes (IPCHeader.ofBytes b).version = (b.drop 4).take 1 :=
    bytes_field (by decide) (by omega)
  have hbyte : (b.drop 4).take 1 = [b[4]] := List.take_one_drop_eq_of_lt_length (by omega)
  have h4 : b[4]? = some b[4] := List.getElem?_eq_getElem (by omega)
  rw [IPCHeader.valid, Bool.and_eq_true, decide_eq_true_iff, decide_eq_true_iff, ← bytes_inj (by decide),
    hmagic, ← bytes_inj (by decide), hversion, hbyte, h4]
  refine and_congr Iff.rfl ?_
  show [b[4]] = [1] ↔ _
  simp

/-- Reading a header and writing it gives the bytes back. -/
theorem toBytes_ofBytes {b : List Byte} (h : 64 ≤ b.length) : (IPCHeader.ofBytes b).toBytes = b.take 64 := by
  have hjoin (n k l : Nat) : (b.drop n).take k ++ (b.drop (n + k)).take l = (b.drop n).take (k + l) := by
    rw [← List.drop_drop, ← List.take_add]
  have hwrite (w o : Nat) (hw : 8 ∣ w) (ho : o + w / 8 ≤ 64) :
      bytes (field w o b) = (b.drop o).take (w / 8) := bytes_field hw (by omega)
  unfold IPCHeader.toBytes IPCHeader.ofBytes
  -- the members from the last to the first
  rw [hwrite 192 40 (by decide) (by decide), hwrite 32 36 (by decide) (by decide), hjoin 36 4 24,
    hwrite 32 32 (by decide) (by decide), hjoin 32 4 28, hwrite 64 24 (by decide) (by decide),
    hjoin 24 8 32, hwrite 64 16 (by decide) (by decide), hjoin 16 8 40,
    hwrite 32 12 (by decide) (by decide), hjoin 12 4 48, hwrite 16 10 (by decide) (by decide),
    hjoin 10 2 52, hwrite 16 8 (by decide) (by decide), hjoin 8 2 54,
    hwrite 24 5 (by decide) (by decide), hjoin 5 3 56, hwrite 8 4 (by decide) (by decide),
    hjoin 4 1 59, hwrite 32 0 (by decide) (by decide), hjoin 0 4 60]
  rfl

theorem ofBytes_take {b : List Byte} (h : 64 ≤ b.length) :
    IPCHeader.ofBytes (b.take 64) = IPCHeader.ofBytes b := by
  have hback := IPCHeader.ofBytes_append (IPCHeader.ofBytes b) []
  rwa [List.append_nil, toBytes_ofBytes h] at hback

theorem accepts_iff_hasFormat (b : List Byte) : Accepts b ↔ HasFormat b := by
  unfold Accepts HasFormat
  rw [dataLength_ofBytes]
  constructor
  · rintro ⟨hlen, hv, hd⟩
    obtain ⟨hmagic, hversion⟩ := (valid_ofBytes_iff hlen).1 hv
    exact ⟨hlen, hmagic, hversion, hd⟩
  · rintro ⟨hlen, hmagic, hversion, hd⟩
    exact ⟨hlen, (valid_ofBytes_iff hlen).2 ⟨hmagic, hversion⟩, hd⟩

theorem eq_of_contents {m m' : IPCMessage} (hv : m.valid = m'.valid) (hc : m.contents = m'.contents) :
    m = m' := by
  obtain ⟨header, data, valid, sized⟩ := m
  obtain ⟨hh, hd⟩ := Prod.mk.inj hc
  cases hh
  cases hd
  cases hv
  rfl

theorem toBuffer_fromBuffer {b : List Byte} (h : Accepts b) :
    (fromBuffer b).toBuffer = b.take (64 + announced b) := by
  obtain ⟨hh, hd⟩ := Prod.mk.inj (fromBuffer_of_accepts h).2
  rw [toBuffer, hh, hd, toBytes_ofBytes h.1, dataLength_ofBytes, List.take_add]

/-- The checks of `from_buffer` keep its copies within the buffer, and what it returns is what the
unchecked definition gives. -/
theorem fromBufferChecked_eq (b : List Byte) :
    fromBufferChecked b = some ((fromBuffer b).header, (fromBuffer b).data, (fromBuffer b).valid) := by
  unfold fromBufferChecked fromBuffer
  split
  · rfl
  · rename_i hlen
    have hcopy : memcpy b 0 64 = some (b.take 64) := if_pos (by omega)
    rw [hcopy, Option.bind_eq_bind, Option.bind_some, ofBytes_take (by omega)]
    by_cases hv : (IPCHeader.ofBytes b).valid = false
    · simp only [hv, if_true]
      rfl
    · simp only [hv]
      by_cases hd : (IPCHeader.ofBytes b).dataLength.toNat > 0
      · simp only [hd, if_true]
        by_cases hl : b.length < 64 + (IPCHeader.ofBytes b).dataLength.toNat
        · simp only [hl, if_true, dite_true]
          rfl
        · have hpayload : memcpy b 64 (IPCHeader.ofBytes b).dataLength.toNat =
              some ((b.drop 64).take (IPCHeader.ofBytes b).dataLength.toNat) := if_pos (by omega)
          simp only [hl, if_false, dite_false, hpayload]
          rfl
      · simp only [hd, if_false]
        rfl

/-- The buffers accepted are those that have the format; a parsed message carries every byte of the
part of the buffer that it announces, and no copy reads past the end. -/
theorem fromBuffer_exact (b : List Byte) :
    ((fromBuffer b).valid = true ↔ HasFormat b) ∧
    ((fromBuffer b).valid = true →
      (fromBuffer b).header.dataLength.toNat = announced b ∧
      (fromBuffer b).data.length = announced b ∧
      (fromBuffer b).toBuffer = b.take (64 + announced b) ∧
      fromBuffer (fromBuffer b).toBuffer = fromBuffer b) ∧
    ((fromBuffer b).valid = false → fromBuffer b = default) ∧
    fromBufferChecked b = some ((fromBuffer b).header, (fromBuffer b).data, (fromBuffer b).valid) := by
  refine ⟨?_, ?_, ?_, fromBufferChecked_eq b⟩
  · rw [← accepts_iff_hasFormat]
    exact ⟨accepts_of_valid, fun h => (fromBuffer_of_accepts h).1⟩
  · intro hv
    have hacc := accepts_of_valid hv
    obtain ⟨hh, hd⟩ := Prod.mk.inj (fromBuffer_of_accepts hacc).2
    have hdata : (fromBuffer b).header.dataLength.toNat = announced b := by rw [hh, dataLength_ofBytes]
    have hlen : (fromBuffer b).data.length = announced b := by
      have hle := hacc.2.2
      rw [dataLength_ofBytes] at hle
      rw [hd, List.length_take, List.length_drop, dataLength_ofBytes]
      omega
    have hagain := (fromBuffer b).valid_of_fromBuffer (hh ▸ hacc.2.1) (hdata.trans hlen.symm)
    refine ⟨hdata, hlen, toBuffer_fromBuffer hacc, ?_⟩
    exact eq_of_contents (hagain.trans hv.symm) ((fromBuffer b).contents_of_fromBuffer hagain)
  · intro hv
    refine fromBuffer_of_not_accepts fun hacc => ?_
    rw [(fromBuffer_of_accepts hacc).1] at hv
    cases hv

/-! ### Where a message comes from -/

/-- The ways in which a caller obtains a message. -/
inductive Origin
  | default
  | new (hdr : IPCHeader) (payload : Option (Nat → Byte)) (length : BitVec 32)
  | make (type sensorId : BitVec 16) (timestampNs sequence : BitVec 64) (payload : Nat → Byte) (size : Nat)
  | fromBuffer (buf : List Byte)

def Origin.message : Origin → IPCMessage
  | .default => IPCMessage.default
  | .new hdr payload length => IPCMessage.new hdr payload length
  | .make type sensorId timestampNs sequence payload size =>
    IPCMessage.make type sensorId timestampNs sequence payload size
  | .fromBuffer buf => IPCMessage.fromBuffer buf

/-- Arguments for which the message is as its header says: a header with the right magic and version
and a payload, unless none is announced; or bytes that have the format. -/
def Origin.Coherent : Origin → Prop
  | .default => False
  | .new hdr payload length => hdr.valid = true ∧ (payload = none → length = 0)
  | .make .. => True
  | .fromBuffer buf => Accepts buf

theorem length_copied (p : Nat → Byte) (length : BitVec 32) :
    (copied (some p) length).length = length.toNat := by
  simp [copied]

/-- Decoding undoes encoding exactly for the messages that were obtained from coherent arguments. -/
theorem decode_encode_iff (src : Origin) : RoundTrips src.message ↔ src.Coherent := by
  rw [roundTrips_iff]
  cases src with
  | default => exact iff_of_false (fun h => by cases h.1) id
  | new hdr payload length =>
    refine ⟨fun ⟨_, hv, hd⟩ => ⟨hv, ?_⟩, fun ⟨hv, hnull⟩ => ⟨rfl, hv, ?_⟩⟩
    · rintro rfl
      have hzero : length.toNat = 0 := hd
      exact BitVec.eq_of_toNat_eq hzero
    · cases payload with
      | none =>
        obtain rfl := hnull rfl
        rfl
      | some p => exact (length_copied p length).symm
  | make type sensorId timestampNs sequence payload size =>
    exact iff_of_true ⟨rfl, rfl, (length_copied payload _).symm⟩ trivial
  | fromBuffer buf =>
    by_cases hacc : Accepts buf
    · obtain ⟨hvalid, hcont⟩ := fromBuffer_of_accepts hacc
      obtain ⟨hh, hd⟩ := Prod.mk.inj hcont
      refine iff_of_true ⟨hvalid, ?_, ?_⟩ hacc
      · exact hh ▸ hacc.2.1
      · have hle := hacc.2.2
        show (IPCMessage.fromBuffer buf).header.dataLength.toNat = (IPCMessage.fromBuffer buf).data.length
        rw [hh, hd, List.length_take, List.length_drop]
        omega
    · refine iff_of_false (fun h => ?_) hacc
      have hvalid : (IPCMessage.fromBuffer buf).valid = true := h.1
      rw [fromBuffer_of_not_accepts hacc] at hvalid
      cases hvalid

/-- The default-constructed message comes back valid; a message constructed with a null payload and a
length, or with a header of another version, is valid and refused. -/
theorem error_state_not_kept :
    ¬ RoundTrips (Origin.message .default) ∧
    (default.valid = false ∧ (fromBuffer default.toBuffer).valid = true) ∧
    ((new .default none 4).valid = true ∧ (fromBuffer (new .default none 4).toBuffer).valid = false) ∧
    ((new { IPCHeader.default with version := 2 } none 0).valid = true ∧
      (fromBuffer (new { IPCHeader.default with version := 2 } none 0).toBuffer).valid = false) := by
  refine ⟨fun h => ?_, by decide +kernel⟩
  have hflag : (fromBuffer default.toBuffer).valid = false := h.1
  revert hflag
  decide +kernel

end Lwipc.IPCMessage
