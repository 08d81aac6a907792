import Lwipc.Lib.LittleEndian

/-!
# `IPCHeader` and `IPCMessage`

The header is 64 bytes: its members in declaration order, with the four bytes between `sensor_id` and
`timestamp_ns` that the alignment of the latter leaves unused. Copying a header copies all 64. A
message owns its payload; however it was obtained, it has either no payload or one as long as its
header says.
-/

namespace Lwipc

open LittleEndian

/-! ### CRC-32 -/

def kTable : List (BitVec 32) :=
  [0x00000000, 0x1db71064, 0x3b6e20c8, 0x26d930ac,
   0x76dc4190, 0x6b6b51f4, 0x4db26158, 0x5005713c,
   0xedb88320, 0xf00f9344, 0xd6d6a3e8, 0xcb61b38c,
   0x9b64c2b0, 0x86d3d2d4, 0xa00ae278, 0xbdbdf21c]

/-- Half a byte: the low four bits of the register and of `x` select the table entry. -/
def crcNibble (crc x : BitVec 32) : BitVec 32 :=
  (crc >>> 4) ^^^ kTable.getD ((crc ^^^ x) &&& 0x0F).toNat 0

def crcByte (crc : BitVec 32) (p : Byte) : BitVec 32 :=
  crcNibble (crcNibble crc (p.setWidth 32)) ((p >>> 4).setWidth 32)

def crc32Update (crc : BitVec 32) (data : List Byte) : BitVec 32 :=
  data.foldl crcByte (crc ^^^ 0xFFFFFFFF) ^^^ 0xFFFFFFFF

/-! ### Headers -/

structure IPCHeader where
  magic : BitVec 32
  version : BitVec 8
  pad0 : BitVec 24
  msgType : BitVec 16
  sensorId : BitVec 16
  /-- the unused bytes before `timestampNs` -/
  gap : BitVec 32
  timestampNs : BitVec 64
  sequence : BitVec 64
  dataLength : BitVec 32
  checksum : BitVec 32
  pad1 : BitVec 192
  deriving DecidableEq

namespace IPCHeader

def kMagic : BitVec 32 := 0x4C574950

def kVersion : BitVec 8 := 1

/-- The member initialisers. They leave the padding open; here it is zero. -/
def default : IPCHeader where
  magic := kMagic
  version := kVersion
  pad0 := 0
  msgType := 0
  sensorId := 0
  gap := 0
  timestampNs := 0
  sequence := 0
  dataLength := 0
  checksum := 0
  pad1 := 0

def valid (h : IPCHeader) : Bool := h.magic = kMagic && h.version = kVersion

/-- The object representation. -/
def toBytes (h : IPCHeader) : List Byte :=
  bytes h.magic ++ (bytes h.version ++ (bytes h.pad0 ++ (bytes h.msgType ++ (bytes h.sensorId ++
    (bytes h.gap ++ (bytes h.timestampNs ++ (bytes h.sequence ++ (bytes h.dataLength ++
      (bytes h.checksum ++ bytes h.pad1)))))))))

/-- The header whose object representation is the first 64 bytes. -/
def ofBytes (b : List Byte) : IPCHeader where
  magic := field 32 0 b
  version := field 8 4 b
  pad0 := field 24 5 b
  msgType := field 16 8 b
  sensorId := field 16 10 b
  gap := field 32 12 b
  timestampNs := field 64 16 b
  sequence := field 64 24 b
  dataLength := field 32 32 b
  checksum := field 32 36 b
  pad1 := field 192 40 b

@[simp] theorem length_toBytes (h : IPCHeader) : h.toBytes.length = 64 := by
  simp [toBytes]

theorem ofBytes_append (h : IPCHeader) (l : List Byte) : ofBytes (h.toBytes ++ l) = h := by
  obtain ⟨⟩ := h
  simp [ofBytes, toBytes, field_append, field_bytes_append, List.append_assoc]

end IPCHeader

/-! ### Messages -/

/-- A message: its header, its payload and whether it was constructed or parsed successfully. -/
structure IPCMessage where
  header : IPCHeader
  data : List Byte
  valid : Bool
  sized : data = [] ∨ header.dataLength.toNat = data.length
  deriving DecidableEq

namespace IPCMessage

/-- The default-constructed message, which is invalid. -/
def default : IPCMessage := ⟨.default, [], false, .inl rfl⟩

def computeChecksum (data : List Byte) : BitVec 32 :=
  if data = [] then 0 else crc32Update 0 data

/-- The bytes that the constructor copies: none when `payload` is null. -/
def copied (payload : Option (Nat → Byte)) (length : BitVec 32) : List Byte :=
  match payload with
  | some p => (List.range length.toNat).map p
  | none => []

/-- The constructor; `payload` is null or gives the byte at each offset. -/
def new (hdr : IPCHeader) (payload : Option (Nat → Byte)) (length : BitVec 32) : IPCMessage where
  header := { hdr with dataLength := length, checksum := computeChecksum (copied payload length) }
  data := copied payload length
  valid := true
  sized := by
    cases payload with
    | none => exact .inl rfl
    | some p => exact .inr (by simp [copied])

/-- `make` of a payload of `size` bytes. -/
def make (type sensorId : BitVec 16) (timestampNs sequence : BitVec 64) (payload : Nat → Byte)
    (size : Nat) : IPCMessage :=
  new { IPCHeader.default with msgType := type, sensorId, timestampNs, sequence } (some payload)
    (BitVec.ofNat 32 size)

def fromBuffer (buf : List Byte) : IPCMessage :=
  if buf.length < 64 then default
  else if (IPCHeader.ofBytes buf).valid = false then default
  else if (IPCHeader.ofBytes buf).dataLength.toNat > 0 then
    if hl : buf.length < 64 + (IPCHeader.ofBytes buf).dataLength.toNat then default
    else
      { header := IPCHeader.ofBytes buf
        data := (buf.drop 64).take (IPCHeader.ofBytes buf).dataLength.toNat
        valid := true
        sized := .inr (by rw [List.length_take, List.length_drop]; omega) }
  else ⟨IPCHeader.ofBytes buf, [], true, .inl rfl⟩

def toBuffer (m : IPCMessage) : List Byte := m.header.toBytes ++ m.data

def verifyChecksum (m : IPCMessage) : Bool :=
  m.valid && m.header.checksum = computeChecksum m.data

/-- What a receiver sees of a message. -/
def contents (m : IPCMessage) : IPCHeader × List Byte := (m.header, m.data)

@[simp] theorem length_toBuffer (m : IPCMessage) : m.toBuffer.length = 64 + m.data.length := by
  simp [toBuffer]

theorem length_data_lt (m : IPCMessage) : m.data.length < 2 ^ 32 := by
  rcases m.sized with h | h
  · rw [h]; exact Nat.two_pow_pos 32
  · rw [← h]; exact m.header.dataLength.isLt

theorem ofBytes_toBuffer (m : IPCMessage) : IPCHeader.ofBytes m.toBuffer = m.header :=
  IPCHeader.ofBytes_append _ _

/-- The buffers that `fromBuffer` accepts. -/
def Accepts (buf : List Byte) : Prop :=
  64 ≤ buf.length ∧ (IPCHeader.ofBytes buf).valid = true ∧
    64 + (IPCHeader.ofBytes buf).dataLength.toNat ≤ buf.length

theorem fromBuffer_of_accepts {buf : List Byte} (h : Accepts buf) :
    (fromBuffer buf).valid = true ∧ (fromBuffer buf).contents =
      (IPCHeader.ofBytes buf, (buf.drop 64).take (IPCHeader.ofBytes buf).dataLength.toNat) := by
  obtain ⟨h1, h2, h3⟩ := h
  rw [fromBuffer, if_neg (by omega), if_neg (by simp [h2])]
  split
  · rw [dif_neg (by omega)]
    exact ⟨rfl, rfl⟩
  · rename_i hd
    rw [show (IPCHeader.ofBytes buf).dataLength.toNat = 0 by omega]
    exact ⟨rfl, rfl⟩

theorem fromBuffer_of_not_accepts {buf : List Byte} (h : ¬ Accepts buf) : fromBuffer buf = default := by
  rw [fromBuffer]
  split
  · rfl
  · split
    · rfl
    · rename_i h1 h2
      have h3 : ¬ 64 + (IPCHeader.ofBytes buf).dataLength.toNat ≤ buf.length :=
        fun h3 => h ⟨by omega, by simpa using h2, h3⟩
      rw [if_pos (by omega), dif_pos (by omega)]

theorem accepts_of_valid {buf : List Byte} (h : (fromBuffer buf).valid = true) : Accepts buf := by
  by_contra hn
  rw [fromBuffer_of_not_accepts hn] at h
  cases h

/-- Parsing a serialised message fails or gives the message back. -/
theorem contents_of_fromBuffer (m : IPCMessage) (h : (fromBuffer m.toBuffer).valid = true) :
    (fromBuffer m.toBuffer).contents = m.contents := by
  have hacc := accepts_of_valid h
  rw [(fromBuffer_of_accepts hacc).2, ofBytes_toBuffer]
  have hle := hacc.2.2
  rw [ofBytes_toBuffer, length_toBuffer] at hle
  -- the payload is there, or none is announced
  have hsize : m.header.dataLength.toNat = m.data.length := by
    rcases m.sized with hnil | hsize
    · rw [hnil, List.length_nil] at hle ⊢; omega
    · exact hsize
  rw [toBuffer, List.drop_left' m.header.length_toBytes, List.take_of_length_le (by omega)]
  rfl

/-- A message with a valid header whose payload is as long as the header says is parsed. -/
theorem valid_of_fromBuffer (m : IPCMessage) (hv : m.header.valid = true)
    (hd : m.header.dataLength.toNat = m.data.length) : (fromBuffer m.toBuffer).valid = true := by
  refine (fromBuffer_of_accepts ⟨?_, ?_, ?_⟩).1
  · rw [length_toBuffer]; omega
  · rw [ofBytes_toBuffer]; exact hv
  · rw [ofBytes_toBuffer, length_toBuffer]; omega

end IPCMessage

end Lwipc
