import NorStore.Checksum
import NorStore.Error
import NorStore.Flash.Geometry

/-! # The record format (record.rs:26-87)

An area holds a log of records. A record is an 8-byte header, the payload, and erased bytes
(`0xFF`) up to the next multiple of the record alignment (`record_size`, `record.rs:36-38`):

| bytes | field |
|---|---|
| 0 | type: `0xFE` for the master record, `0xFF` never (that is erased flash) |
| 1 | flags: bit 0 marks a deletion |
| 2, 3 | payload length, little-endian |
| 4 to 7 | CRC-32, little-endian, of bytes 0 to 3 followed by the payload |

The first record of an area is its master record, whose four payload bytes are the area's
generation (little-endian) and two erased bytes. A header of eight erased bytes ends the log.
`Header.ofPayload`, `Header.toBytes`, `Header.ofBytes?`, `Header.seed` and `Header.isDeleted` are
`RecordHeader::new`, `to_bytes`, `parse`, `seed_crc` and `is_deleted` (`record.rs:53-87`).

`Record.image` encodes a record in exactly `Record.size` bytes (`size_image`) and `Record.decode`
reads one back from an area's contents, with the checks `read_header_window` and `read_record`
make; the store reads records off the flash piece by piece (`NorStore.Record.Access`).
-/

namespace NorStore

/-- What a valid record says. -/
inductive Record where
  /-- The master record that opens an area, carrying the area's generation. -/
  | master (version : UInt16)
  /-- The current value of `type`, with a payload of `length` bytes. -/
  | live (type : UInt8) (length : Nat)
  /-- `type` holds no value from here on. -/
  | deleted (type : UInt8)
deriving Repr, DecidableEq, Inhabited

namespace Record

def headerSize : Nat := 8

def masterType : UInt8 := 0xFE

/-- The type byte of erased flash, which no record has. -/
def noType : UInt8 := 0xFF

/-- The flag bit of a record that deletes its type. -/
def deleteFlag : UInt8 := 0x01

def masterPayloadSize : Nat := 4

/-- The bytes that a record with `length` payload bytes takes in an area. -/
def size (g : Geometry) (length : Nat) : Nat :=
  alignUp (headerSize + length) g.recordAlignment

def masterSize (g : Geometry) : Nat := size g masterPayloadSize

/-! ### Little-endian fields -/

/-- The two bytes of a 16-bit number, low byte first. -/
def le16 (x : UInt16) : List UInt8 := [x.toUInt8, (x >>> 8).toUInt8]

/-- The four bytes of a 32-bit number, low byte first. -/
def le32 (x : UInt32) : List UInt8 :=
  [x.toUInt8, (x >>> 8).toUInt8, (x >>> 16).toUInt8, (x >>> 24).toUInt8]

/-- The 16-bit number with the bytes `b0` (low) and `b1`. -/
def ofLe16 (b0 b1 : UInt8) : UInt16 := b0.toUInt16 ||| (b1.toUInt16 <<< 8)

/-- The 32-bit number with the bytes `b0` (lowest) to `b3`. -/
def ofLe32 (b0 b1 b2 b3 : UInt8) : UInt32 :=
  b0.toUInt32 ||| (b1.toUInt32 <<< 8) ||| (b2.toUInt32 <<< 16) ||| (b3.toUInt32 <<< 24)

/-! ### Headers -/

structure Header where
  type : UInt8
  flags : UInt8
  length : UInt16
  crc : UInt32
deriving Repr, DecidableEq, Inhabited

namespace Header

variable [Crc]

/-- The checksum of the first four header bytes, which a record's checksum continues. -/
def seed (type flags : UInt8) (length : UInt16) : UInt32 :=
  Crc.crc32 0xFFFFFFFF (ByteArray.mk (#[type, flags] ++ (le16 length).toArray))

def ofPayload (type flags : UInt8) (data : ByteArray) : Header :=
  let length := data.size.toUInt16
  { type, flags, length, crc := Crc.crc32 (seed type flags length) data }

def toBytes (h : Header) : ByteArray :=
  ByteArray.mk (#[h.type, h.flags] ++ (le16 h.length).toArray ++ (le32 h.crc).toArray)

/-- The header stored in the first eight of `bytes`, if there are eight. -/
def ofBytes? (bytes : List UInt8) : Option Header :=
  match bytes with
  | t :: f :: l0 :: l1 :: c0 :: c1 :: c2 :: c3 :: _ =>
    some { type := t, flags := f, length := ofLe16 l0 l1, crc := ofLe32 c0 c1 c2 c3 }
  | _ => none

def payloadSize (h : Header) : Nat := h.length.toNat

def isDeleted (h : Header) : Bool := h.flags &&& deleteFlag != 0

/-- A header can open a record at `offset`: not erased, sized for its kind, inside the area. -/
def Admissible (g : Geometry) (areaSize offset : Nat) (h : Header) : Prop :=
  h.type ≠ noType ∧ (h.type = masterType → h.payloadSize = masterPayloadSize) ∧
    offset + size g h.payloadSize ≤ areaSize

instance (g : Geometry) (areaSize offset : Nat) (h : Header) :
    Decidable (h.Admissible g areaSize offset) := by
  unfold Admissible; infer_instance

/-- Whether `payload` is the payload the header's checksum was computed over. -/
def Matches (h : Header) (payload : ByteArray) : Prop :=
  Crc.crc32 (seed h.type h.flags h.length) payload = h.crc

instance (h : Header) (payload : ByteArray) : Decidable (h.Matches payload) := by
  unfold Matches; infer_instance

/-- What a record with this header and `payload` says. -/
def record (h : Header) (payload : ByteArray) : Record :=
  if h.type = masterType then
    .master (ofLe16 (payload.data.getD 0 0xFF) (payload.data.getD 1 0xFF))
  else if h.isDeleted then .deleted h.type
  else .live h.type h.payloadSize

end Header

/-- Whether eight header bytes are all erased, which ends a log. -/
def IsErasedHeader (bytes : ByteArray) : Prop :=
  (bytes.extract 0 headerSize).toList.all (· == 0xFF) = true

instance (bytes : ByteArray) : Decidable (IsErasedHeader bytes) := by
  unfold IsErasedHeader; infer_instance

/-! ### Encoding and decoding -/

/-- The payload of the master record of generation `version`. -/
def masterPayload (version : UInt16) : ByteArray :=
  ByteArray.mk ((le16 version).toArray ++ #[0xFF, 0xFF])

/-- The largest header window the store reads at once. -/
def window : Nat := 64

theorem Header.size_toBytes (h : Header) : h.toBytes.size = headerSize := by
  simp [Header.toBytes, le16, le32, headerSize, ByteArray.size]

theorem headerSize_add_le_size (g : Geometry) (length : Nat) :
    headerSize + length ≤ size g length :=
  le_alignUp _ _ (by have := g.four_le_recordAlignment; omega)

/-- A record found in an area: where it starts, what it says, and where the next one starts. -/
structure Entry where
  offset : Nat
  record : Record
  next : Nat
deriving Repr, DecidableEq, Inhabited

section

variable [Crc]

/-- The bytes of a record as programmed: header, payload, and erased bytes up to its size. -/
def image (g : Geometry) (type flags : UInt8) (data : ByteArray) : ByteArray :=
  (Header.ofPayload type flags data).toBytes ++ data ++
    ByteArray.mk (Array.replicate (size g data.size - headerSize - data.size) 0xFF)

theorem size_image (g : Geometry) (type flags : UInt8) (data : ByteArray) :
    (image g type flags data).size = size g data.size := by
  have := headerSize_add_le_size g data.size
  simp only [image, ByteArray.size_append, Header.size_toBytes]
  simp only [ByteArray.size, Array.size_replicate]
  simp only [ByteArray.size] at this
  omega

/-- Reads the record at `offset`: `none` where the log ends, its entry, or `dataCorrupt`. -/
def decode (g : Geometry) (area : ByteArray) (offset : Nat) : Except Error (Option Entry) :=
  if area.size - offset < headerSize then .ok none
  else
    let head := area.extract offset (offset + headerSize)
    if IsErasedHeader head then .ok none
    else match Header.ofBytes? head.toList with
      | none => .ok none
      | some h =>
        if h.Admissible g area.size offset then
          let payload := area.extract (offset + headerSize) (offset + headerSize + h.payloadSize)
          if h.Matches payload then
            .ok (some ⟨offset, h.record payload, offset + size g h.payloadSize⟩)
          else .error .dataCorrupt
        else .error .dataCorrupt

end

end Record

end NorStore
