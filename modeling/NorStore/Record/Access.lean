import NorStore.Layout
import NorStore.Record.Format

/-! # Reading, writing and copying records on the flash (record.rs:108-360)

The store never holds a whole record in memory. `readAt` is `read_record`
(`record.rs:188-259`): it reads a window of at most 64 bytes at the record's offset and checks
the header found there (`readWindow`, which is `read_header_window`, `record.rs:146-178`), then
streams the rest of the payload in pieces of at most 64 bytes, each read widened to whole read
units, and feeds each piece to the checksum as it arrives (`feedPieces`, after
`PayloadSink::feed`, `record.rs:117-130`). `program` cuts the record's image into 64-byte pieces
(`program`, `record.rs:291-320`), under `write` and `writeMaster` (`write_record` and
`write_master_record`, `record.rs:262-289`); `copy` moves a record verbatim piece by piece, each
piece read and then written (`copy_record`, `record.rs:335-360`). The sequence of device
accesses is part of the store's behaviour: a power loss can strike between any two of them.

`readAt` answers like `Record.decode` on the area's contents when the device performs every
access; it also reports the payload bytes that reached the caller's buffer before a failure,
since a failed read can leave the buffer partly overwritten.
-/

namespace NorStore.Record

variable {δ : Type} [NorFlash δ] [Crc]

/-- Reads the header window at `offset`: `none` where the log ends, or the header and its bytes. -/
def readWindow (l : Layout) (a : Area) (offset : Nat) :
    FlashM δ (Option (Header × ByteArray)) := do
  let length := min (l.areaSize - offset) window
  if length < headerSize then return none
  let bytes ← l.read a offset length
  if IsErasedHeader bytes then return none
  match Header.ofBytes? (bytes.extract 0 headerSize).toList with
  | none => return none
  | some h =>
    if h.Admissible l.geometry l.areaSize offset then return some (h, bytes)
    else throw .dataCorrupt

/-- The outcome of reading a record, and the payload bytes delivered before it ended. -/
structure Fetch where
  outcome : Except Error (Option Entry)
  delivered : ByteArray

/-- Reads the payload pieces of the record at `offset` onto `acc`, stopping at a failed read. -/
def readPieces (l : Layout) (a : Area) (offset : Nat) :
    List (Nat × Nat) → ByteArray → StateM δ (Option Error × ByteArray)
  | [], acc => pure (none, acc)
  | (position, length) :: rest, acc => do
    match ← (l.read a (offset + position) (l.geometry.readLength length)).run with
    | .error e => pure (some e, acc)
    | .ok bytes => readPieces l a offset rest (acc ++ bytes.extract 0 length)

/-- Continues the checksum `r` over the slices of `payload` that the pieces `ps` cover. -/
def feedPieces (payload : ByteArray) (r : UInt32) : List (Nat × Nat) → UInt32
  | [] => r
  | (position, length) :: rest =>
    feedPieces payload
      (Crc.crc32 r (payload.extract (position - headerSize) (position - headerSize + length))) rest

/-- Reads the record at `offset`, its payload into a buffer of `capacity` bytes if given. -/
def readAt (l : Layout) (a : Area) (offset : Nat) (capacity : Option Nat) : StateM δ Fetch := do
  match ← (readWindow l a offset).run with
  | .error e => return ⟨.error e, .empty⟩
  | .ok none => return ⟨.ok none, .empty⟩
  | .ok (some (h, bytes)) =>
    -- a payload longer than the buffer is refused before any of it is read
    if capacity.any (· < h.payloadSize) then
      return ⟨.error (.buffTooSmall h.payloadSize), .empty⟩
    let total := headerSize + h.payloadSize
    let inWindow := min bytes.size total
    let (failure, payload) ←
      readPieces l a offset (pieces inWindow total) (bytes.extract headerSize inWindow)
    if let some e := failure then return ⟨.error e, payload⟩
    -- the checksum runs over the payload as it arrived: the part in the window, then each piece
    let crc := feedPieces payload
      (Crc.crc32 (Header.seed h.type h.flags h.length) (payload.extract 0 (inWindow - headerSize)))
      (pieces inWindow total)
    if crc = h.crc then
      return ⟨.ok (some ⟨offset, h.record payload, offset + l.recordSize h.payloadSize⟩), payload⟩
    else return ⟨.error .dataCorrupt, payload⟩

/-- Programs the record of `type`, `flags` and `data` at `offset` in 64-byte pieces. -/
def program (l : Layout) (a : Area) (offset : Nat) (type flags : UInt8) (data : ByteArray) :
    FlashM δ Nat := do
  let size := l.recordSize data.size
  if offset + size > l.areaSize then throw .flashAreaTooSmall
  let bytes := image l.geometry type flags data
  for (position, length) in pieces 0 size do
    l.write a (offset + position) (bytes.extract position (position + length))
  return offset + size

/-- Programs a data record; the type must be a data type and the payload fit a 16-bit length. -/
def write (l : Layout) (a : Area) (offset : Nat) (type flags : UInt8) (data : ByteArray) :
    FlashM δ Nat := do
  if type ≥ masterType ∨ data.size > 0xFFFF then throw .badValue
  program l a offset type flags data

/-- Programs the master record of generation `version` at the start of an area. -/
def writeMaster (l : Layout) (a : Area) (version : UInt16) : FlashM δ Nat :=
  program l a 0 masterType 0 (masterPayload version)

/-- Copies the record at `sourceOffset` verbatim to `targetOffset`, checking only its header. -/
def copy (l : Layout) (source : Area) (sourceOffset : Nat) (target : Area) (targetOffset : Nat) :
    FlashM δ Nat := do
  let some (h, _) ← readWindow l source sourceOffset | throw .dataCorrupt
  let size := l.recordSize h.payloadSize
  if targetOffset + size > l.areaSize then throw .flashAreaTooSmall
  for (position, length) in pieces 0 size do
    let bytes ← l.read source (sourceOffset + position) length
    l.write target (targetOffset + position) bytes
  return targetOffset + size

end NorStore.Record
