import NorStore.Index

/-! # Appending and compaction (internal.rs:189-319)

A write appends a record at the start of free space (`append`, which is `do_set`,
`internal.rs:189-225`). When it does not fit, the store compacts (`compact`, which is
`garbage_collection`, `internal.rs:230-319`): it erases the standby area, copies the current
record of every type into it in log order (`copyLive`), appends the pending write there, and
last writes the master record of the next generation. Up to that last write the standby area
has no valid master record, so the old area stays active and a power loss during a compaction
loses nothing; once it is written, the standby area holds the newer generation and becomes the
active one.

A compaction first checks that the compacted log fits (`compactedSize`), so an area too small
for it is reported before anything is erased.
-/

namespace NorStore

open Record

/-- A write that waits for a compaction: a record of `type` with `flags` and payload `data`. -/
structure Pending where
  type : UInt8
  flags : UInt8
  data : ByteArray

/-- Whether the pending write deletes its type, and so writes no record during a compaction. -/
def Pending.isDeletion (p : Pending) : Bool := p.flags &&& deleteFlag != 0

namespace Index

/-- The bytes a compacted log takes: the master record, copies of `live`, the pending record. -/
def compactedSize (l : Layout) (live : List (Slot × UInt8)) (written : Option Pending) : Nat :=
  l.masterSize + live.foldr (fun (slot, _) n => l.recordSize slot.length + n) 0 +
    (written.map fun p => l.recordSize p.data.size).getD 0

variable {δ : Type} [NorFlash δ] [Crc]

/-- Copies the records `live` from `source` into `target` from `offset` on, setting their slots. -/
def copyLive (l : Layout) (source target : Area) :
    List (Slot × UInt8) → Array (Option Slot) → Nat → FlashM δ (Array (Option Slot) × Nat)
  | [], slots, offset => pure (slots, offset)
  | (slot, type) :: rest, slots, offset => do
    let next ← Record.copy l source slot.offset target offset
    copyLive l source target rest (slots.setIfInBounds type.toNat (some ⟨offset, slot.length⟩))
      next

/-- Compacts the active area into the standby area, completing `pending` on the way. -/
def compact (l : Layout) (i : Index) (pending : Option Pending) : FlashM δ Index := do
  let source := i.area
  let target := source.other
  let live := i.liveRecords.filter fun (_, type) => pending.all (·.type != type)
  let written := pending.filter (!·.isDeletion)
  if compactedSize l live written > l.areaSize then throw .flashAreaTooSmall
  l.erase target
  let (slots, offset) ← copyLive l source target live (Array.replicate i.slots.size none)
    l.masterSize
  let (slots, offset) ← match written with
    | some p => do
      let next ← Record.write l target offset p.type p.flags p.data
      pure (slots.setIfInBounds p.type.toNat (some ⟨offset, p.data.size⟩), next)
    | none => pure (slots, offset)
  let version := i.version + 1
  let _ ← Record.writeMaster l target version
  return ⟨target, version, offset, slots⟩

/-- Appends the record of `type`, `flags` and `data`, compacting first when it does not fit. -/
def append (l : Layout) (i : Index) (type flags : UInt8) (data : ByteArray) :
    FlashM δ Index := do
  if i.free + l.recordSize data.size > l.areaSize then
    return ← compact l i (some ⟨type, flags, data⟩)
  let next ← Record.write l i.area i.free type flags data
  let slot := if flags &&& deleteFlag != 0 then none else some ⟨i.free, data.size⟩
  return { i with free := next, slots := i.slots.setIfInBounds type.toNat slot }

end Index

end NorStore
