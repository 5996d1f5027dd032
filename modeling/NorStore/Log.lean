import NorStore.Record.Access

/-! # Walking an area's log (record.rs:362-421, area.rs:184-203)

The data records of an area follow its master record back to back. `Log.walk` is `RecordIter`
(`record.rs:362-421`): it reads them in order until the log ends at erased flash, or until a
record fails, which ends the walk with that error: a torn or corrupt record, or a second master
record, is `dataCorrupt`, and a read the device refused is `readError`. The walk's end offset is
where it stopped (`end_offset`), so after a clean walk it is where free space begins.

`Log.isBlankFrom` is `AreaLayout::is_blank_from` (`area.rs:184-203`): whether an area is erased
from an offset to its end, which is what a clean log must look like past its last record.
-/

namespace NorStore.Log

open Record

variable {δ : Type} [NorFlash δ] [Crc]

/-- The records of a log in order, how the walk stopped, and where. -/
structure Walk where
  entries : List Entry
  /-- `none` when the log ended at erased flash, else the error that ended it. -/
  stop : Option Error
  /-- The offset where the walk stopped: the end of the last record it accepted. -/
  next : Nat

/-- Walks the log of an area from `offset` on, one record after another. -/
def walkFrom (l : Layout) (a : Area) (offset : Nat) : StateM δ Walk := do
  let fetch ← readAt l a offset none
  match fetch.outcome with
  | .error e => return ⟨[], some e, offset⟩
  | .ok none => return ⟨[], none, offset⟩
  | .ok (some e) =>
    match e.record with
    | .master _ => return ⟨[], some .dataCorrupt, offset⟩
    | _ =>
      if offset < e.next ∧ e.next ≤ l.areaSize then
        let rest ← walkFrom l a e.next
        return { rest with entries := e :: rest.entries }
      else return ⟨[e], none, e.next⟩
termination_by l.areaSize - offset

/-- Walks the data records of an area, from the end of its master record. -/
def walk (l : Layout) (a : Area) : StateM δ Walk := walkFrom l a l.masterSize

/-- Whether the pieces `(offset, length)` of an area all read as erased. -/
def allErased (l : Layout) (a : Area) : List (Nat × Nat) → FlashM δ Bool
  | [] => pure true
  | (offset, length) :: rest => do
    let bytes ← l.read a offset length
    if bytes.toList.all (· == 0xFF) then allErased l a rest else pure false

/-- Whether an area is erased from `offset` to its end, read in 64-byte pieces. -/
def isBlankFrom (l : Layout) (a : Area) (offset : Nat) : FlashM δ Bool :=
  allErased l a (pieces offset l.areaSize)

end NorStore.Log
