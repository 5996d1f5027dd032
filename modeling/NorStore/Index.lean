import NorStore.Generation
import NorStore.Log

/-! # The index of the active area (internal.rs)

While the store is loaded it keeps an index of the active area (`ActiveState`): the area, its
generation, the offset where free space begins, and for each type the slot (offset and payload
length, `Slot`, `internal.rs:30-36`) of the record holding its current value. The index is what
the log says: walking the log and noting each record (`Index.note`) gives the slot of every type,
where a later record of a type replaces an earlier one and a deletion clears it. Types at or
above the number of slots are left out. `Index.slot?` and `Index.liveRecords` are `offset_of`
and `live_records` (`internal.rs:40-58`).

`Index.scan` is the walk of `load_active_area` (`internal.rs:75-145`): it loads the index from
the flash and reports whether the area is clean, that is, whether its log ends at erased flash
with nothing programmed after it. An area that is not clean has to be compacted before anything
more is appended. `Index.loadValue` is `load_value` (`internal.rs:344-359`).
-/

namespace NorStore

open Record

/-- Where the current value of a type is stored: the record's offset and its payload length. -/
structure Slot where
  offset : Nat
  length : Nat
deriving Repr, DecidableEq, Inhabited

/-- The loaded view of the active area. -/
structure Index where
  area : Area
  version : UInt16
  /-- The offset where free space begins. -/
  free : Nat
  /-- The slot of each type that holds a value, indexed by type. -/
  slots : Array (Option Slot)
deriving Repr, Inhabited

namespace Index

def slot? (i : Index) (type : UInt8) : Option Slot := (i.slots[type.toNat]?).join

def liveCount (i : Index) : Nat := i.slots.countP Option.isSome

/-- The types that hold a value with their slots, in the order of their records in the log. -/
def liveRecords (i : Index) : List (Slot × UInt8) :=
  (i.slots.toList.zipIdx.filterMap fun (slot, type) => slot.map (·, type.toUInt8)).mergeSort
    fun a b => a.1.offset ≤ b.1.offset

/-- Notes one record in the slots: a value sets its type's slot and a deletion clears it. -/
def note (slots : Array (Option Slot)) (e : Entry) : Array (Option Slot) :=
  match e.record with
  | .live type length => slots.setIfInBounds type.toNat (some ⟨e.offset, length⟩)
  | .deleted type => slots.setIfInBounds type.toNat none
  | .master _ => slots

/-- The slots of `count` types after the records `entries`, in log order. -/
def slotsOf (count : Nat) (entries : List Entry) : Array (Option Slot) :=
  entries.foldl note (Array.replicate count none)

variable {δ : Type} [NorFlash δ] [Crc]

/-- Loads the index of the active area with `count` slots, and whether the area is clean. -/
def scan (l : Layout) (count : Nat) : FlashM δ (Index × Bool) := do
  let some (area, version) ← Generation.selectActive l | throw .dataCorrupt
  let walk ← (Log.walk l area : StateM δ Log.Walk)
  -- a torn or corrupt record ends the log and leaves the area unclean; other failures are errors
  match walk.stop with
  | some .dataCorrupt => pure ()
  | some e => throw e
  | none => pure ()
  let clean ← if walk.stop.isNone then Log.isBlankFrom l area walk.next else pure false
  return (⟨area, version, walk.next, slotsOf count walk.entries⟩, clean)

end Index

/-- The value of `type` in the record at `offset`, with the bytes that reached the buffer. -/
def loadValue {δ : Type} [NorFlash δ] [Crc] (l : Layout) (a : Area) (offset : Nat) (type : UInt8)
    (capacity : Option Nat) : StateM δ (Except Error Nat × ByteArray) := do
  let fetch ← readAt l a offset capacity
  let result : Except Error Nat :=
    match fetch.outcome with
    | .error e => .error e
    | .ok none => .error .dataCorrupt
    | .ok (some e) =>
      match e.record with
      | .live t length => if t = type then .ok length else .error .dataCorrupt
      | .deleted t => if t = type then .error .notFound else .error .dataCorrupt
      | .master _ => .error .dataCorrupt
  return (result, fetch.delivered)

end NorStore
