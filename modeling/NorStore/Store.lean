import NorStore.Compaction

/-! # The store (lib.rs, internal.rs)

A `Store` keeps values of up to `numTypes` types (16 unless set otherwise) in a partition of a
NOR flash (`Sotp`, `lib.rs:42-242`). It holds the partition's layout and, once loaded, the index
of the active area; the flash itself is a separate device value that every operation takes and
gives back, so a run of the store is a `StoreM` computation over the pair. An operation that
fails keeps what it did to the flash and to the store up to its failure.

Each operation is the method of the same name: `create`, `init`, `deinit`, `reset`,
`setNumTypes`, `get`, `itemSize` (`get_item_size`), `set`, `remove`, `probe`, `compact`
(`force_garbage_collection`) and `statistics` (`lib.rs:54-213`). `load` is `load_active_area`
(`internal.rs:75-145`), `readValue` is `do_get` (`internal.rs:147-155`), `probeFlash` is
`probe_scan` (`internal.rs:159-186`), `set` and `remove` append with `Index.append` (`do_set`,
`internal.rs:189-225`), and `reset` does what `format` does (`internal.rs:322-340`). Rules that hold across the operations:

* A type at or above `numTypes` is a bad value for `get`, `itemSize`, `set` and `remove`, and
  is refused before anything is read (`checkType`, `lib.rs:220-225`).
* An operation that needs the index loads it first (`loaded`, which is `ensure_initialized`,
  `lib.rs:227-232`), unless it is loaded already.
* When the flash refuses an access during `get`, `itemSize`, `set`, `remove` or `compact`, the
  store forgets its index, since the flash may now hold what the index does not say; the next
  operation loads it again (`guarded`, which is `guard`, `lib.rs:235-242`). Loading and `reset`
  forget it on any failure.
* `probe` reads a type's value straight off the flash and leaves the index alone.
-/

namespace NorStore

open Record

/-- A store of typed values on a partition of a NOR flash. -/
structure Store where
  layout : Layout
  /-- Types `0` to `numTypes - 1` may hold values. -/
  numTypes : UInt8 := 16
  /-- The index of the active area, while the store is loaded. -/
  index? : Option Index := none

/-- Figures about the active area. -/
structure Statistics where
  activeArea : Area
  version : UInt16
  areaSize : Nat
  usedBytes : Nat
  freeBytes : Nat
  liveTypes : Nat
deriving Repr

/-- A read's answer, the value's length or an error, with the caller's buffer afterwards. -/
structure Reading where
  result : Except Error Nat
  buffer : ByteArray

/-- A run of store operations on the store and its device. -/
abbrev StoreM (δ : Type) := ExceptT Error (StateM (Store × δ))

/-- The buffer after `delivered` was written over its first bytes. -/
def overwriteFront (buffer delivered : ByteArray) : ByteArray :=
  delivered.copySlice 0 buffer 0 delivered.size

namespace Store

/-- A store on the partition `[offset, offset + size)` of a flash of geometry `g`, not loaded. -/
def create (g : Geometry) (offset size : Nat) : Except Error Store := do
  return { layout := ← Layout.create g offset size }

def isInitialized (s : Store) : Bool := s.index?.isSome

def maxItemSize (s : Store) : Nat := s.layout.maxItemSize

def areaInfo (s : Store) (a : Area) : AreaInfo := s.layout.info a

/-- Forgets the index. -/
def deinit (s : Store) : Store := { s with index? := none }

/-- Sets the number of types, at most `0xFE`, and forgets the index. -/
def setNumTypes (s : Store) (n : UInt8) : Except Error Store :=
  if n > masterType then .error .badValue else .ok { s with numTypes := n, index? := none }

variable {δ : Type} [NorFlash δ] [Crc]

def current {m : Type → Type} [MonadState (Store × δ) m] : m Store :=
  modifyGet fun p => (p.1, p)

def setIndex {m : Type → Type} [MonadState (Store × δ) m] (i : Option Index) : m Unit :=
  modifyGet fun (s, d) => ((), ({ s with index? := i }, d))

/-- Runs device work on the store's device. -/
def onDevice {m : Type → Type} [MonadState (Store × δ) m] {α : Type} (work : StateM δ α) :
    m α :=
  modifyGet fun (s, d) => let (a, d) := work.run d; (a, (s, d))

/-- Runs device work that may fail on the store's device. -/
def onFlash {α : Type} (m : FlashM δ α) : StoreM δ α := ExceptT.mk (onDevice m.run)

/-- Forgets the index if `result` failed because the flash refused an access. -/
def forgetOnFault {α : Type} (result : Except Error α) : StateM (Store × δ) Unit :=
  match result with
  | .error e => if e.isFlashFault then setIndex none else pure ()
  | .ok _ => pure ()

/-- Runs `m`, forgetting the index if it fails because the flash refused an access. -/
def guarded {α : Type} (m : StoreM δ α) : StoreM δ α :=
  ExceptT.mk do
    let result ← m.run
    forgetOnFault result
    return result

/-- Runs `m`, forgetting the index if it fails for any reason. -/
def forgetOnError {α : Type} (m : StoreM δ α) : StoreM δ α :=
  tryCatch m fun e => do setIndex none; throw e

/-- Loads the index: picks the active area, walks its log, and compacts it if not clean. -/
def load : StoreM δ Index := forgetOnError do
  setIndex none
  let s ← current
  let (i, clean) ← onFlash (Index.scan s.layout s.numTypes.toNat)
  setIndex (some i)
  if clean then return i
  let i ← onFlash (i.compact s.layout none)
  setIndex (some i)
  return i

def init : StoreM δ Unit := discard load

/-- The index, loaded first if it is not. -/
def loaded : StoreM δ Index := do
  match (← current).index? with
  | some i => return i
  | none => load

/-- Refuses a type at or above the number of types. -/
def checkType (type : UInt8) : StoreM δ Unit := do
  if type ≥ (← current).numTypes then throw .badValue

/-- Reads the value of `type` through the index, into a buffer of `capacity` bytes if given. -/
def readValue (type : UInt8) (capacity : Option Nat) :
    StateM (Store × δ) (Except Error Nat × ByteArray) := do
  match ← (do checkType type; loaded : StoreM δ Index).run with
  | .error e => return (.error e, .empty)
  | .ok i =>
    let s ← current
    let (result, delivered) ← match i.slot? type with
      | none => pure (.error .notFound, .empty)
      | some slot => onDevice (loadValue s.layout i.area slot.offset type capacity)
    forgetOnFault result
    return (result, delivered)

/-- Reads the value of `type` into `buffer` and answers its length. -/
def get (type : UInt8) (buffer : ByteArray) : StateM (Store × δ) Reading := do
  let (result, delivered) ← readValue type (some buffer.size)
  return ⟨result, overwriteFront buffer delivered⟩

/-- The length of the value of `type`, after checking its record. -/
def itemSize (type : UInt8) : StoreM δ Nat :=
  ExceptT.mk do return (← readValue type none).1

def set (type : UInt8) (value : ByteArray) : StoreM δ Unit := do
  checkType type
  let s ← current
  if value.size > s.layout.maxItemSize then throw .badValue
  let i ← loaded
  guarded do setIndex (some (← onFlash (i.append s.layout type 0 value)))

/-- Removes the value of `type`; nothing is written if it holds none. -/
def remove (type : UInt8) : StoreM δ Unit := do
  checkType type
  let i ← loaded
  if (i.slot? type).isNone then return
  let s ← current
  guarded do setIndex (some (← onFlash (i.append s.layout type deleteFlag .empty)))

/-- Compacts the active area even if it has room. -/
def compact : StoreM δ Unit := do
  let i ← loaded
  let s ← current
  guarded do setIndex (some (← onFlash (i.compact s.layout none)))

/-- Erases both areas and starts generation 0 in the first one, with no values. -/
def reset : StoreM δ Unit := forgetOnError do
  setIndex none
  let s ← current
  let free ← onFlash do
    s.layout.erase .first
    s.layout.erase .second
    Record.writeMaster s.layout .first 0
  setIndex (some ⟨.first, 0, free, Array.replicate s.numTypes.toNat none⟩)

/-- Figures about the active area, loading the index first if needed. -/
def statistics : StoreM δ Statistics := do
  let i ← loaded
  let s ← current
  return {
    activeArea := i.area
    version := i.version
    areaSize := s.layout.areaSize
    usedBytes := i.free
    freeBytes := s.layout.areaSize - i.free
    liveTypes := i.liveCount }

/-- The offset of the last record of `type` in `entries` if it holds a value there. -/
def lastValueAt (type : UInt8) (entries : List Entry) : Option Nat :=
  entries.foldl (fun current e =>
    match e.record with
    | .live t _ => if t = type then some e.offset else current
    | .deleted t => if t = type then none else current
    | .master _ => current) none

/-- Finds the value of `type` by walking the active area's log, without the index. -/
def probeFlash (l : Layout) (type : UInt8) (capacity : Nat) :
    StateM δ (Except Error Nat × ByteArray) := do
  match ← (Generation.selectActive l).run with
  | .error e => return (.error e, .empty)
  | .ok none => return (.error .notFound, .empty)
  | .ok (some (area, _)) =>
    let walk ← Log.walk l area
    if let some e := walk.stop then
      if e ≠ .dataCorrupt then return (.error e, .empty)
    match lastValueAt type walk.entries with
    | none => return (.error .notFound, .empty)
    | some offset => loadValue l area offset type (some capacity)

/-- Reads the value of `type` into `buffer` straight off the flash, leaving the index alone. -/
def probe (type : UInt8) (buffer : ByteArray) : StateM (Store × δ) Reading := do
  if type ≥ masterType then return ⟨.error .badValue, buffer⟩
  let s ← current
  let (result, delivered) ← onDevice (probeFlash s.layout type buffer.size)
  return ⟨result, overwriteFront buffer delivered⟩

end Store

end NorStore
