import NorStore.Error
import NorStore.Flash.Device
import NorStore.Record.Format

/-! # Partition layout and area access (area.rs)

The store's partition is split into two areas of equal size, `first` and `second` (`Area`,
`area.rs:13-25`); at any time one is active and the other is standby. `Layout.create` is
`AreaLayout::new` (`area.rs:44-74`): the checks and their order are in its doc comment, and
`create_eq_ok_iff` says exactly when it succeeds. `Layout.info` places each area on the flash
(`area.rs:80-85`).

Area access goes through `FlashM`, which threads the device through a run and stops at the
first error. `Layout.read`, `Layout.write` and `Layout.erase` are `AreaLayout::read`, `write`
and `erase` (`area.rs:94-134`): a device that refuses an access yields `readError` for a read
and `writeError` for a write or an erase, and an access that would leave its area fails with
`flashAreaTooSmall` before the device is asked (`address`, `area.rs:87-92`). Data moves through
the store's 64-byte buffer (`SCRATCH_SIZE`, `platform.rs:11`) in `pieces` that cover their range
(`sum_length_pieces`, `bounds_of_mem_pieces`). `Layout.maxItemSize` is `max_item_size`
(`internal.rs:361-364`).
-/

namespace NorStore

/-- One of the two halves of the store's partition. -/
inductive Area where
  | first
  | second
deriving Repr, DecidableEq, Inhabited

namespace Area

def other : Area → Area
  | first => second
  | second => first

/-- The position of an area in the partition: `0` for the first, `1` for the second. -/
def index : Area → Nat
  | first => 0
  | second => 1

def name : Area → String
  | first => "First"
  | second => "Second"

@[simp] theorem other_other (a : Area) : a.other.other = a := by cases a <;> rfl

@[simp] theorem other_ne (a : Area) : a.other ≠ a := by cases a <;> simp [other]

end Area

/-- Where an area lies on the flash. -/
structure AreaInfo where
  address : Nat
  size : Nat
deriving Repr, DecidableEq

/-- Runs against a device of type `δ`, stopping at the first error and keeping the device. -/
abbrev FlashM (δ : Type) := ExceptT Error (StateM δ)

/-- A partition split into two areas on a flash of the given geometry. -/
structure Layout where
  geometry : Geometry
  /-- The flash address of the first area. -/
  base : Nat
  /-- The bytes of each area. -/
  areaSize : Nat
deriving Repr, DecidableEq

namespace Layout

/-- Splits the partition `[offset, offset + size)` into two areas, checking it in this order. -/
def create (g : Geometry) (offset size : Nat) : Except Error Layout :=
  let areaSize := size / 2
  if offset % g.eraseSize ≠ 0 then .error .invalidPartitionOffset
  else if size = 0 ∨ size % (2 * g.eraseSize) ≠ 0 then .error .invalidPartitionSize
  else if offset + size > 0xFFFFFFFF then .error .invalidPartitionSize
  else if ¬ g.Supported ∨ areaSize % g.recordAlignment ≠ 0 then .error .unsupportedFlashGeometry
  else if areaSize < Record.masterSize g + Record.size g 0 then .error .invalidPartitionSize
  else .ok { geometry := g, base := offset, areaSize }

theorem create_eq_ok_iff {g : Geometry} {offset size : Nat} {l : Layout} :
    create g offset size = .ok l ↔
      (offset % g.eraseSize = 0 ∧ size ≠ 0 ∧ size % (2 * g.eraseSize) = 0 ∧
        offset + size ≤ 0xFFFFFFFF ∧ g.Supported ∧ size / 2 % g.recordAlignment = 0 ∧
        Record.masterSize g + Record.size g 0 ≤ size / 2) ∧
      l = ⟨g, offset, size / 2⟩ := by
  constructor
  · intro h
    simp only [create] at h
    repeat' split at h
    all_goals cases h
    rename_i h1 h2 h3 h4 h5
    refine ⟨?_, rfl⟩
    simp only [not_or, Decidable.not_not, ne_eq] at h1 h2 h3 h4 h5
    exact ⟨h1, h2.1, h2.2, by omega, h4.1, h4.2, by omega⟩
  · rintro ⟨⟨h1, h2, h3, h4, h5, h6, h7⟩, rfl⟩
    have h4' : ¬ offset + size > 0xFFFFFFFF := by omega
    have h7' : ¬ size / 2 < Record.masterSize g + Record.size g 0 := by omega
    simp [create, h1, h2, h3, h4', h5, h6, h7']

def info (l : Layout) (a : Area) : AreaInfo :=
  { address := l.base + a.index * l.areaSize, size := l.areaSize }

/-- The bytes a record with `length` payload bytes takes. -/
def recordSize (l : Layout) (length : Nat) : Nat := Record.size l.geometry length

/-- The bytes of the master record that opens each area. -/
def masterSize (l : Layout) : Nat := Record.masterSize l.geometry

/-- The largest value accepted: what fits after the master record, up to a 16-bit length. -/
def maxItemSize (l : Layout) : Nat :=
  min (l.areaSize - l.masterSize - Record.headerSize) 0xFFFF

/-- The flash address of `[offset, offset + length)` of an area, if that range lies in it. -/
def address (l : Layout) (a : Area) (offset length : Nat) : Except Error Nat :=
  if offset + length > l.areaSize then .error .flashAreaTooSmall
  else .ok ((l.info a).address + offset)

variable {δ : Type} [NorFlash δ]

def read (l : Layout) (a : Area) (offset length : Nat) : FlashM δ ByteArray := do
  let address ← liftExcept (l.address a offset length)
  match ← modifyGet fun d => NorFlash.read d address length with
  | some bytes => pure bytes
  | none => throw .readError

def write (l : Layout) (a : Area) (offset : Nat) (bytes : ByteArray) : FlashM δ Unit := do
  let address ← liftExcept (l.address a offset bytes.size)
  unless ← modifyGet fun d => NorFlash.write d address bytes do
    throw .writeError

def erase (l : Layout) (a : Area) : FlashM δ Unit := do
  let address := (l.info a).address
  unless ← modifyGet fun d => NorFlash.erase d address (address + l.areaSize) do
    throw .writeError

end Layout

/-! ### Transfers -/

/-- The size of the buffer every access of the store goes through. -/
def scratchSize : Nat := 64

/-- `[start, stop)` cut into consecutive pieces `(offset, length)`, none over `scratchSize`. -/
def pieces (start stop : Nat) : List (Nat × Nat) :=
  if start < stop then
    let n := min (stop - start) scratchSize
    (start, n) :: pieces (start + n) stop
  else []
termination_by stop - start
decreasing_by simp only [scratchSize]; omega

theorem sum_length_pieces (start stop : Nat) :
    (pieces start stop).foldr (fun piece n => piece.2 + n) 0 = stop - start := by
  fun_induction pieces start stop with
  | case1 start h n ih =>
    simp only [List.foldr_cons, ih]
    simp only [n, scratchSize]
    omega
  | case2 start h => simp; omega

theorem bounds_of_mem_pieces {start stop offset length : Nat}
    (h : (offset, length) ∈ pieces start stop) :
    0 < length ∧ length ≤ scratchSize ∧ start ≤ offset ∧ offset + length ≤ stop := by
  fun_induction pieces start stop with
  | case1 start hlt n ih =>
    simp only [List.mem_cons, Prod.mk.injEq] at h
    rcases h with ⟨rfl, rfl⟩ | h
    · simp only [n, scratchSize]; omega
    · have := ih h; simp only [n, scratchSize] at *; omega
  | case2 => simp at h

end NorStore
