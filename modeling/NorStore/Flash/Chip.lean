import NorStore.Checksum
import NorStore.Flash.Device

/-! # A simulated NOR chip (tests/common.rs)

The RAM-backed flash of the tests (`Flash`, `tests/common.rs:18-214`). A chip is a row of byte
cells. Erased cells read `0xFF`; programming can only clear bits, so a programmed cell holds the
AND of what it held and the new byte (`write`, `tests/common.rs:187-214`); erasing sets a range
back to `0xFF` (`erase`, `tests/common.rs:164-185`). The chip counts the reads, writes and
erases it performed. It can be told to refuse every access once it has performed a given number
of them (`fail_after` and `fault`, `tests/common.rs:78-80` and `103-111`), which is how a power
loss in the middle of an operation is simulated: a refused access has no effect and is not
counted.

Besides the device accesses, a test bench may change cells directly (`poke`, `flip`), read
them (`dump`) and checksum them; those changes are not accesses and are never refused.
-/

namespace NorStore

/-- A simulated NOR chip with access counters and fault injection. -/
structure Chip where
  /-- The contents of the chip, one byte per address. -/
  cells : ByteArray
  /-- Reads performed. -/
  reads : Nat := 0
  /-- Writes performed. -/
  writes : Nat := 0
  /-- Erases performed. -/
  erases : Nat := 0
  /-- The access count from which on every access is refused; `none` refuses nothing. -/
  failFrom : Option Nat := none

namespace Chip

def erased (size : Nat) : Chip := { cells := ⟨Array.replicate size 0xFF⟩ }

def size (c : Chip) : Nat := c.cells.size

def accesses (c : Chip) : Nat := c.reads + c.writes + c.erases

/-- The chip performs an access to `[start, stop)`: no fault is due and the range is on it. -/
def Accepts (c : Chip) (start stop : Nat) : Prop :=
  c.failFrom.all (c.accesses < ·) = true ∧ start ≤ stop ∧ stop ≤ c.size

instance (c : Chip) (start stop : Nat) : Decidable (c.Accepts start stop) := by
  unfold Accepts; infer_instance

/-- Clears in cell `i` the bits that are clear in `b`; an address past the end is ignored. -/
def clearBits (cells : ByteArray) (i : Nat) (b : UInt8) : ByteArray :=
  if h : i < cells.size then cells.set i (cells[i] &&& b) h else cells

/-- Programs `bytes` into `cells` from `address` on. -/
def programCells (cells : ByteArray) (address : Nat) (bytes : ByteArray) : ByteArray :=
  (bytes.foldl (fun (acc : ByteArray × Nat) b => (clearBits acc.1 acc.2 b, acc.2 + 1))
    (cells, address)).1

/-- Overwrites `cells` with `bytes` from `address` on. -/
def overwriteCells (cells : ByteArray) (address : Nat) (bytes : ByteArray) : ByteArray :=
  bytes.copySlice 0 cells address bytes.size

/-- Reads `[address, address + length)`, counted as one read. -/
def read (c : Chip) (address length : Nat) : Option ByteArray × Chip :=
  if c.Accepts address (address + length) then
    (some (c.cells.extract address (address + length)), { c with reads := c.reads + 1 })
  else (none, c)

/-- Programs `bytes` at `address`, counted as one write. -/
def write (c : Chip) (address : Nat) (bytes : ByteArray) : Bool × Chip :=
  if c.Accepts address (address + bytes.size) then
    (true, { c with cells := programCells c.cells address bytes, writes := c.writes + 1 })
  else (false, c)

/-- Erases `[start, stop)`, counted as one erase. -/
def erase (c : Chip) (start stop : Nat) : Bool × Chip :=
  if c.Accepts start stop then
    (true, { c with
      cells := overwriteCells c.cells start ⟨Array.replicate (stop - start) 0xFF⟩
      erases := c.erases + 1 })
  else (false, c)

instance : NorFlash Chip where
  read := read
  write := write
  erase := erase

/-! ### Bench access -/

/-- From now on, refuse every access after `n` more have been performed. -/
def failAfter (c : Chip) (n : Nat) : Chip := { c with failFrom := some (c.accesses + n) }

/-- Perform every access from now on. -/
def clearFaults (c : Chip) : Chip := { c with failFrom := none }

/-- Overwrites the cells from `address` with `bytes`; `false` and no change if they do not fit. -/
def poke (c : Chip) (address : Nat) (bytes : ByteArray) : Bool × Chip :=
  if address + bytes.size ≤ c.size then
    (true, { c with cells := overwriteCells c.cells address bytes })
  else (false, c)

/-- Flips the bits of `mask` at `address`; `false` and no change if it is off the chip. -/
def flip (c : Chip) (address : Nat) (mask : UInt8) : Bool × Chip :=
  if h : address < c.cells.size then
    (true, { c with cells := c.cells.set address (c.cells[address] ^^^ mask) h })
  else (false, c)

def dump (c : Chip) (address length : Nat) : Option ByteArray :=
  if address + length ≤ c.size then some (c.cells.extract address (address + length)) else none

def checksum (c : Chip) : UInt32 := Checksum.crc32 0 c.cells

/-! ### Laws -/

theorem size_overwriteCells (cells : ByteArray) (address : Nat) (bytes : ByteArray)
    (h : address + bytes.size ≤ cells.size) :
    (overwriteCells cells address bytes).size = cells.size := by
  rw [overwriteCells, ByteArray.copySlice_eq_append]
  simp only [ByteArray.size_append, ByteArray.size_extract, ByteArray.size_data]
  omega

theorem read_of_not_accepts (c : Chip) (address length : Nat)
    (h : ¬ c.Accepts address (address + length)) : c.read address length = (none, c) := by
  simp [read, h]

theorem write_of_not_accepts (c : Chip) (address : Nat) (bytes : ByteArray)
    (h : ¬ c.Accepts address (address + bytes.size)) : c.write address bytes = (false, c) := by
  simp [write, h]

theorem erase_of_not_accepts (c : Chip) (start stop : Nat)
    (h : ¬ c.Accepts start stop) : c.erase start stop = (false, c) := by
  simp [erase, h]

end Chip

end NorStore
