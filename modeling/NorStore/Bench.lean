import NorStore.Flash.Chip
import NorStore.Store.Shared

/-! # A test bench for the store (tests/common.rs)

A bench is a simulated chip of one geometry with at most one store mounted on it, as the tests
use `Flash` (`tests/common.rs`). Mounting a store drops the one before it and remembers the
partition, even when the partition is refused, so that the store can be mounted again as after a
power cycle (`remount`): the new store has the default number of types and has loaded nothing.
When the bench is `shared`, stores are mounted behind a shared handle and every store operation
goes through it.

Besides store operations the bench can change and read the chip directly, and write a master
record as `program_master` does (`tests/common.rs:39-49`); those are not device accesses, so
they are neither counted nor refused.
-/

namespace NorStore

variable [Crc]

/-- How a mounted store is reached: directly or through a shared handle. -/
inductive Handle where
  | plain (store : Store)
  | shared (store : SharedStore)

namespace Handle

def run {α : Type} (h : Handle) (op : StateM (Store × Chip) α) (chip : Chip) :
    α × Handle × Chip :=
  match h with
  | plain s =>
    let (a, s, chip) := op.run (s, chip)
    (a, plain s, chip)
  | shared sh =>
    let (a, sh, chip) := (SharedStore.exclusive op).run (sh, chip)
    (a, shared sh, chip)

def query {α : Type} (h : Handle) (f : Store → α) : α :=
  match h with
  | plain s => f s
  | shared sh => sh.query f

end Handle

/-- A simulated chip with possibly a store mounted on it. -/
structure Bench where
  geometry : Geometry
  chip : Chip
  /-- Whether stores are mounted behind a shared handle. -/
  shared : Bool
  /-- The mounted store, if any. -/
  store? : Option Handle := none
  /-- The partition of the last mount, kept even when that mount failed. -/
  partition? : Option (Nat × Nat) := none

namespace Bench

/-- A bench with an erased chip of `size` bytes and no store. -/
def create (g : Geometry) (size : Nat) (shared : Bool) : Bench :=
  { geometry := g, chip := Chip.erased size, shared }

/-- Mounts a new store on `[offset, offset + size)`, dropping the mounted one. -/
def mount (b : Bench) (offset size : Nat) : Except Error Unit × Bench :=
  let b := { b with partition? := some (offset, size) }
  match Store.create b.geometry offset size with
  | .ok s =>
    let h := if b.shared then Handle.shared (SharedStore.new s) else Handle.plain s
    (.ok (), { b with store? := some h })
  | .error e => (.error e, { b with store? := none })

/-- Mounts a store again on the last partition; `none` if nothing was ever mounted. -/
def remount (b : Bench) : Option (Except Error Unit) × Bench :=
  match b.partition? with
  | some (offset, size) =>
    let (r, b) := b.mount offset size
    (some r, b)
  | none => (none, b)

def hasStore (b : Bench) : Bool := b.store?.isSome

/-- Whether the mounted store has loaded its index, if a store is mounted. -/
def initialized? (b : Bench) : Option Bool := b.store?.map (·.query Store.isInitialized)

def query {α : Type} (b : Bench) (f : Store → α) : Option α := b.store?.map (·.query f)

/-- Runs a store operation on the mounted store and the chip; `none` if no store is mounted. -/
def call {α : Type} (b : Bench) (op : StateM (Store × Chip) α) : Option α × Bench :=
  match b with
  | { geometry, chip, shared, store? := some h, partition? } =>
    let (a, h, chip) := h.run op chip
    (some a, { geometry, chip, shared, store? := some h, partition? })
  | b => (none, b)

def attempt {α : Type} (b : Bench) (op : StoreM Chip α) : Option (Except Error α) × Bench :=
  b.call op.run

/-- Replaces the mounted store by what `f` makes of it, keeping it on `f`'s error. -/
def update (b : Bench) (f : Store → Except Error Store) : Option (Except Error Unit) × Bench :=
  b.call (modifyGet fun (s, d) =>
    match f s with
    | .ok s => (.ok (), (s, d))
    | .error e => (.error e, (s, d)))

/-! ### Direct access to the chip -/

def failAfter (b : Bench) (n : Nat) : Bench := { b with chip := b.chip.failAfter n }

def clearFaults (b : Bench) : Bench := { b with chip := b.chip.clearFaults }

/-- Changes the chip directly by `f`, which answers whether it could. -/
def onChip (b : Bench) (f : Chip → Bool × Chip) : Bool × Bench :=
  match b with
  | { geometry, chip, shared, store?, partition? } =>
    let (done, chip) := f chip
    (done, { geometry, chip, shared, store?, partition? })

def poke (b : Bench) (address : Nat) (bytes : ByteArray) : Bool × Bench :=
  b.onChip (·.poke address bytes)

def flip (b : Bench) (address : Nat) (mask : UInt8) : Bool × Bench :=
  b.onChip (·.flip address mask)

/-- The twelve bytes of a master record of generation `version`: its header and payload. -/
def masterRecord (version : UInt16) : ByteArray :=
  let payload := Record.masterPayload version
  (Record.Header.ofPayload Record.masterType 0 payload).toBytes ++ payload

/-- Overwrites the chip at `address` with a master record of generation `version`. -/
def programMaster (b : Bench) (address : Nat) (version : UInt16) : Bool × Bench :=
  b.poke address (masterRecord version)

def dump (b : Bench) (address length : Nat) : Option ByteArray := b.chip.dump address length

end Bench

end NorStore
