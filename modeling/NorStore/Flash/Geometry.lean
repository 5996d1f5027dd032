/-! # Flash geometry (platform.rs)

A NOR flash reads and programs whole units of `readSize` and `writeSize` bytes and erases whole
blocks of `eraseSize` bytes. Records are laid out on a grid of `recordAlignment` bytes, the
largest of four and the two access units (`AlignedOps::record_alignment`, `platform.rs:37-41`),
so every record starts where both a read and a write may start. `alignUp n a` rounds `n` up to a
multiple of `a` (`align_ceil`, `platform.rs:55-62`; `le_alignUp`, `alignUp_mod`), `readLength` is
`align_read` (`platform.rs:31-33`) and `Supported` is `geometry_supported` (`platform.rs:47-51`).
-/

namespace NorStore

/-- The access units of a NOR flash, in bytes. -/
structure Geometry where
  /-- Reads move whole units of this many bytes. -/
  readSize : Nat
  /-- Writes program whole units of this many bytes. -/
  writeSize : Nat
  /-- Erases clear whole blocks of this many bytes. -/
  eraseSize : Nat
deriving Repr, DecidableEq, Inhabited

/-- The least multiple of `a` that is at least `n`. -/
def alignUp (n a : Nat) : Nat := (n + a - 1) / a * a

/-- A power of two: exactly one bit set. -/
def IsPowerOfTwo (n : Nat) : Prop := n ≠ 0 ∧ n &&& (n - 1) = 0

instance (n : Nat) : Decidable (IsPowerOfTwo n) := by
  unfold IsPowerOfTwo; infer_instance

theorem alignUp_mod (n a : Nat) : alignUp n a % a = 0 := by
  simp [alignUp]

theorem le_alignUp (n a : Nat) (h : 0 < a) : n ≤ alignUp n a := by
  have h1 := Nat.div_add_mod (n + a - 1) a
  have h2 := Nat.mod_lt (n + a - 1) h
  rw [Nat.mul_comm] at h1
  unfold alignUp
  omega

namespace Geometry

/-- Records start on multiples of this many bytes: four, or a larger access unit. -/
def recordAlignment (g : Geometry) : Nat := max 4 (max g.readSize g.writeSize)

/-- A read of `n` bytes widened to whole read units. -/
def readLength (g : Geometry) (n : Nat) : Nat := alignUp n g.readSize

/-- Both access units are powers of two and a record's alignment fits the 64-byte transfers. -/
def Supported (g : Geometry) : Prop :=
  IsPowerOfTwo g.readSize ∧ IsPowerOfTwo g.writeSize ∧ g.recordAlignment ≤ 64

instance (g : Geometry) : Decidable g.Supported := by
  unfold Supported; infer_instance

theorem four_le_recordAlignment (g : Geometry) : 4 ≤ g.recordAlignment :=
  Nat.le_max_left _ _

end Geometry

end NorStore
