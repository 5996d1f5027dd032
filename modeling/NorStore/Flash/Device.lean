/-! # NOR flash devices (platform.rs:13-15)

What the store needs of a flash, the `NorFlash` half of `Platform`: reading a range of bytes,
programming bytes at an address and erasing a range. Each access either happens or is refused,
and a refused access changes nothing. An access takes the device and gives it back, so a run of
the store threads one device value through its work and that value can be inspected afterwards.
-/

namespace NorStore

/-- A NOR flash: addresses are byte offsets from the start of the device. -/
class NorFlash (δ : Type) where
  /-- The bytes at `[address, address + length)`, or `none` when the device refuses. -/
  read : δ → (address length : Nat) → Option ByteArray × δ
  /-- Programs `bytes` at `address`; `false` when the device refuses. -/
  write : δ → (address : Nat) → ByteArray → Bool × δ
  /-- Erases `[start, stop)`; `false` when the device refuses. -/
  erase : δ → (start stop : Nat) → Bool × δ

end NorStore
