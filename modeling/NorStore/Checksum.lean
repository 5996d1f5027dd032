/-! # Checksums (platform.rs:17-23, tests/common.rs:217-221)

Every record carries a 32-bit checksum of its header and payload, computed with the platform's
CRC (`Crc`): `crc32 init data` continues the checksum `init` over `data`. The store feeds a
payload to it piece by piece as the payload streams off the flash, which gives the checksum of
the whole payload only when the CRC chains, `crc32 (crc32 init a) b = crc32 init (a ++ b)`: the
platform's contract, stated here as its own class (`LawfulCrc`) so that a result which needs it
says so.

The bench's CRC is zlib's CRC-32: the reflected polynomial `0xEDB88320`, the register inverted
before the first byte and after the last. `Checksum.crc32` computes it a byte at a time from a
table of 256 entries; it chains (`Checksum.crc32_append`) and is the default instance.
-/

namespace NorStore

/-- The platform's checksum over byte strings, continued from a starting value. -/
class Crc where
  crc32 : UInt32 → ByteArray → UInt32

/-- The chaining law: feeding a message in two pieces gives the checksum of the whole. -/
class LawfulCrc [Crc] : Prop where
  crc32_append (init : UInt32) (a b : ByteArray) :
    Crc.crc32 (Crc.crc32 init a) b = Crc.crc32 init (a ++ b)

namespace Checksum

/-- The reflected generator polynomial of CRC-32. -/
def polynomial : UInt32 := 0xEDB88320

/-- Shifts one bit out of the register, folding in the polynomial when that bit was set. -/
def shiftBit (r : UInt32) : UInt32 :=
  if r &&& 1 = 1 then (r >>> 1) ^^^ polynomial else r >>> 1

/-- What eight bit steps fold into the register for each value of its low byte. -/
def table : Array UInt32 :=
  Array.ofFn fun i : Fin 256 => Nat.repeat shiftBit 8 i.val.toUInt32

/-- Feeds one byte into the register: the byte enters the low end and eight bits shift out. -/
def byteStep (r : UInt32) (b : UInt8) : UInt32 :=
  (r >>> 8) ^^^ table.getD ((r ^^^ b.toUInt32) &&& 0xFF).toNat 0

/-- The register after the bytes of `data`, starting from the register `r`. -/
def register (r : UInt32) (data : ByteArray) : UInt32 :=
  data.data.foldl byteStep r

/-- zlib's CRC-32 of `data`, continuing the checksum `init` (`0` starts a fresh one). -/
def crc32 (init : UInt32) (data : ByteArray) : UInt32 :=
  ~~~ register (~~~ init) data

theorem register_append (r : UInt32) (a b : ByteArray) :
    register r (a ++ b) = register (register r a) b := by
  simp [register, ByteArray.data_append]

theorem crc32_append (init : UInt32) (a b : ByteArray) :
    crc32 (crc32 init a) b = crc32 init (a ++ b) := by
  simp [crc32, register_append, UInt32.not_not]

instance zlib : Crc := ⟨crc32⟩

instance zlib_lawful : LawfulCrc := ⟨crc32_append⟩

end Checksum

end NorStore
