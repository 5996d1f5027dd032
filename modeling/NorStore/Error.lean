/-! # Errors and result codes (error.rs)

Every failure of the store is one `Error` (`error.rs:36-76`), named for its cause. An error has
a message, which is the text the store reports, and a `ResultCode` (`error.rs:8-20`), the coarser
numbered status that callers across a foreign boundary see; `Error.code` is `Error::code`
(`error.rs:80-93`) and `Error.isFlashFault` is `Error::is_flash_error` (`error.rs:96-98`). The
codes are numbered `0` to `10` and `ResultCode.ofNat?` inverts the numbering (`ofNat?_toNat`).
-/

namespace NorStore

/-- Why a store operation failed. -/
inductive Error where
  /-- The partition does not start on an erase block. -/
  | invalidPartitionOffset
  /-- The partition is empty, not a whole number of erase-block pairs, ends past 4 GiB, or
  has too little room for a master record and one empty record per area. -/
  | invalidPartitionSize
  /-- The flash's access sizes cannot hold the record format. -/
  | unsupportedFlashGeometry
  /-- The flash refused a read. -/
  | readError
  /-- The flash refused a write or an erase. -/
  | writeError
  /-- No value is stored under the type. -/
  | notFound
  /-- The stored data does not form a valid record where one is needed. -/
  | dataCorrupt
  /-- An argument is outside what the store accepts. -/
  | badValue
  /-- The caller's buffer holds fewer bytes than the value it asked for. -/
  | buffTooSmall (required : Nat)
  /-- An area has no room for what must be written into it. -/
  | flashAreaTooSmall
deriving Repr, DecidableEq, Inhabited

/-- The status numbers that callers outside the library see. -/
inductive ResultCode where
  | success
  | readError
  | writeError
  | notFound
  | dataCorrupt
  | badValue
  | buffTooSmall
  | flashAreaTooSmall
  | osError
  | buffNotAligned
  | alreadyExists
deriving Repr, DecidableEq, Inhabited

namespace ResultCode

def toNat : ResultCode → Nat
  | success => 0
  | readError => 1
  | writeError => 2
  | notFound => 3
  | dataCorrupt => 4
  | badValue => 5
  | buffTooSmall => 6
  | flashAreaTooSmall => 7
  | osError => 8
  | buffNotAligned => 9
  | alreadyExists => 10

def ofNat? : Nat → Option ResultCode
  | 0 => some success
  | 1 => some readError
  | 2 => some writeError
  | 3 => some notFound
  | 4 => some dataCorrupt
  | 5 => some badValue
  | 6 => some buffTooSmall
  | 7 => some flashAreaTooSmall
  | 8 => some osError
  | 9 => some buffNotAligned
  | 10 => some alreadyExists
  | _ => none

def name : ResultCode → String
  | success => "Success"
  | readError => "ReadError"
  | writeError => "WriteError"
  | notFound => "NotFound"
  | dataCorrupt => "DataCorrupt"
  | badValue => "BadValue"
  | buffTooSmall => "BuffTooSmall"
  | flashAreaTooSmall => "FlashAreaTooSmall"
  | osError => "OsError"
  | buffNotAligned => "BuffNotAligned"
  | alreadyExists => "AlreadyExists"

@[simp]
theorem ofNat?_toNat (c : ResultCode) : ofNat? c.toNat = some c := by
  cases c <;> rfl

theorem ofNat?_eq_none_iff (n : Nat) : ofNat? n = none ↔ 10 < n := by
  constructor
  · intro h
    match n, h with
    | n + 11, _ => omega
  · intro h
    match n, h with
    | n + 11, _ => rfl

end ResultCode

namespace Error

def message : Error → String
  | invalidPartitionOffset => "invalid partition offset"
  | invalidPartitionSize => "invalid partition size"
  | unsupportedFlashGeometry => "unsupported flash geometry"
  | readError => "flash read error"
  | writeError => "flash write error"
  | notFound => "type not found"
  | dataCorrupt => "data corrupt"
  | badValue => "bad value"
  | buffTooSmall required => s!"buffer too small, {required} bytes required"
  | flashAreaTooSmall => "flash area too small"

/-- The result code of an error; the three ways a partition can be refused are all bad values. -/
def code : Error → ResultCode
  | invalidPartitionOffset => .badValue
  | invalidPartitionSize => .badValue
  | unsupportedFlashGeometry => .badValue
  | readError => .readError
  | writeError => .writeError
  | notFound => .notFound
  | dataCorrupt => .dataCorrupt
  | badValue => .badValue
  | buffTooSmall _ => .buffTooSmall
  | flashAreaTooSmall => .flashAreaTooSmall

/-- Whether the flash refused an access; only such errors make the store forget its index. -/
def isFlashFault : Error → Bool
  | readError => true
  | writeError => true
  | _ => false

theorem code_ne_success (e : Error) : e.code ≠ .success := by
  cases e <;> simp [code]

end Error

end NorStore
