import NorStore.Record.Access

/-! # Generations and the active area (area.rs:138-210)

Each compaction writes the master record of the next generation, a 16-bit number that wraps
around. Generations are compared on the circle (`is_newer`, `area.rs:208-210`): `a` is newer
than `b` when `a` is 1 to 32767 steps ahead of `b` (`Newer`), so of two generations at most one
is newer (`Newer.asymm`). `readMaster` reads an area's master record (`read_master`,
`area.rs:138-156`) and `selectActive` picks the active area (`select_active`,
`area.rs:159-181`): the one whose master record is valid; when both are, the one with the newer
generation, and the first one on a tie.
-/

namespace NorStore.Generation

open Record

variable {δ : Type} [NorFlash δ] [Crc]

/-- `a` is ahead of `b` by 1 to 32767 steps, counting modulo `2^16`. -/
def Newer (a b : UInt16) : Prop := a - b ≠ 0 ∧ a - b < 0x8000

instance (a b : UInt16) : Decidable (Newer a b) := by
  unfold Newer; infer_instance

omit [Crc] in
theorem not_newer_self (a : UInt16) : ¬ Newer a a := by
  simp [Newer]

omit [Crc] in
theorem Newer.asymm {a b : UInt16} (h : Newer a b) : ¬ Newer b a := by
  unfold Newer at *
  intro h'
  have ha := UInt16.toNat_lt a
  have hb := UInt16.toNat_lt b
  simp only [ne_eq, UInt16.lt_iff_toNat_lt, ← UInt16.toNat_inj, UInt16.toNat_sub] at h h'
  simp at h h'
  omega

/-- The generation in an area's master record, or `none` when it holds no valid one. -/
def readMaster (l : Layout) (a : Area) : FlashM δ (Option UInt16) := do
  let fetch ← (readAt l a 0 none : StateM δ Fetch)
  match fetch.outcome with
  | .ok (some ⟨_, .master version, _⟩) => return some version
  | .ok _ => return none
  | .error .dataCorrupt => return none
  | .error e => throw e

/-- The area of the newer of two generations found in the first and the second area. -/
def pick : Option UInt16 → Option UInt16 → Option (Area × UInt16)
  | some f, some s => if Newer s f then some (.second, s) else some (.first, f)
  | some f, none => some (.first, f)
  | none, some s => some (.second, s)
  | none, none => none

/-- The active area and its generation, read off both master records, the first area's first. -/
def selectActive (l : Layout) : FlashM δ (Option (Area × UInt16)) := do
  let first ← readMaster l .first
  let second ← readMaster l .second
  return pick first second

end NorStore.Generation
