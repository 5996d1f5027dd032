import NorStore.Proofs.StoreRun
import NorStore.Proofs.Append

/-! # The store's write operations on a chip

`set`, `remove` and `compact` refuse what is out of range before anything is read, then work
from the loaded index (`loaded_run`) and run one device step from it: an append for `set` and
`remove`, a compaction for `compact`. `guarded` commits what the step answers: the store holds
the new index after a success, none after a refused access, and the old index after any other
failure (`Store.committed`). `Committed` lists these outcomes once, with the device step as a
parameter, and the run lemma of each operation names its step.
-/

namespace NorStore

open Record Generation Index

namespace Store

/-- A store's layout is valid and on the chip, with at most `masterType` types. -/
structure Mounted (s : Store) (c : Chip) : Prop where
  valid : s.layout.Valid
  inside : s.layout.Inside c.cells.size
  types : s.numTypes ≤ masterType

variable [Crc]

/-- The store's index, when it holds one, is coherent with the flash `cells`. -/
def Sound (s : Store) (cells : ByteArray) : Prop :=
  ∀ i, s.index? = some i → Coherent s.layout s.numTypes.toNat cells i

/-- The store after an operation from `i` answered `r`: its index, none, or `i`. -/
def committed (s : Store) (i : Index) : Except Error Index → Store
  | .ok i' => { s with index? := some i' }
  | .error e => if e.isFlashFault then { s with index? := none } else { s with index? := some i }

/-- How an operation running `step` from the loaded index can end: answer, store and chip. -/
inductive Committed (s : Store) (c : Chip)
    (step : Index → Chip → Except Error Index → Chip → Prop) :
    Except Error Unit → Store → Chip → Prop
  /-- The store held no index, and loading it failed. -/
  | loadFailed {e : Error} {c' : Chip} (hnone : s.index? = none)
      (hload : Loaded s.layout s.numTypes.toNat c (.error e) c') :
      Committed s c step (.error e) { s with index? := none } c'
  /-- The step ran from the store's index, or from a fresh load, on the chip `c₁`, which keeps
  the fault setting and still holds the partition. -/
  | ran {i : Index} {c₁ : Chip} {r : Except Error Index} {c' : Chip}
      (hfrom : (s.index? = some i ∧ c₁ = c) ∨
        (s.index? = none ∧ Loaded s.layout s.numTypes.toNat c (.ok i) c₁))
      (hstep : step i c₁ r c') (hff : c₁.failFrom = c.failFrom)
      (hin : s.layout.Inside c₁.cells.size) :
      Committed s c step (r.map fun _ => ()) (s.committed i r) c'

omit [Crc] in
theorem run_commit {δ : Type} (m : FlashM δ Index) (s : Store) (i : Index) (d : δ) :
    (guarded (do setIndex (some (← onFlash m))) : StoreM δ Unit).run.run
        ({ s with index? := some i }, d) =
      ((m.run.run d).1.map fun _ => (), (s.committed i (m.run.run d).1, (m.run.run d).2)) := by
  rw [run_guarded, FlashM.run_bind, run_onFlash]
  rcases m.run.run d with ⟨_ | i', d'⟩
  · rename_i e
    by_cases he : e.isFlashFault = true
    · simp only [committed, if_pos he]; rfl
    · simp only [committed, if_neg he]; rfl
  · rfl

theorem Loaded.coherent {l : Layout} {count : Nat} {c c' : Chip} {i : Index}
    (h : Loaded l count c (.ok i) c') : Coherent l count c'.cells i := by
  cases h with
  | clean hscan hkeeps =>
    rw [hkeeps.cells]
    exact (scanned_of_scanOf hscan).2.2 rfl
  | recovered hscan hkeeps hcompact =>
    cases hcompact with
    | done harea hcoherent hsource hvalues => exact hcoherent

variable {s : Store} {c : Chip}

theorem coherent_of_from (hsound : s.Sound c.cells) {i : Index} {c₁ : Chip}
    (hfrom : (s.index? = some i ∧ c₁ = c) ∨
      (s.index? = none ∧ Loaded s.layout s.numTypes.toNat c (.ok i) c₁)) :
    Coherent s.layout s.numTypes.toNat c₁.cells i := by
  rcases hfrom with ⟨hs, rfl⟩ | ⟨-, hload⟩
  · exact hsound i hs
  · exact hload.coherent

theorem from_of_loaded {i : Index} {c₁ : Chip} {r : Except Error Index} (hr : r = .ok i)
    (hfrom : (∃ i, s.index? = some i ∧ r = .ok i ∧ c₁ = c) ∨
      (s.index? = none ∧ Loaded s.layout s.numTypes.toNat c r c₁)) :
    (s.index? = some i ∧ c₁ = c) ∨
      (s.index? = none ∧ Loaded s.layout s.numTypes.toNat c (.ok i) c₁) := by
  rcases hfrom with ⟨i', hs, hr', rfl⟩ | ⟨hs, hload⟩
  · rw [hr] at hr'
    cases hr'
    exact .inl ⟨hs, rfl⟩
  · rw [hr] at hload
    exact .inr ⟨hs, hload⟩

variable [LawfulCrc]

theorem set_run (hm : s.Mounted c) (hsound : s.Sound c.cells) (type : UInt8) (value : ByteArray) :
    ∃ r s' c', (set type value : StoreM Chip Unit).run.run (s, c) = (r, (s', c')) ∧
      c'.failFrom = c.failFrom ∧ s.layout.Inside c'.cells.size ∧
      (((type ≥ s.numTypes ∨ value.size > s.layout.maxItemSize) ∧ r = .error .badValue ∧ s' = s ∧
          c' = c) ∨
        (type < s.numTypes ∧ value.size ≤ s.layout.maxItemSize ∧
          Committed s c (fun i c₁ => Added s.layout s.numTypes.toNat c₁ i ⟨type, 0, value⟩)
            r s' c')) := by
  unfold set
  rw [FlashM.run_bind, run_checkType]
  by_cases ht : type ≥ s.numTypes
  · rw [if_pos ht]
    exact ⟨_, _, _, rfl, rfl, hm.inside, .inl ⟨.inl ht, rfl, rfl, rfl⟩⟩
  rw [if_neg ht]
  dsimp only
  rw [FlashM.run_bind, run_current]
  dsimp only
  by_cases hv : value.size > s.layout.maxItemSize
  · rw [if_pos hv]
    exact ⟨_, _, _, rfl, rfl, hm.inside, .inl ⟨.inr hv, rfl, rfl, rfl⟩⟩
  rw [if_neg hv, FlashM.run_bind]
  obtain ⟨r, c₁, hrun, hff, hin, hfrom⟩ := loaded_run hm.valid hm.inside
  rw [hrun]
  have htype : type < s.numTypes := UInt8.not_le.mp ht
  cases r with
  | error e =>
    have hload : s.index? = none ∧ Loaded s.layout s.numTypes.toNat c (.error e) c₁ := by
      rcases hfrom with ⟨i, -, hr, -⟩ | h
      · cases hr
      · exact h
    exact ⟨_, _, _, rfl, hff, hin, .inr ⟨htype, by omega, .loadFailed hload.1 hload.2⟩⟩
  | ok i =>
    dsimp only [Except.toOption]
    rw [run_commit]
    have hfrom' := from_of_loaded rfl hfrom
    have hlen : value.size ≤ 0xFFFF := by
      have := Nat.not_lt.mp hv
      simp only [Layout.maxItemSize] at this
      omega
    have hmaster : type < masterType := by
      have := UInt8.lt_iff_toNat_lt.mp htype
      have := UInt8.le_iff_toNat_le.mp hm.types
      exact UInt8.lt_iff_toNat_lt.mpr (by omega)
    obtain ⟨hff₂, hin₂, hadded⟩ := append_run hm.valid hin (Nat.le_of_lt (UInt8.toNat_lt _))
      (coherent_of_from hsound hfrom') 0 value hmaster hlen
    exact ⟨_, _, _, rfl, hff₂.trans hff, hin₂, .inr ⟨htype, by omega, .ran hfrom' hadded hff hin⟩⟩

theorem remove_run (hm : s.Mounted c) (hsound : s.Sound c.cells) (type : UInt8) :
    ∃ r s' c', (remove type : StoreM Chip Unit).run.run (s, c) = (r, (s', c')) ∧
      c'.failFrom = c.failFrom ∧ s.layout.Inside c'.cells.size ∧
      ((type ≥ s.numTypes ∧ r = .error .badValue ∧ s' = s ∧ c' = c) ∨
        (type < s.numTypes ∧
          Committed s c (fun i c₁ r c' => ((i.slot? type).isNone ∧ r = .ok i ∧ c' = c₁) ∨
            ((i.slot? type).isSome ∧ Added s.layout s.numTypes.toNat c₁ i ⟨type, deleteFlag, .empty⟩ r c'))
            r s' c')) := by
  unfold remove
  rw [FlashM.run_bind, run_checkType]
  by_cases ht : type ≥ s.numTypes
  · rw [if_pos ht]
    exact ⟨_, _, _, rfl, rfl, hm.inside, .inl ⟨ht, rfl, rfl, rfl⟩⟩
  rw [if_neg ht]
  dsimp only
  rw [FlashM.run_bind]
  obtain ⟨r, c₁, hrun, hff, hin, hfrom⟩ := loaded_run hm.valid hm.inside
  rw [hrun]
  have htype : type < s.numTypes := UInt8.not_le.mp ht
  cases r with
  | error e =>
    have hload : s.index? = none ∧ Loaded s.layout s.numTypes.toNat c (.error e) c₁ := by
      rcases hfrom with ⟨i, -, hr, -⟩ | h
      · cases hr
      · exact h
    exact ⟨_, _, _, rfl, hff, hin, .inr ⟨htype, .loadFailed hload.1 hload.2⟩⟩
  | ok i =>
    dsimp only [Except.toOption]
    have hfrom' := from_of_loaded rfl hfrom
    by_cases hnone : (i.slot? type).isNone = true
    · -- nothing to delete: the store keeps the loaded index
      rw [if_pos hnone]
      exact ⟨_, _, _, rfl, hff, hin,
        .inr ⟨htype, .ran (r := .ok i) hfrom' (.inl ⟨hnone, rfl, rfl⟩) hff hin⟩⟩
    rw [if_neg hnone, FlashM.run_bind, run_current]
    dsimp only
    rw [run_commit]
    have hmaster : type < masterType := by
      have := UInt8.lt_iff_toNat_lt.mp htype
      have := UInt8.le_iff_toNat_le.mp hm.types
      exact UInt8.lt_iff_toNat_lt.mpr (by omega)
    obtain ⟨hff₂, hin₂, hadded⟩ := append_run hm.valid hin (Nat.le_of_lt (UInt8.toNat_lt _))
      (coherent_of_from hsound hfrom') deleteFlag .empty hmaster (by decide)
    have hsome : (i.slot? type).isSome = true := by
      cases h : i.slot? type
      · rw [h] at hnone; exact absurd rfl hnone
      · rfl
    exact ⟨_, _, _, rfl, hff₂.trans hff, hin₂, .inr ⟨htype, .ran hfrom' (.inr ⟨hsome, hadded⟩) hff hin⟩⟩

theorem compact_run (hm : s.Mounted c) (hsound : s.Sound c.cells) :
    ∃ r s' c', (compact : StoreM Chip Unit).run.run (s, c) = (r, (s', c')) ∧
      c'.failFrom = c.failFrom ∧ s.layout.Inside c'.cells.size ∧
      Committed s c (fun i c₁ => Compacted s.layout s.numTypes.toNat c₁ i none) r s' c' := by
  unfold compact
  rw [FlashM.run_bind]
  obtain ⟨r, c₁, hrun, hff, hin, hfrom⟩ := loaded_run hm.valid hm.inside
  rw [hrun]
  cases r with
  | error e =>
    have hload : s.index? = none ∧ Loaded s.layout s.numTypes.toNat c (.error e) c₁ := by
      rcases hfrom with ⟨i, -, hr, -⟩ | h
      · cases hr
      · exact h
    exact ⟨_, _, _, rfl, hff, hin, .loadFailed hload.1 hload.2⟩
  | ok i =>
    dsimp only [Except.toOption]
    have hfrom' := from_of_loaded rfl hfrom
    rw [FlashM.run_bind, run_current]
    dsimp only
    rw [run_commit]
    obtain ⟨hff₂, hin₂, hcompacted⟩ := Index.compact_run hm.valid hin
      (Nat.le_of_lt (UInt8.toNat_lt _)) (coherent_of_from hsound hfrom').toScanned none (by simp)
    exact ⟨_, _, _, rfl, hff₂.trans hff, hin₂, .ran hfrom' hcompacted hff hin⟩

end Store

end NorStore
