import NorStore.Proofs.Selection
import NorStore.Proofs.Slots

/-! # Loading the index

`Index.scan` loads the index from the flash: the active area and its generation, the end of its
log, and the slots the log gives. On a chip that holds the partition it answers `scanOf`, the
same computed off the flash's bytes, unless a fault is set and a read was refused (`scan_run`).

The index the store keeps is meant to be what a scan of the flash gives. `Scanned` says it is,
as far as a compaction needs: the index names the active area and holds the slots of its log.
`Coherent` adds that the log is clean: it ends at erased flash exactly where the index puts the
start of free space, and everything after is erased. A scan that finds the area clean answers a
coherent index (`scanned_of_scanOf`), and a coherent index is exactly what the scan answers
(`scanOf_of_coherent`), so loading again rebuilds it.
-/

namespace NorStore

open Record Generation Log

variable [Crc]

/-- The log of area `a` of the flash `cells`, after its master record. -/
def Layout.logOf (l : Layout) (cells : ByteArray) (a : Area) : Walk :=
  chain l.geometry (l.bytes cells a) l.masterSize

namespace Index

/-- What `scan` answers on the flash `cells`: the active index and whether the area is clean. -/
def scanOf (l : Layout) (count : Nat) (cells : ByteArray) : Except Error (Index × Bool) :=
  match activeOf l cells with
  | none => .error .dataCorrupt
  | some (area, version) =>
    let w := l.logOf cells area
    .ok (⟨area, version, w.next, slotsOf count w.entries⟩,
      w.stop.isNone && decide (Blank (l.bytes cells area) w.next))

/-- The index names the active area and holds the slots its log gives `count` types. -/
structure Scanned (l : Layout) (count : Nat) (cells : ByteArray) (i : Index) : Prop where
  active : activeOf l cells = some (i.area, i.version)
  slots : i.slots = slotsOf count (l.logOf cells i.area).entries

/-- A scanned index whose log is clean up to free space, with the area erased after it. -/
structure Coherent (l : Layout) (count : Nat) (cells : ByteArray) (i : Index) : Prop
    extends Scanned l count cells i where
  clean : (l.logOf cells i.area).stop = none
  free : (l.logOf cells i.area).next = i.free
  blank : Blank (l.bytes cells i.area) i.free

variable {l : Layout} {count : Nat} {cells : ByteArray} {i : Index}

theorem Coherent.log (h : Coherent l count cells i) :
    l.logOf cells i.area = ⟨(l.logOf cells i.area).entries, none, i.free⟩ := by
  rw [← h.clean, ← h.free]

theorem Coherent.free_bounds (hl : l.Valid) (h : l.Inside cells.size) (hi : Coherent l count cells i) :
    l.masterSize ≤ i.free ∧ i.free ≤ l.areaSize := by
  have hm : l.masterSize ≤ (l.bytes cells i.area).size := by
    rw [Layout.size_bytes h]; exact hl.masterSize_le_areaSize
  rw [← hi.free, ← Layout.size_bytes h i.area]
  exact ⟨start_le_next l.geometry _ _ hm, (chain_spec l.geometry _ _ hm).2.2.1⟩

theorem scanned_of_scanOf {clean : Bool} (h : scanOf l count cells = .ok (i, clean)) :
    Scanned l count cells i ∧ i.free = (l.logOf cells i.area).next ∧
      (clean = true → Coherent l count cells i) := by
  unfold scanOf at h
  split at h
  · cases h
  · rename_i area version hact
    cases h
    refine ⟨⟨hact, rfl⟩, rfl, fun hclean => ?_⟩
    simp only [Bool.and_eq_true, Option.isNone_iff_eq_none, decide_eq_true_eq] at hclean
    exact ⟨⟨hact, rfl⟩, hclean.1, rfl, hclean.2⟩

theorem scanOf_of_coherent (h : Coherent l count cells i) : scanOf l count cells = .ok (i, true) := by
  obtain ⟨⟨hact, hslots⟩, hclean, hfree, hblank⟩ := h
  unfold scanOf
  rw [hact]
  dsimp only
  rw [hclean, hfree, ← hslots]
  simp [hblank]

/-! ### The scan on the device -/

variable {c : Chip}

variable [LawfulCrc]

theorem scan_run (hl : l.Valid) (h : l.Inside c.cells.size) (count : Nat) :
    Chip.Keeps c ((scan l count).run.run c).2 ∧
      (((scan l count).run.run c).1 = scanOf l count c.cells ∨
        (c.failFrom ≠ none ∧ ((scan l count).run.run c).1 = .error .readError)) := by
  unfold scan
  rw [FlashM.run_bind]
  obtain ⟨hk, hr⟩ := selectActive_run hl h
  generalize (selectActive l).run.run c = q at hk hr ⊢
  obtain ⟨r, c1⟩ := q
  dsimp only at hk hr ⊢
  rcases hr with rfl | ⟨hf, rfl⟩
  · unfold scanOf
    cases hact : activeOf l c.cells with
    | none => exact ⟨hk, .inl rfl⟩
    | some p =>
      obtain ⟨area, version⟩ := p
      dsimp only
      rw [FlashM.run_lift_bind]
      have h1 : l.Inside c1.cells.size := hk.cells ▸ h
      obtain ⟨hk1, hr1⟩ := walkFrom_run hl area l.masterSize c1 h1
      generalize hw : (walkFrom l area l.masterSize).run c1 = q at hk1 hr1
      obtain ⟨w, c2⟩ := q
      dsimp only at hk1 hr1
      have hwalk : (walk l area : StateM Chip Walk).run c1 = (w, c2) := hw
      rw [hwalk]
      dsimp only
      unfold Layout.logOf
      have hm : l.masterSize ≤ (l.bytes c.cells area).size := by
        rw [Layout.size_bytes h]; exact hl.masterSize_le_areaSize
      rw [hk.cells] at hr1
      rcases hr1 with rfl | ⟨hf1, hstop⟩
      · rcases (chain_spec l.geometry (l.bytes c.cells area) l.masterSize hm).2.2.2 with
          hstop | hstop
        · -- a walk that ended at erased flash is followed by the blank check
          rw [hstop]
          simp only [Option.isNone_none, if_true, Bool.true_and]
          rw [FlashM.run_bind]
          have h2 : l.Inside c2.cells.size := (hk.trans hk1).cells ▸ h
          obtain ⟨hk2, hr2⟩ := isBlankFrom_run h2 area
            (chain l.geometry (l.bytes c.cells area) l.masterSize).next
          generalize (isBlankFrom l area _).run.run c2 = q at hk2 hr2 ⊢
          obtain ⟨b, c3⟩ := q
          dsimp only at hk2 hr2 ⊢
          rw [(hk.trans hk1).cells] at hr2
          rcases hr2 with rfl | ⟨hf2, rfl⟩
          · exact ⟨(hk.trans hk1).trans hk2, .inl rfl⟩
          · exact ⟨(hk.trans hk1).trans hk2,
              .inr ⟨(hk.trans hk1).failFrom ▸ hf2, rfl⟩⟩
        · rw [hstop]
          exact ⟨hk.trans hk1, .inl rfl⟩
      · rw [hstop]
        exact ⟨hk.trans hk1, .inr ⟨hk.failFrom ▸ hf1, rfl⟩⟩
  · exact ⟨hk, .inr ⟨hf, rfl⟩⟩

end Index

end NorStore
