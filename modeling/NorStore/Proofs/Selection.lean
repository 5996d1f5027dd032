import NorStore.Generation
import NorStore.Proofs.LogScan

/-! # The master records and the active area

`readMaster` reads an area's master record at offset 0 and `selectActive` picks the active area
from both. On a chip that holds the partition both read what the bytes say: `masterOf` is the
generation of the master record at the start of an area's bytes, and `activeOf` picks between
the two areas' generations. Only a read the device refuses makes them fail.

The rest of the module is about `pick`: an area with no master record never wins, and an area
one generation ahead of the other always does, whichever of the two it is. The last fact is
what makes a compaction switch the active area, and the first one what keeps the old area
active until the new master record is written.
-/

namespace NorStore.Generation

open Record

variable [Crc]

/-- The generation in the master record at the start of an area's bytes, if one is there. -/
def masterOf (g : Geometry) (A : ByteArray) : Option UInt16 :=
  match decode g A 0 with
  | .ok (some ⟨_, .master version, _⟩) => some version
  | _ => none

/-- The generation in the master record of area `a` of the flash `cells`. -/
def masterIn (l : Layout) (cells : ByteArray) (a : Area) : Option UInt16 :=
  masterOf l.geometry (l.bytes cells a)

/-- The active area and its generation, as the master records of the flash `cells` say. -/
def activeOf (l : Layout) (cells : ByteArray) : Option (Area × UInt16) :=
  pick (masterIn l cells .first) (masterIn l cells .second)

variable {l : Layout} {c : Chip}

theorem masterOf_of_erased {g : Geometry} {A : ByteArray} (he : Erased A 0 headerSize) :
    masterOf g A = none := by
  unfold masterOf
  rw [decode_of_erased (by simpa using he)]

omit [Crc] in
theorem type_of_record_master {h : Header} {payload : ByteArray} {v : UInt16}
    (hrec : h.record payload = .master v) : h.type = masterType := by
  unfold Header.record at hrec
  split at hrec
  · assumption
  · split at hrec <;> cases hrec

theorem decode_of_masterOf {g : Geometry} {A : ByteArray} {v : UInt16} (h : masterOf g A = some v) :
    decode g A 0 = .ok (some ⟨0, .master v, masterSize g⟩) := by
  unfold masterOf at h
  split at h
  · rename_i offset next hd
    cases h
    obtain ⟨hdr, -, -, -, ⟨-, hmaster, -⟩, -, he⟩ := decode_eq_ok_some hd
    rw [hd, he]
    have hrec : hdr.record (A.extract (0 + headerSize) (0 + headerSize + hdr.payloadSize)) =
        .master v := by
      have := congrArg Entry.record he
      exact this.symm
    rw [hrec, hmaster (type_of_record_master hrec), Nat.zero_add]
    rfl
  · cases h

theorem masterOf_congr {g : Geometry} {A A' : ByteArray} (hsize : A'.size = A.size)
    (hhead : A'.extract 0 (masterSize g) = A.extract 0 (masterSize g)) :
    masterOf g A' = masterOf g A := by
  have key : ∀ {A A' : ByteArray} {v : UInt16}, A'.size = A.size →
      A'.extract 0 (masterSize g) = A.extract 0 (masterSize g) →
      masterOf g A = some v → masterOf g A' = some v := by
    intro A A' v hsize hhead h
    unfold masterOf
    rw [decode_congr hsize (decode_of_masterOf h) hhead]
  cases hA : masterOf g A with
  | some v => exact key hsize hhead hA
  | none =>
    cases hA' : masterOf g A' with
    | none => rfl
    | some v =>
      rw [key hsize.symm hhead.symm hA'] at hA
      cases hA

/-! ### Which area wins -/

omit [Crc] in
theorem pick_eq_some {f s : Option UInt16} {a : Area} {v : UInt16}
    (h : pick f s = some (a, v)) : (a = .first ∧ f = some v) ∨ (a = .second ∧ s = some v) := by
  cases f with
  | none =>
    cases s with
    | none => cases h
    | some s => cases h; exact .inr ⟨rfl, rfl⟩
  | some f =>
    cases s with
    | none => cases h; exact .inl ⟨rfl, rfl⟩
    | some s =>
      by_cases hn : Newer s f
      · rw [pick, if_pos hn] at h
        cases h; exact .inr ⟨rfl, rfl⟩
      · rw [pick, if_neg hn] at h
        cases h; exact .inl ⟨rfl, rfl⟩

theorem masterIn_of_activeOf {cells : ByteArray} {a : Area} {v : UInt16}
    (h : activeOf l cells = some (a, v)) : masterIn l cells a = some v := by
  rcases pick_eq_some h with ⟨rfl, hv⟩ | ⟨rfl, hv⟩ <;> exact hv

theorem activeOf_of_other_none {cells : ByteArray} {a : Area} {v : UInt16}
    (ha : masterIn l cells a = some v) (hother : masterIn l cells a.other = none) :
    activeOf l cells = some (a, v) := by
  unfold activeOf
  cases a with
  | first =>
    change masterIn l cells .second = none at hother
    rw [ha, hother]; rfl
  | second =>
    change masterIn l cells .first = none at hother
    rw [ha, hother]; rfl

theorem activeOf_of_next {cells : ByteArray} {a : Area} {v : UInt16}
    (ha : masterIn l cells a = some v) (hnext : masterIn l cells a.other = some (v + 1)) :
    activeOf l cells = some (a.other, v + 1) := by
  unfold activeOf
  have hnewer : Newer (v + 1) v := by
    unfold Newer
    rw [UInt16.add_comm, UInt16.add_sub_cancel]
    decide
  cases a with
  | first =>
    change masterIn l cells .second = some (v + 1) at hnext
    rw [ha, hnext]
    simp [pick, hnewer, Area.other]
  | second =>
    change masterIn l cells .first = some (v + 1) at hnext
    rw [ha, hnext]
    simp [pick, hnewer.asymm, Area.other]

/-! ### Reading the master records -/

variable [LawfulCrc]

theorem readMaster_run (hl : l.Valid) (h : l.Inside c.cells.size) (a : Area) :
    Chip.Keeps c ((readMaster l a).run.run c).2 ∧
      (((readMaster l a).run.run c).1 = .ok (masterIn l c.cells a) ∨
        (c.failFrom ≠ none ∧ ((readMaster l a).run.run c).1 = .error .readError)) := by
  have hA := Layout.size_bytes h a
  unfold readMaster
  rw [FlashM.run_lift_bind]
  obtain ⟨hk, hr⟩ := readAt_run hl h a 0 none
  generalize (readAt l a 0 none).run c = q at hk hr ⊢
  obtain ⟨fetch, c1⟩ := q
  dsimp only at hk hr ⊢
  rcases hr with rfl | ⟨hf, hout⟩
  · rw [fetch_outcome_none hA]
    unfold masterIn masterOf
    cases hd : decode l.geometry (l.bytes c.cells a) 0 with
    | error e =>
      -- a record that does not decode is corrupt, which reads as no master record
      rw [Log.eq_dataCorrupt_of_decode hd]
      exact ⟨hk, .inl rfl⟩
    | ok r =>
      rcases r with _ | ⟨_, record, _⟩
      · exact ⟨hk, .inl rfl⟩
      · cases record <;> exact ⟨hk, .inl rfl⟩
  · rw [hout]
    exact ⟨hk, .inr ⟨hf, rfl⟩⟩

theorem selectActive_run (hl : l.Valid) (h : l.Inside c.cells.size) :
    Chip.Keeps c ((selectActive l).run.run c).2 ∧
      (((selectActive l).run.run c).1 = .ok (activeOf l c.cells) ∨
        (c.failFrom ≠ none ∧ ((selectActive l).run.run c).1 = .error .readError)) := by
  unfold selectActive
  rw [FlashM.run_bind]
  obtain ⟨hk, hr⟩ := readMaster_run hl h .first
  generalize (readMaster l .first).run.run c = q at hk hr ⊢
  obtain ⟨r, c1⟩ := q
  dsimp only at hk hr ⊢
  rcases hr with rfl | ⟨hf, rfl⟩
  · dsimp only
    rw [FlashM.run_bind]
    have h1 : l.Inside c1.cells.size := hk.cells ▸ h
    obtain ⟨hk', hr'⟩ := readMaster_run hl h1 .second
    generalize (readMaster l .second).run.run c1 = q at hk' hr' ⊢
    obtain ⟨r', c2⟩ := q
    dsimp only at hk' hr' ⊢
    rcases hr' with rfl | ⟨hf', rfl⟩
    · rw [hk.cells]
      exact ⟨hk.trans hk', .inl rfl⟩
    · exact ⟨hk.trans hk', .inr ⟨hk.failFrom ▸ hf', rfl⟩⟩
  · exact ⟨hk, .inr ⟨hf, rfl⟩⟩

end NorStore.Generation
