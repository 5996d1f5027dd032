import Mathlib.Algebra.BigOperators.Group.List.Basic
import Mathlib.Algebra.GroupWithZero.Nat
import NorStore.Proofs.Compact

/-! # Room for a compaction

A compaction copies the record that each type's slot points at. Those are records of the log,
one for each type that holds a value, so together they take no more room than the log itself
(`copiesSize_liveRecords_le`): each record of the log moves at most one slot, to itself
(`slotsRoom_note`). A compaction that writes no new record therefore always fits in an area
(`compactedSize_le_areaSize`), which is why a garbage collection, the recovery inside `load`
and a removal that has to compact never run out of room.
-/

namespace NorStore

open Record Log

namespace Index

variable {l : Layout}

/-- The room the record of a slot takes. -/
def slotRoom (l : Layout) : Option Slot → Nat
  | some s => l.recordSize s.length
  | none => 0

/-- The room the records of an array of slots take together. -/
def slotsRoom (l : Layout) (slots : Array (Option Slot)) : Nat :=
  (slots.toList.map (slotRoom l)).sum

theorem copiesSize_eq_sum (live : List (Slot × UInt8)) :
    copiesSize l live = (live.map fun p => l.recordSize p.1.length).sum := by
  induction live with
  | nil => rfl
  | cons p live ih =>
    rw [List.map_cons, List.sum_cons, ← ih]
    rfl

theorem copiesSize_filterMap_zipIdx (slots : List (Option Slot)) (n : Nat) :
    copiesSize l ((slots.zipIdx n).filterMap fun (slot, type) => slot.map (·, type.toUInt8)) =
      (slots.map (slotRoom l)).sum := by
  induction slots generalizing n with
  | nil => rfl
  | cons slot slots ih =>
    rw [List.zipIdx_cons, List.filterMap_cons, List.map_cons, List.sum_cons, ← ih (n + 1)]
    cases slot with
    | none => simp [slotRoom]
    | some s => rfl

theorem copiesSize_liveRecords (i : Index) : copiesSize l i.liveRecords = slotsRoom l i.slots := by
  unfold liveRecords slotsRoom
  rw [copiesSize_eq_sum, ((List.mergeSort_perm _ _).map _).sum_nat, ← copiesSize_eq_sum]
  exact copiesSize_filterMap_zipIdx i.slots.toList 0

theorem slotsRoom_note (slots : Array (Option Slot)) {e : Entry}
    (hlive : ∀ t length, e.record = .live t length → l.recordSize length ≤ e.next - e.offset) :
    slotsRoom l (note slots e) ≤ slotsRoom l slots + (e.next - e.offset) := by
  -- setting one slot adds its new room and takes away its old one
  have hset : ∀ (k : Nat) (v : Option Slot),
      slotsRoom l (slots.setIfInBounds k v) ≤ slotsRoom l slots + slotRoom l v := by
    intro k v
    unfold slotsRoom
    rw [Array.toList_setIfInBounds, List.map_set]
    have hsplit := List.sum_set (slots.toList.map (slotRoom l)) k (slotRoom l v)
    have htake := List.sum_take_add_sum_drop (slots.toList.map (slotRoom l)) k
    have hdrop : (List.drop (k + 1) (slots.toList.map (slotRoom l))).sum ≤
        (List.drop k (slots.toList.map (slotRoom l))).sum := by
      rw [← List.drop_drop]
      cases List.drop k (slots.toList.map (slotRoom l)) with
      | nil => simp
      | cons a rest => simp
    split at hsplit <;> omega
  obtain ⟨offset, record, next⟩ := e
  cases record with
  | master v => exact Nat.le_add_right _ _
  | live t length =>
    show slotsRoom l (slots.setIfInBounds t.toNat (some ⟨offset, length⟩)) ≤ _
    have := hset t.toNat (some ⟨offset, length⟩)
    have := hlive t length rfl
    simp only [slotRoom] at *
    omega
  | deleted t =>
    show slotsRoom l (slots.setIfInBounds t.toNat none) ≤ _
    have := hset t.toNat none
    simp only [slotRoom] at *
    omega

theorem slotsRoom_foldl_note {start stop : Nat} {es : List Entry} (h : Contiguous start es stop)
    (hlive : ∀ e ∈ es, ∀ t length, e.record = .live t length →
      l.recordSize length ≤ e.next - e.offset) (slots : Array (Option Slot)) :
    slotsRoom l (es.foldl note slots) ≤ slotsRoom l slots + (stop - start) := by
  induction h generalizing slots with
  | nil => simp
  | cons hoffset hlt rest ih =>
    rename_i start' stop' e es'
    rw [List.foldl_cons]
    have hstep := slotsRoom_note slots (hlive e List.mem_cons_self)
    have hrest := ih (fun e' he' => hlive e' (List.mem_cons_of_mem _ he')) (note slots e)
    have := rest.le
    omega

variable [Crc]

theorem copiesSize_liveRecords_le (hl : l.Valid) {count : Nat} {cells : ByteArray} {i : Index}
    (h : l.Inside cells.size) (hi : Scanned l count cells i) :
    l.masterSize + copiesSize l i.liveRecords ≤ (l.logOf cells i.area).next := by
  have hm : l.masterSize ≤ (l.bytes cells i.area).size := by
    rw [Layout.size_bytes h]; exact hl.masterSize_le_areaSize
  obtain ⟨hcontig, hdec, -, -⟩ := chain_spec l.geometry (l.bytes cells i.area) l.masterSize hm
  have hlive : ∀ e ∈ (l.logOf cells i.area).entries, ∀ t length, e.record = .live t length →
      l.recordSize length ≤ e.next - e.offset := by
    intro e he t length hrec
    have := next_of_live (hdec e he).1 hrec
    omega
  have hroom := slotsRoom_foldl_note (l := l) hcontig hlive (Array.replicate count none)
  have hzero : slotsRoom l (Array.replicate count none) = 0 := by
    simp [slotsRoom, slotRoom]
  have hle := hcontig.le
  rw [copiesSize_liveRecords, hi.slots]
  unfold slotsOf
  unfold Layout.logOf at hroom ⊢
  omega

omit [Crc] in
theorem copiesSize_filter_le (P : Slot × UInt8 → Bool) (live : List (Slot × UInt8)) :
    copiesSize l (live.filter P) ≤ copiesSize l live := by
  induction live with
  | nil => exact Nat.le_refl _
  | cons p live ih =>
    rw [List.filter_cons]
    split
    · show l.recordSize p.1.length + copiesSize l (live.filter P) ≤
        l.recordSize p.1.length + copiesSize l live
      omega
    · show copiesSize l (live.filter P) ≤ l.recordSize p.1.length + copiesSize l live
      omega

theorem compactedSize_le_areaSize (hl : l.Valid) {count : Nat} {cells : ByteArray} {i : Index}
    (h : l.Inside cells.size) (hi : Scanned l count cells i) {pending : Option Pending}
    (hdel : ∀ p ∈ pending, p.isDeletion = true) :
    compactedSize l (i.liveRecords.filter fun p => pending.all (·.type != p.2))
      (pending.filter (!·.isDeletion)) ≤ l.areaSize := by
  have hw : pending.filter (!·.isDeletion) = none := by
    cases pending with
    | none => rfl
    | some p => simp [hdel p rfl]
  have hsize : compactedSize l (i.liveRecords.filter fun p => pending.all (·.type != p.2)) none =
      l.masterSize + copiesSize l (i.liveRecords.filter fun p => pending.all (·.type != p.2)) := by
    simp [compactedSize, copiesSize]
  have hm : l.masterSize ≤ (l.bytes cells i.area).size := by
    rw [Layout.size_bytes h]; exact hl.masterSize_le_areaSize
  have hend := (chain_spec l.geometry (l.bytes cells i.area) l.masterSize hm).2.2.1
  rw [Layout.size_bytes h] at hend
  have hlog := copiesSize_liveRecords_le hl h hi
  have hfilter := copiesSize_filter_le (l := l) (fun p => pending.all (·.type != p.2)) i.liveRecords
  unfold Layout.logOf at hlog
  rw [hw, hsize]
  omega

end Index

end NorStore
