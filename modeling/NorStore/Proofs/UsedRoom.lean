import Mathlib.Algebra.BigOperators.Group.Finset.Piecewise
import NorStore.Proofs.CompactionWrites
import NorStore.Proofs.CallTrace

/-! # The room an area's log takes

The room an area uses is its master record and the records of its log, each of them rounded up
from its header and payload to the record alignment (`Layout.usedRoom`). The log ends exactly
there (`next_logOf_eq_usedRoom`), so the free offset of a coherent index is that room.

A compaction copies the record of each type that holds a value, so it needs the room of the
values themselves (`View.room`): the record a slot points at holds the type's value, and its
room is that value's (`copiesSize_filter_liveRecords`).

The last part counts accesses. On a live chip that holds the partition, every access the store
asks for within the discipline is performed, so the chip's write and erase counters grow by the
number of writes and erases asked for (`Event.Chained.count_changes`). A call that leaves them
as they were asked for none.
-/

namespace NorStore

open Record Log Generation Index

/-- The payload length the header at `offset` of the area bytes `A` gives, if any. -/
def Record.payloadLengthAt (A : ByteArray) (offset : Nat) : Nat :=
  ((Header.ofBytes? (A.extract offset (offset + headerSize)).toList).map Header.payloadSize).getD 0

variable [Crc]

/-- The room the log of area `a` takes: the master record, then each record's header and data. -/
def Layout.usedRoom (l : Layout) (cells : ByteArray) (a : Area) : Nat :=
  l.masterSize + ((l.logOf cells a).entries.map fun e =>
    l.recordSize (payloadLengthAt (l.bytes cells a) e.offset)).sum

/-- The room the record of a value takes; no value takes none. -/
def Layout.valueRoom (l : Layout) (v : Option ByteArray) : Nat :=
  (v.map fun w => l.recordSize w.size).getD 0

/-- The room the view's values take, one record each, for the types `keep` accepts. -/
def View.room (l : Layout) (V : View) (keep : UInt8 → Bool) : Nat :=
  ∑ k ∈ Finset.range V.numTypes.toNat,
    if keep k.toUInt8 then l.valueRoom (V.values k.toUInt8) else 0

variable {l : Layout}

/-! ### The room of a log -/

theorem next_of_decode {A : ByteArray} {offset : Nat} {e : Entry}
    (hd : decode l.geometry A offset = .ok (some e)) :
    e.next = offset + l.recordSize (payloadLengthAt A offset) := by
  obtain ⟨h, -, -, hh, -, -, rfl⟩ := decode_eq_ok_some hd
  simp only [payloadLengthAt, hh, Option.map_some, Option.getD_some, Layout.recordSize]

theorem Log.Contiguous.stop_eq_sum {A : ByteArray} {start stop : Nat} {es : List Entry}
    (h : Contiguous start es stop) (hdec : ∀ e ∈ es, decode l.geometry A e.offset = .ok (some e)) :
    stop = start + (es.map fun e => l.recordSize (payloadLengthAt A e.offset)).sum := by
  induction h with
  | nil => simp
  | cons hoffset hlt rest ih =>
    rename_i e es
    have hnext := next_of_decode (hdec e List.mem_cons_self)
    rw [ih fun e' he' => hdec e' (List.mem_cons_of_mem _ he'), List.map_cons, List.sum_cons,
      hnext, hoffset]
    omega

variable {cells : ByteArray}

theorem next_logOf_eq_usedRoom (hl : l.Valid) (h : l.Inside cells.size) (a : Area) :
    (l.logOf cells a).next = l.usedRoom cells a := by
  have hm : l.masterSize ≤ (l.bytes cells a).size := by
    rw [Layout.size_bytes h]
    exact hl.masterSize_le_areaSize
  obtain ⟨hcontig, hdec, -, -⟩ := chain_spec l.geometry (l.bytes cells a) l.masterSize hm
  exact hcontig.stop_eq_sum fun e he => (hdec e he).1

theorem Index.Coherent.free_eq_usedRoom (hl : l.Valid) (h : l.Inside cells.size) {count : Nat}
    {i : Index} (hi : Coherent l count cells i) : i.free = l.usedRoom cells i.area := by
  rw [← hi.free, next_logOf_eq_usedRoom hl h]

/-! ### The room of the values -/

theorem Index.Coherent.slotRoom_slot? (hl : l.Valid) (h : l.Inside cells.size) {count : Nat}
    {i : Index} (hi : Coherent l count cells i) (hcount : count ≤ 256) {t : UInt8}
    (ht : t.toNat < count) : slotRoom l (i.slot? t) = l.valueRoom (l.valueIn cells i.area t) := by
  rcases hi.slot_value hl h hcount ht with ⟨hs, hv⟩ | ⟨e, sl, hs, hoff, hrec, hd, hv⟩
  · rw [hs, hv]
    rfl
  · rw [hs, hv]
    -- the payload lies inside the area, so the value is as long as the slot says
    have hend := payload_end_le hd hrec
    have hle := (decode_next hd).2.2
    simp only [slotRoom, Layout.valueRoom, Option.map_some, Option.getD_some,
      ByteArray.size_extract]
    congr 1
    omega

omit [Crc] in
theorem copiesSize_filter_filterMap_zipIdx (keep : UInt8 → Bool) (slots : List (Option Slot))
    (n : Nat) :
    copiesSize l (((slots.zipIdx n).filterMap fun (slot, type) => slot.map (·, type.toUInt8)).filter
        fun p => keep p.2) =
      ((slots.zipIdx n).map fun p => if keep p.2.toUInt8 then slotRoom l p.1 else 0).sum := by
  induction slots generalizing n with
  | nil => rfl
  | cons slot slots ih =>
    rw [List.zipIdx_cons, List.filterMap_cons, List.map_cons, List.sum_cons, ← ih (n + 1)]
    cases slot with
    | none => simp [slotRoom]
    | some s =>
      by_cases hk : keep n.toUInt8
      · simp only [Option.map_some, List.filter_cons, hk, if_true]
        rfl
      · simp [hk]

omit [Crc] in
theorem sum_map_zipIdx (slots : List (Option Slot)) (F : Option Slot → Nat → Nat) :
    ((slots.zipIdx 0).map fun p => F p.1 p.2).sum =
      ((List.range slots.length).map fun k => F (slots[k]?).join k).sum := by
  congr 1
  apply List.ext_getElem
  · simp
  · intro k h₁ h₂
    simp only [List.length_map, List.length_zipIdx] at h₁
    simp [List.getElem_zipIdx, h₁]

omit [Crc] in
theorem sum_range_eq_sum_map (n : Nat) (f : Nat → Nat) :
    ∑ k ∈ Finset.range n, f k = ((List.range n).map f).sum := by
  rw [Finset.sum_eq_multiset_sum, Finset.range_val, Multiset.range, Multiset.map_coe,
    Multiset.sum_coe]

theorem Index.Coherent.copiesSize_filter_liveRecords (hl : l.Valid) (h : l.Inside cells.size)
    {count : Nat} {i : Index} (hi : Coherent l count cells i) (hcount : count ≤ 256)
    (keep : UInt8 → Bool) :
    copiesSize l (i.liveRecords.filter fun p => keep p.2) =
      ∑ k ∈ Finset.range count,
        if keep k.toUInt8 then l.valueRoom (l.valueIn cells i.area k.toUInt8) else 0 := by
  have hsize : i.slots.size = count := by rw [hi.slots, size_slotsOf]
  -- the order of the records does not change their room
  have hperm : copiesSize l (i.liveRecords.filter fun p => keep p.2) =
      copiesSize l (((i.slots.toList.zipIdx 0).filterMap
        fun (slot, type) => slot.map (·, type.toUInt8)).filter fun p => keep p.2) := by
    unfold liveRecords
    rw [copiesSize_eq_sum, copiesSize_eq_sum]
    exact (((List.mergeSort_perm _ _).filter _).map _).sum_nat
  have hsum := sum_map_zipIdx i.slots.toList fun s k => if keep k.toUInt8 then slotRoom l s else 0
  rw [hperm, copiesSize_filter_filterMap_zipIdx, hsum, Array.length_toList, hsize,
    sum_range_eq_sum_map]
  congr 1
  apply List.map_congr_left
  intro k hk
  have hk' : k < count := List.mem_range.mp hk
  have htk : k.toUInt8.toNat = k := toUInt8_toNat_of_lt (by omega)
  have hslot : (i.slots.toList[k]?).join = i.slot? k.toUInt8 := by
    rw [Index.slot?, htk, Array.getElem?_toList]
  rw [hslot, hi.slotRoom_slot? hl h hcount (by rw [htk]; exact hk')]

omit [Crc] in
theorem View.room_compacted (V : View) (keep : UInt8 → Bool) : V.compacted.room l keep = V.room l keep := by
  unfold View.room
  apply Finset.sum_congr rfl
  intro k hk
  have hlt : k.toUInt8 < V.numTypes := by
    rw [UInt8.lt_iff_toNat_lt,
      toUInt8_toNat_of_lt (Nat.lt_trans (Finset.mem_range.mp hk) (UInt8.toNat_lt _))]
    exact Finset.mem_range.mp hk
  simp only [View.compacted, if_pos hlt]

omit [Crc] in
theorem View.room_write (V : View) {t : UInt8} (ht : t < V.numTypes) (w : Option ByteArray) :
    (V.write t w).room l (fun _ => true) = V.room l (t != ·) + l.valueRoom w := by
  unfold View.room
  have htn : t.toNat ∈ Finset.range V.numTypes.toNat :=
    Finset.mem_range.mpr (UInt8.lt_iff_toNat_lt.mp ht)
  -- each type's room is its own value's, or `w`'s at `t`
  have hsplit : ∀ k ∈ Finset.range V.numTypes.toNat,
      (if (fun _ => true) k.toUInt8 then l.valueRoom ((V.write t w).values k.toUInt8) else 0) =
        (if (t != k.toUInt8) then l.valueRoom (V.values k.toUInt8) else 0) +
          if k = t.toNat then l.valueRoom w else 0 := by
    intro k hk
    have htk := toUInt8_toNat_of_lt (Nat.lt_trans (Finset.mem_range.mp hk) (UInt8.toNat_lt _))
    by_cases hkt : k = t.toNat
    · simp [View.write, hkt]
    · have h' : k.toUInt8 ≠ t := fun h => hkt (by rw [← h, htk])
      simp [View.write, h', hkt, Ne.symm h']
  have hnum : (V.write t w).numTypes = V.numTypes := rfl
  rw [hnum, Finset.sum_congr rfl hsplit, Finset.sum_add_distrib,
    Finset.sum_ite_eq' (Finset.range V.numTypes.toNat) t.toNat (fun _ => l.valueRoom w), if_pos htn]

/-! ### Counting writes and erases -/

namespace Recorder

omit [Crc] in
@[simp] theorem changes_cons (e : Event) (es : List Event) :
    changes (e :: es) = (if e.access.isChange then [e.access] else []) ++ changes es := by
  unfold changes
  rw [List.map_cons, List.filter_cons]
  split <;> rfl

end Recorder

namespace Event

omit [Crc] in
theorem after_counts {e : Event} (hfit : e.Fits l) (hlive : e.before.failFrom = none)
    (hin : l.Inside e.before.cells.size) :
    e.after.failFrom = none ∧ l.Inside e.after.cells.size ∧
      e.after.writes + e.after.erases =
        e.before.writes + e.before.erases + if e.access.isChange then 1 else 0 := by
  obtain ⟨c, access⟩ := e
  have hacc : ∀ {start stop : Nat}, start ≤ stop → stop ≤ c.cells.size → c.Accepts start stop :=
    fun h₁ h₂ => Chip.accepts_iff.mpr ⟨Chip.live_of_failFrom_eq_none hlive, h₁, h₂⟩
  cases access with
  | read address length =>
    unfold after Chip.read
    dsimp only at hlive hin ⊢
    split <;> exact ⟨hlive, hin, rfl⟩
  | write address bytes =>
    obtain ⟨a, offset, rfl, hfit', -⟩ := hfit
    unfold after Chip.write
    dsimp only at hlive hin hfit' ⊢
    have hend := Layout.info_address_add_le hin a
    rw [if_pos (hacc (Nat.le_add_right _ _) (by omega))]
    refine ⟨hlive, ?_, ?_⟩
    · rw [Chip.size_programCells]
      exact hin
    · simp only [Access.isChange, if_true]
      omega
  | erase start stop =>
    obtain ⟨a, rfl, rfl⟩ := hfit
    unfold after Chip.erase
    dsimp only at hlive hin ⊢
    have hend := Layout.info_address_add_le hin a
    rw [if_pos (hacc (Nat.le_add_right _ _) hend)]
    refine ⟨hlive, ?_, by simp only [Access.isChange, if_true]; omega⟩
    rw [Chip.size_overwriteCells _ _ _ (by simp only [ByteArray.size]; simp; omega)]
    exact hin

omit [Crc] in
theorem Chained.count_changes {es : List Event} {c c' : Chip} (h : Chained es c c')
    (hfits : ∀ e ∈ es, e.Fits l) (hlive : c.failFrom = none) (hin : l.Inside c.cells.size) :
    c'.writes + c'.erases = c.writes + c.erases + (Recorder.changes es).length := by
  induction es generalizing c with
  | nil =>
    unfold Chained at h
    rw [h]
    rfl
  | cons e es ih =>
    obtain ⟨rfl, hrest⟩ := h
    obtain ⟨hlive', hin', hcount⟩ := after_counts (hfits e List.mem_cons_self) hlive hin
    rw [ih hrest (fun e' he' => hfits e' (List.mem_cons_of_mem _ he')) hlive' hin', hcount,
      Recorder.changes_cons, List.length_append]
    split
    · rw [List.length_singleton]
      omega
    · rw [List.length_nil]
      omega

omit [Crc] in
theorem Chained.changes_eq_nil {es : List Event} {c c' : Chip} (h : Chained es c c')
    (hfits : ∀ e ∈ es, e.Fits l) (hlive : c.failFrom = none) (hin : l.Inside c.cells.size)
    (hwrites : c'.writes = c.writes) (herases : c'.erases = c.erases) :
    Recorder.changes es = [] := by
  have hcount := h.count_changes hfits hlive hin
  rw [hwrites, herases] at hcount
  exact List.length_eq_zero_iff.mp (by omega)

end Event

end NorStore
