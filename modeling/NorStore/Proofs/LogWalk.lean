import NorStore.Proofs.Acceptance
import NorStore.Proofs.LogScan
import NorStore.Proofs.Slots

/-! # What a walk of the log yields

`Log.walk` reads the data records of an area one after the other, from the end of its master
record on. On any chip that holds the partition, whatever the bytes of the area and whatever
faults are set, it yields the longest run of data records that `decode` accepts, the first one
right after the master record and each next one where the one before ends (`Walk.Reads`). It
stops where that run cannot go on (`Stops`): at an erased header or too close to the end of the
area, at a malformed record, at a second master record, or at a read the chip refused while a
fault is set. Every record takes at least a header, so the walk yields at most one record per
eight bytes after the master record, and it stops where its last record ends
(`walk_yields_maximal_chain`).

The index notes the records of the walk (`Index.slotsOf`): each type below the number of types
gets the slot of its last value record that no deletion of the type follows, and the records of
the other types change nothing (`Index.getElem?_slotsOf_eq_some_iff`).
-/

namespace NorStore.Record

variable [Crc]

theorem decode_eq_none_iff {g : Geometry} {A : ByteArray} {offset : Nat} :
    decode g A offset = .ok none ↔
      A.size - offset < headerSize ∨ IsErasedHeader (A.extract offset (offset + headerSize)) := by
  unfold decode
  by_cases hroom : A.size - offset < headerSize
  · simp only [hroom, if_true, true_or]
  · by_cases herased : IsErasedHeader (A.extract offset (offset + headerSize))
    · simp only [hroom, herased, if_false, if_true, or_true]
    · obtain ⟨h, hb⟩ := Header.exists_ofBytes
        (show headerSize ≤ (A.extract offset (offset + headerSize)).toList.length by
          simp only [ByteArray.toList_eq_data_toList, Array.length_toList, ByteArray.size_data,
            ByteArray.size_extract]; omega)
      simp only [hroom, herased, if_false, or_self, iff_false, hb]
      split
      · split <;> simp
      · simp

end NorStore.Record

namespace NorStore.Log

open Record

variable {g : Geometry} {A : ByteArray}

/-! ### Runs of records -/

theorem Contiguous.stop_eq_getLast {start stop : Nat} {es : List Entry}
    (h : Contiguous start es stop) : stop = (es.getLast?.map Entry.next).getD start := by
  induction h with
  | nil => rfl
  | @cons start stop e es _ _ rest ih =>
    cases es with
    | nil =>
      cases rest
      rfl
    | cons e' es' =>
      -- the rest of the run is not empty, so its last record is the run's last record
      rw [List.getLast?_cons_cons, ih, List.getLast?_eq_some_getLast (List.cons_ne_nil e' es')]
      rfl

theorem Contiguous.length_mul_le {start stop : Nat} {es : List Entry}
    (h : Contiguous start es stop) (hstep : ∀ e ∈ es, e.offset + headerSize ≤ e.next) :
    es.length * headerSize ≤ stop - start := by
  induction h with
  | nil => simp
  | @cons start stop e es hoffset _ rest ih =>
    have he := hstep e List.mem_cons_self
    have hrest := ih fun e' he' => hstep e' (List.mem_cons_of_mem _ he')
    have hle := rest.le
    rw [List.length_cons, Nat.succ_mul]
    omega

variable [Crc]

/-- How a log that reaches `offset` ends there, with the error `stop` or none. -/
inductive Stops (g : Geometry) (A : ByteArray) (offset : Nat) : Option Error → Prop
  | blank (h : A.size - offset < headerSize ∨ IsErasedHeader (A.extract offset (offset + headerSize))) :
      Stops g A offset none
  | corrupt (h : decode g A offset = .error .dataCorrupt) : Stops g A offset (some .dataCorrupt)
  | master {e : Entry} {v : UInt16} (h : decode g A offset = .ok (some e))
      (hv : e.record = .master v) : Stops g A offset (some .dataCorrupt)

/-- The walk `w` read the records of area bytes `A` one after another from `start` on. -/
structure Walk.Reads (g : Geometry) (A : ByteArray) (start : Nat) (w : Walk) : Prop where
  contiguous : Contiguous start w.entries w.next
  decoded : ∀ e ∈ w.entries, decode g A e.offset = .ok (some e) ∧ ∀ v, e.record ≠ .master v
  inside : w.next ≤ A.size

namespace Walk.Reads

theorem nil {start : Nat} (stop : Option Error) (h : start ≤ A.size) :
    Walk.Reads g A start ⟨[], stop, start⟩ :=
  ⟨.nil start, by simp, h⟩

theorem cons {offset : Nat} {e : Entry} {w : Walk} (hd : decode g A offset = .ok (some e))
    (hm : ∀ v, e.record ≠ .master v) (hw : Walk.Reads g A e.next w) :
    Walk.Reads g A offset { w with entries := e :: w.entries } := by
  obtain ⟨hoff, hlt, -⟩ := decode_next hd
  refine ⟨.cons hoff (by simp only [headerSize] at hlt; omega) hw.contiguous, ?_, hw.inside⟩
  intro e' he'
  rcases List.mem_cons.mp he' with rfl | he'
  · exact ⟨hoff ▸ hd, hm⟩
  · exact hw.decoded e' he'

theorem length_le {start : Nat} {w : Walk} (hw : Walk.Reads g A start w) :
    w.entries.length ≤ (w.next - start) / headerSize := by
  rw [Nat.le_div_iff_mul_le (by simp only [headerSize]; omega)]
  refine hw.contiguous.length_mul_le fun e he => ?_
  obtain ⟨hoff, hlt, -⟩ := decode_next (hw.decoded e he).1
  omega

end Walk.Reads

/-! ### The walk on the device -/

variable {l : Layout} {c : Chip}

variable [LawfulCrc]

theorem walkFrom_reads (hl : l.Valid) (a : Area) (offset : Nat) (c : Chip)
    (h : l.Inside c.cells.size) (hoff : offset ≤ l.areaSize) :
    Walk.Reads l.geometry (l.bytes c.cells a) offset ((walkFrom l a offset).run c).1 ∧
      (Stops l.geometry (l.bytes c.cells a) ((walkFrom l a offset).run c).1.next
          ((walkFrom l a offset).run c).1.stop ∨
        (c.failFrom ≠ none ∧ ((walkFrom l a offset).run c).1.stop = some .readError)) := by
  have hA := Layout.size_bytes h a
  rw [walkFrom, StateM.run_bind]
  obtain ⟨hk, hr⟩ := readAt_run hl h a offset none
  generalize (readAt l a offset none).run c = q at hk hr ⊢
  obtain ⟨fetch, c1⟩ := q
  dsimp only at hk hr ⊢
  rcases hr with rfl | ⟨hf, hout⟩
  · rw [fetch_outcome_none hA]
    cases hd : decode l.geometry (l.bytes c.cells a) offset with
    | error err =>
      obtain rfl := eq_dataCorrupt_of_decode hd
      exact ⟨.nil _ (by omega), .inl (.corrupt hd)⟩
    | ok r =>
      cases r with
      | none => exact ⟨.nil _ (by omega), .inl (.blank (decode_eq_none_iff.mp hd))⟩
      | some e =>
        dsimp only
        by_cases hm : ∃ v, e.record = .master v
        · obtain ⟨v, hv⟩ := hm
          simp only [hv]
          exact ⟨.nil _ (by omega), .inl (.master hd hv)⟩
        · have hm' : ∀ v, e.record ≠ .master v := fun v hv => hm ⟨v, hv⟩
          obtain ⟨-, hlt, hle⟩ := decode_next hd
          simp only [headerSize] at hlt
          rw [hA] at hle
          split
          · rename_i v hv
            exact absurd hv (hm' v)
          · -- a data record: the walk goes on from its end, on a chip with the same cells
            rw [if_pos ⟨by omega, hle⟩, StateM.run_bind]
            have h1 : l.Inside c1.cells.size := by rw [hk.cells]; exact h
            obtain ⟨hr', hs'⟩ := walkFrom_reads hl a e.next c1 h1 hle
            rw [hk.cells] at hr' hs'
            refine ⟨hr'.cons hd hm', ?_⟩
            rcases hs' with hs' | ⟨hf, hstop⟩
            · exact .inl hs'
            · exact .inr ⟨by rwa [hk.failFrom] at hf, hstop⟩
  · rw [hout]
    exact ⟨.nil _ (by omega), .inr ⟨hf, rfl⟩⟩
termination_by l.areaSize - offset
decreasing_by
  obtain ⟨-, hlt, -⟩ := decode_next hd; simp only [headerSize] at hlt; omega

end NorStore.Log

namespace NorStore.Index

open Record

theorem not_decides_iff {type : UInt8} {e : Entry} :
    ¬ Decides type e ↔ (∀ length, e.record ≠ .live type length) ∧ e.record ≠ .deleted type := by
  simp only [Decides, not_or, not_exists]

theorem getElem?_slotsOf_eq_some_iff (numTypes : UInt8) (es : List Entry) {t : UInt8}
    (ht : t.toNat < numTypes.toNat) (s : Slot) :
    (slotsOf numTypes.toNat es)[t.toNat]? = some (some s) ↔
      ∃ before e after, es = before ++ e :: after ∧ e.offset = s.offset ∧
        e.record = .live t s.length ∧
        ∀ e' ∈ after, (∀ n, e'.record ≠ .live t n) ∧ e'.record ≠ .deleted t := by
  have hcount : numTypes.toNat ≤ 256 := Nat.le_of_lt numTypes.toNat_lt
  rw [getElem?_slotsOf hcount, if_pos ht, Option.some_inj, Nat.toUInt8_eq, UInt8.ofNat_toNat,
    slotFor_eq_some_iff]
  simp only [not_decides_iff]

end NorStore.Index

namespace NorStore.Log

open Record

variable {l : Layout} {c : Chip}

variable [Crc] [LawfulCrc]

/-- The walk of an area's log yields exactly the maximal chain of records that decode. -/
theorem walk_yields_maximal_chain (hl : l.Valid) (h : l.Inside c.cells.size) (a : Area) :
    let w := ((walk l a).run c).1
    Walk.Reads l.geometry (l.bytes c.cells a) l.masterSize w ∧
      (Stops l.geometry (l.bytes c.cells a) w.next w.stop ∨
        (c.failFrom ≠ none ∧ w.stop = some .readError)) ∧
      w.entries.length ≤ (l.areaSize - l.masterSize) / headerSize ∧
      w.next = (w.entries.getLast?.map Entry.next).getD l.masterSize ∧
      ∀ numTypes : UInt8, (Index.slotsOf numTypes.toNat w.entries).size = numTypes.toNat ∧
        ∀ t : UInt8, t.toNat < numTypes.toNat → ∀ s : Slot,
          (Index.slotsOf numTypes.toNat w.entries)[t.toNat]? = some (some s) ↔
            ∃ before e after, w.entries = before ++ e :: after ∧
              e.offset = s.offset ∧ e.record = .live t s.length ∧
              ∀ e' ∈ after, (∀ n, e'.record ≠ .live t n) ∧ e'.record ≠ .deleted t := by
  intro w
  obtain ⟨hreads, hstops⟩ : Walk.Reads l.geometry (l.bytes c.cells a) l.masterSize w ∧ _ :=
    walkFrom_reads hl a l.masterSize c h hl.masterSize_le_areaSize
  have hinside : w.next ≤ l.areaSize := by
    rw [← Layout.size_bytes h a]
    exact hreads.inside
  refine ⟨hreads, hstops, ?_, hreads.contiguous.stop_eq_getLast, fun numTypes =>
    ⟨Index.size_slotsOf _ _, fun t ht s => Index.getElem?_slotsOf_eq_some_iff numTypes _ ht s⟩⟩
  -- the walk ends inside the area, so it yields no more records than the area has room for
  exact Nat.le_trans hreads.length_le (Nat.div_le_div_right (by omega))

end NorStore.Log

namespace NorStore.Log

open Record

/-- The walk of the first area of an erased chip of two 64-byte areas. -/
theorem erased_chip_walk_yields_maximal_chain :
    Layout.Valid ⟨⟨1, 1, 64⟩, 0, 64⟩ ∧
      Layout.Inside ⟨⟨1, 1, 64⟩, 0, 64⟩ (Chip.erased 128).cells.size ∧
      let l : Layout := ⟨⟨1, 1, 64⟩, 0, 64⟩
      let w := ((walk l .first).run (Chip.erased 128)).1
      Walk.Reads l.geometry (l.bytes (Chip.erased 128).cells .first) l.masterSize w ∧
      (Stops l.geometry (l.bytes (Chip.erased 128).cells .first) w.next w.stop ∨
        ((Chip.erased 128).failFrom ≠ none ∧ w.stop = some .readError)) ∧
      w.entries.length ≤ (l.areaSize - l.masterSize) / headerSize ∧
      w.next = (w.entries.getLast?.map Entry.next).getD l.masterSize ∧
      ∀ numTypes : UInt8, (Index.slotsOf numTypes.toNat w.entries).size = numTypes.toNat ∧
        ∀ t : UInt8, t.toNat < numTypes.toNat → ∀ s : Slot,
          (Index.slotsOf numTypes.toNat w.entries)[t.toNat]? = some (some s) ↔
            ∃ before e after, w.entries = before ++ e :: after ∧
              e.offset = s.offset ∧ e.record = .live t s.length ∧
              ∀ e' ∈ after, (∀ n, e'.record ≠ .live t n) ∧ e'.record ≠ .deleted t := by
  have hl : Layout.Valid ⟨⟨1, 1, 64⟩, 0, 64⟩ :=
    Layout.valid_of_create (show Layout.create ⟨1, 1, 64⟩ 0 128 = .ok ⟨⟨1, 1, 64⟩, 0, 64⟩ from rfl)
  have hin : Layout.Inside ⟨⟨1, 1, 64⟩, 0, 64⟩ (Chip.erased 128).cells.size :=
    Nat.le_of_eq (size_replicate_erased 128).symm
  exact ⟨hl, hin, walk_yields_maximal_chain hl hin .first⟩

end NorStore.Log
