import NorStore.Proofs.Compact

/-! # Appending a record

`Index.append` writes a record where the active area's log ends when it fits there, and
compacts the area with the record pending when it does not (`append_of_full`). In place the
write either completes, and the index it answers is coherent with the flash and holds the
values the write says, or a due fault cuts it: then a prefix of the record's image, a multiple
of 64 bytes long, lies where the log ended, and nothing else has changed
(`append_run_of_fits`). The master records are not touched either way, so the active area and
its generation stay what they were.
-/

namespace NorStore

open Record Log Generation

namespace Log

variable {g : Geometry}

variable [Crc]

theorem extract_overwrite_image_payload {A : ByteArray} {free : Nat} {type flags : UInt8}
    {data : ByteArray} (hfit : free + size g data.size ≤ A.size) :
    (Chip.overwriteCells A free (image g type flags data)).extract (free + headerSize)
      (free + headerSize + data.size) = data := by
  have hsize := size_image g type flags data
  have key := congrArg (fun X => X.extract headerSize (headerSize + data.size))
    (extract_overwrite_self (A := A) (B := image g type flags data) (by rw [hsize]; exact hfit))
  simp only [ByteArray.extract_extract, hsize] at key
  have hroom := headerSize_add_le_size g data.size
  rw [Nat.min_eq_left (by omega), ← Nat.add_assoc, extract_image_payload] at key
  exact key

theorem values_overwrite_image {A : ByteArray} {offset free : Nat} {es : List Entry}
    {type flags : UInt8} {data : ByteArray} (hchain : chain g A offset = ⟨es, none, free⟩)
    (hoff : offset ≤ A.size) (hfit : free + size g data.size ≤ A.size)
    (htype : type ≠ masterType) (hl : data.size ≤ 0xFFFF) :
    values (Chip.overwriteCells A free (image g type flags data))
        (es ++ [⟨free, (Header.ofPayload type flags data).record data, free + size g data.size⟩]) =
      Pending.apply ⟨type, flags, data⟩ (values A es) := by
  funext t
  rw [values_concat, values_overwrite_after hchain hoff (by rw [size_image]; exact hfit),
    Header.record_ofPayload htype hl]
  unfold Pending.apply Pending.isDeletion
  dsimp only
  by_cases hdel : (flags &&& deleteFlag != 0) = true
  · rw [if_pos hdel, if_pos hdel]
  · rw [if_neg hdel, if_neg hdel]
    dsimp only
    rw [extract_overwrite_image_payload hfit]

end Log

namespace Generation

variable {l : Layout}

variable [Crc]

theorem activeOf_overwrite {cells cells' : ByteArray} {a : Area} {free : Nat} {B : ByteArray}
    (hbytes : l.bytes cells' a = Chip.overwriteCells (l.bytes cells a) free B)
    (hother : l.bytes cells' a.other = l.bytes cells a.other)
    (hfit : free + B.size ≤ (l.bytes cells a).size) (hafter : l.masterSize ≤ free) :
    activeOf l cells' = activeOf l cells := by
  have hsame : masterIn l cells' a = masterIn l cells a := by
    unfold masterIn
    rw [hbytes]
    exact masterOf_congr (size_overwrite hfit) (extract_overwrite_before hfit hafter)
  have hoth : masterIn l cells' a.other = masterIn l cells a.other := by
    unfold masterIn
    rw [hother]
  unfold activeOf
  cases a with
  | first =>
    change masterIn l cells' .second = masterIn l cells .second at hoth
    rw [hsame, hoth]
  | second =>
    change masterIn l cells' .first = masterIn l cells .first at hoth
    rw [hsame, hoth]

end Generation

namespace Index

variable {l : Layout} {c : Chip} {count : Nat} {i : Index}

variable [Crc]

theorem slotsOf_concat_image (count : Nat) (es : List Entry) (free next : Nat)
    {type flags : UInt8} {data : ByteArray} (htype : type ≠ masterType) (hl : data.size ≤ 0xFFFF) :
    slotsOf count (es ++ [⟨free, (Header.ofPayload type flags data).record data, next⟩]) =
      (slotsOf count es).setIfInBounds type.toNat
        (if flags &&& deleteFlag != 0 then none else some ⟨free, data.size⟩) := by
  rw [slotsOf_concat, Header.record_ofPayload htype hl]
  by_cases hdel : (flags &&& deleteFlag != 0) = true
  · rw [if_pos hdel, if_pos hdel]
    rfl
  · rw [if_neg hdel, if_neg hdel]
    rfl

theorem append_of_full {δ : Type} [NorFlash δ] {type flags : UInt8} {data : ByteArray}
    (hfull : l.areaSize < i.free + l.recordSize data.size) :
    (append l i type flags data : FlashM δ Index) = compact l i (some ⟨type, flags, data⟩) := by
  unfold append
  rw [if_pos hfull]

/-- How writing the record of `p` where the log of `i` ends can end: the answer and the chip. -/
inductive Appended (l : Layout) (count : Nat) (c : Chip) (i : Index) (p : Pending) :
    Except Error Index → Chip → Prop
  /-- The whole record was written: the index answered is coherent with the flash, and the
  values changed as `p` says. -/
  | done {i' : Index} {c' : Chip} (harea : i'.area = i.area) (hcoherent : Coherent l count c'.cells i')
      (hother : l.bytes c'.cells i.area.other = l.bytes c.cells i.area.other)
      (hvalues : l.valueIn c'.cells i.area = p.apply (l.valueIn c.cells i.area)) :
      Appended l count c i p (.ok i') c'
  /-- A due fault cut the write after `j` bytes, a multiple of 64: the active area holds that
  prefix of the record's image where its log ended, and is otherwise as it was. -/
  | torn {c' : Chip} {j : Nat} (hdue : c.failFrom ≠ none) (hj : j < l.recordSize p.data.size)
      (hcut : j % scratchSize = 0)
      (hbytes : l.bytes c'.cells i.area = Chip.overwriteCells (l.bytes c.cells i.area) i.free
        ((image l.geometry p.type p.flags p.data).extract 0 j))
      (hother : l.bytes c'.cells i.area.other = l.bytes c.cells i.area.other) :
      Appended l count c i p (.error .writeError) c'

theorem append_run_of_fits (hl : l.Valid) (h : l.Inside c.cells.size)
    (hi : Coherent l count c.cells i) {type flags : UInt8} {data : ByteArray}
    (htype : type < masterType) (hlen : data.size ≤ 0xFFFF)
    (hfit : i.free + l.recordSize data.size ≤ l.areaSize) :
    ((append l i type flags data).run.run c).2.failFrom = c.failFrom ∧
      l.Inside ((append l i type flags data).run.run c).2.cells.size ∧
      Appended l count c i ⟨type, flags, data⟩ ((append l i type flags data).run.run c).1
        ((append l i type flags data).run.run c).2 := by
  have hne : type ≠ masterType := by
    intro h; rw [h] at htype; exact absurd htype (by decide)
  have hok : ¬ (type ≥ masterType ∨ data.size > 0xFFFF) := by
    intro h; rcases h with h | h
    · have := UInt8.lt_iff_toNat_lt.mp htype
      have := UInt8.le_iff_toNat_le.mp h
      omega
    · omega
  unfold append
  rw [if_neg (by omega), FlashM.run_bind, write_eq, if_neg hok]
  obtain ⟨j, c', hj, hcut, hrun, hcells, hff⟩ := program_run h i.area type flags hfit
  rw [hrun]
  -- what the write left in both areas, whether it completed or not
  have hA := Layout.size_bytes h i.area
  have hsize := size_image l.geometry type flags data
  have hB : ((image l.geometry type flags data).extract 0 j).size = j := by
    simp only [ByteArray.size_extract, hsize]; simp only [Layout.recordSize] at hj; omega
  have hfitj : i.free + ((image l.geometry type flags data).extract 0 j).size ≤ l.areaSize := by
    rw [hB]; omega
  have hself := bytes_program_self h i.area hfitj hi.blank
  have hother := Layout.bytes_programCells_other h (Area.other_ne i.area) hfitj
  rw [← hcells] at hself hother
  have hin : l.Inside c'.cells.size := by rw [hcells, Chip.size_programCells]; exact h
  have hlog := hi.log
  have hstart : l.masterSize ≤ i.free := by
    have := start_le_next l.geometry (l.bytes c.cells i.area) l.masterSize
      (by rw [hA]; exact hl.masterSize_le_areaSize)
    rw [← hi.free]; exact this
  by_cases hjs : j = l.recordSize data.size
  · -- the whole record was written
    subst hjs
    rw [if_pos rfl]
    have hfull : (image l.geometry type flags data).extract 0 (l.recordSize data.size) =
        image l.geometry type flags data := by
      rw [show l.recordSize data.size = (image l.geometry type flags data).size from
        hsize.symm, ByteArray.extract_zero_size]
    rw [hfull] at hself
    have hchain : chain l.geometry (l.bytes c.cells i.area) l.masterSize =
        ⟨(l.logOf c.cells i.area).entries, none, i.free⟩ := hlog
    have hfitA : i.free + size l.geometry data.size ≤ (l.bytes c.cells i.area).size := by
      rw [hA]; exact hfit
    obtain ⟨hlog', hblank'⟩ := chain_overwrite_image flags hchain hi.blank hfitA htype hlen
    have hactive : activeOf l c'.cells = activeOf l c.cells :=
      activeOf_overwrite hself hother (by rw [hsize]; exact hfitA) hstart
    dsimp only
    rw [FlashM.run_pure]
    refine ⟨hff, hin, .done rfl ⟨⟨?_, ?_⟩, ?_, ?_, ?_⟩ hother ?_⟩
    · rw [hactive]; exact hi.active
    · unfold Layout.logOf
      rw [hself, hlog', slotsOf_concat_image count _ _ _ hne hlen, ← hi.slots]
    · unfold Layout.logOf; rw [hself, hlog']
    · unfold Layout.logOf; rw [hself, hlog']; rfl
    · rw [hself]; exact hblank'
    · unfold Layout.valueIn
      unfold Layout.logOf at hlog' ⊢
      rw [hself, hlog']
      exact values_overwrite_image hchain (by rw [hA]; exact hl.masterSize_le_areaSize) hfitA
        hne hlen
  · -- a due fault cut the write after `j` bytes
    rw [if_neg hjs]
    have hcut' : j % scratchSize = 0 ∧ c.failFrom ≠ none := hcut.resolve_left hjs
    exact ⟨hff, hin, .torn hcut'.2 (show j < l.recordSize data.size by omega) hcut'.1 hself hother⟩

/-- How an append of `p` can end: in place, or by a compaction with `p` pending. -/
inductive Added (l : Layout) (count : Nat) (c : Chip) (i : Index) (p : Pending) :
    Except Error Index → Chip → Prop
  | inPlace {r : Except Error Index} {c' : Chip}
      (hfit : i.free + l.recordSize p.data.size ≤ l.areaSize) (happended : Appended l count c i p r c') :
      Added l count c i p r c'
  | compacted {r : Except Error Index} {c' : Chip}
      (hfull : l.areaSize < i.free + l.recordSize p.data.size)
      (hcompacted : Compacted l count c i (some p) r c') : Added l count c i p r c'

theorem append_run (hl : l.Valid) (h : l.Inside c.cells.size) (hcount : count ≤ 256)
    (hi : Coherent l count c.cells i) {type : UInt8} (flags : UInt8) (data : ByteArray)
    (htype : type < masterType) (hlen : data.size ≤ 0xFFFF) :
    ((append l i type flags data).run.run c).2.failFrom = c.failFrom ∧
      l.Inside ((append l i type flags data).run.run c).2.cells.size ∧
      Added l count c i ⟨type, flags, data⟩ ((append l i type flags data).run.run c).1
        ((append l i type flags data).run.run c).2 := by
  by_cases hfit : i.free + l.recordSize data.size ≤ l.areaSize
  · obtain ⟨hff, hin, hres⟩ := append_run_of_fits hl h hi htype hlen hfit
    exact ⟨hff, hin, .inPlace hfit hres⟩
  · have hfull : l.areaSize < i.free + l.recordSize data.size := by omega
    rw [append_of_full hfull]
    obtain ⟨hff, hin, hres⟩ := compact_run hl h hcount hi.toScanned (some ⟨type, flags, data⟩)
      (fun p hp => by cases hp; exact ⟨htype, hlen⟩)
    exact ⟨hff, hin, .compacted hfull hres⟩

end Index

end NorStore
