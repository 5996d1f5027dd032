import NorStore.Compaction
import NorStore.Proofs.LogWrite
import NorStore.Proofs.Program

/-! # Compaction on the device

A compaction erases the standby area, copies the current record of every type into it, writes
the pending record, and writes the master record of the next generation last. This module
follows it on a chip, one write at a time. Each write goes where the target area's log ends, so
`chain_overwrite_copy` and `chain_overwrite_image` say what it does to the log, and nothing
before that end moves; the source area is never written.
-/

namespace NorStore

open Record Log Generation

variable [Crc]

/-- The value each type holds in area `a` of the flash `cells`. -/
def Layout.valueIn (l : Layout) (cells : ByteArray) (a : Area) (t : UInt8) : Option ByteArray :=
  values (l.bytes cells a) (l.logOf cells a).entries t

/-- The values after the write `p`: its type holds its data, or nothing if it deletes. -/
def Pending.apply (p : Pending) (V : UInt8 → Option ByteArray) (t : UInt8) : Option ByteArray :=
  if p.type = t then (if p.isDeletion then none else some p.data) else V t

namespace Index

/-- The values of the types below `count`; the types above hold none. -/
def restrictValues (count : Nat) (V : UInt8 → Option ByteArray) (t : UInt8) : Option ByteArray :=
  if t.toNat < count then V t else none

/-- The values after a compaction completing `pending`; types from `count` on are dropped. -/
def compactedValues (V : UInt8 → Option ByteArray) (count : Nat) (pending : Option Pending) :
    UInt8 → Option ByteArray :=
  match pending with
  | some p => p.apply (restrictValues count V)
  | none => restrictValues count V

variable {l : Layout} {c : Chip}

theorem next_of_live {A : ByteArray} {offset : Nat} {e : Entry} {t : UInt8} {length : Nat}
    (hd : decode l.geometry A offset = .ok (some e)) (hrec : e.record = .live t length) :
    e.next = offset + l.recordSize length := by
  obtain ⟨h, -, -, -, -, -, he⟩ := decode_eq_ok_some hd
  have hlen : h.payloadSize = length := by
    have hlive : h.record (A.extract (offset + headerSize) (offset + headerSize + h.payloadSize)) =
        .live t length := by
      rw [← hrec, he]
    exact payloadSize_of_record_live hlive
  rw [he]
  simp only [Layout.recordSize, hlen]

omit [Crc] in
theorem bytes_program_self (h : l.Inside c.cells.size) (a : Area) {offset : Nat} {B : ByteArray}
    (hfit : offset + B.size ≤ l.areaSize) (hblank : Blank (l.bytes c.cells a) offset) :
    l.bytes (Chip.programCells c.cells ((l.info a).address + offset) B) a =
      Chip.overwriteCells (l.bytes c.cells a) offset B :=
  Layout.bytes_programCells_self h a hfit (hblank.erased _)

theorem masterIn_of_erased {cells : ByteArray} {a : Area} (he : Erased (l.bytes cells a) 0 l.masterSize) :
    masterIn l cells a = none :=
  masterOf_of_erased (he.mono (Nat.le_refl _)
    (by have := headerSize_add_le_size l.geometry masterPayloadSize
        simp only [Layout.masterSize, Record.masterSize] at this ⊢; omega))

theorem masterOf_overwrite_image {g : Geometry} {A : ByteArray} (version : UInt16)
    (hfit : masterSize g ≤ A.size) :
    masterOf g (Chip.overwriteCells A 0 (image g masterType 0 (masterPayload version))) =
      some version := by
  have hps : (masterPayload version).size = masterPayloadSize := rfl
  have hsize : size g (masterPayload version).size =
      (image g masterType 0 (masterPayload version)).size := (size_image _ _ _ _).symm
  have hfitI : 0 + (image g masterType 0 (masterPayload version)).size ≤ A.size := by
    rw [← hsize, hps, Nat.zero_add]
    exact hfit
  have himage : (Chip.overwriteCells A 0 (image g masterType 0 (masterPayload version))).extract 0
      (0 + size g (masterPayload version).size) = image g masterType 0 (masterPayload version) := by
    rw [hsize]
    exact extract_overwrite_self hfitI
  have hd := decode_image himage (by rw [size_overwrite hfitI, hsize]; exact hfitI) (by decide)
    (fun _ => hps) (by rw [hps]; decide)
  unfold masterOf
  rw [hd, Header.record_master]

/-! ### Filling the target area -/

/-- A compaction from `source` that has not yet written the target's master record. -/
structure Unfinished (l : Layout) (cells : ByteArray) (source : Area) (S : ByteArray) : Prop where
  inside : l.Inside cells.size
  intact : l.bytes cells source = S
  head : Erased (l.bytes cells source.other) 0 l.masterSize

/-- The target area during a compaction: its log is `copied`, clean and ending at `offset`. -/
structure Ready (l : Layout) (cells : ByteArray) (source : Area) (S : ByteArray)
    (copied : List Entry) (offset : Nat) : Prop extends Unfinished l cells source S where
  log : l.logOf cells source.other = ⟨copied, none, offset⟩
  blank : Blank (l.bytes cells source.other) offset
  start : l.masterSize ≤ offset

/-- The target area after copying the records `done` of the source's log `es`. -/
structure Filling (l : Layout) (cells : ByteArray) (source : Area) (S : ByteArray)
    (es : List Entry) (done : List (Slot × UInt8)) (copied : List Entry) (offset : Nat) : Prop
    extends Ready l cells source S copied offset where
  held : ∀ t, values (l.bytes cells source.other) copied t =
    if t ∈ done.map Prod.snd then values S es t else none

variable {source : Area} {S : ByteArray} {es : List Entry}

theorem copy_step {done : List (Slot × UInt8)} {copied : List Entry} {offset : Nat} {s : Slot}
    {t : UInt8} (hf : Filling l c.cells source S es done copied offset)
    (hdec : ∀ e ∈ es, decode l.geometry S e.offset = .ok (some e))
    (hslot : Index.slotFor t es = some s) (hfit : offset + l.recordSize s.length ≤ l.areaSize) :
    ((copy l source s.offset source.other offset).run.run c).2.failFrom = c.failFrom ∧
      ((((copy l source s.offset source.other offset).run.run c).1 =
            .ok (offset + l.recordSize s.length) ∧
          Filling l ((copy l source s.offset source.other offset).run.run c).2.cells source S es
            (done ++ [(s, t)]) (copied ++ [⟨offset, .live t s.length, offset + l.recordSize s.length⟩])
            (offset + l.recordSize s.length)) ∨
        (∃ err, ((copy l source s.offset source.other offset).run.run c).1 = .error err ∧
          err.isFlashFault = true ∧ c.failFrom ≠ none ∧
          Unfinished l ((copy l source s.offset source.other offset).run.run c).2.cells source S)) := by
  obtain ⟨e, he, hoff, hrec⟩ := Index.slotFor_eq_some hslot
  have hd : decode l.geometry (l.bytes c.cells source) s.offset = .ok (some e) := by
    rw [hf.intact, ← hoff]; exact hdec e he
  have hnext := next_of_live hd hrec
  have hlen : e.next - s.offset = l.recordSize s.length := by omega
  obtain ⟨j, err, c', hj, herr, hcut, hrun, hcells, hff⟩ :=
    copy_run hf.inside (Area.other_ne source) hd (by rw [hlen]; exact hfit)
  rw [hlen] at hj hcut hrun
  rw [hrun]
  dsimp only
  have hT := Layout.size_bytes hf.inside source.other
  have hblank : Blank (l.bytes c.cells source.other) offset := hf.blank
  -- the copied prefix lands where the target is erased, and nowhere else
  have hB : ((l.bytes c.cells source).extract s.offset (s.offset + j)).size = j := by
    have := (decode_next hd).2.2
    simp only [ByteArray.size_extract]; omega
  have hfitj : offset + ((l.bytes c.cells source).extract s.offset (s.offset + j)).size ≤
      l.areaSize := by rw [hB]; omega
  have hself := bytes_program_self hf.inside source.other hfitj hblank
  have hother := Layout.bytes_programCells_other hf.inside (Area.other_ne source).symm hfitj
  rw [← hcells] at hself hother
  have hin : l.Inside c'.cells.size := by rw [hcells, Chip.size_programCells]; exact hf.inside
  have hfitT : offset + ((l.bytes c.cells source).extract s.offset (s.offset + j)).size ≤
      (l.bytes c.cells source.other).size := by rw [hT]; exact hfitj
  have hhead : Erased (l.bytes c'.cells source.other) 0 l.masterSize := by
    rw [hself]; exact erased_overwrite_before hfitT hf.head hf.start
  refine ⟨hff, ?_⟩
  by_cases hjs : j = l.recordSize s.length
  · -- the whole record was copied
    subst hjs
    rw [if_pos rfl]
    have hchain : chain l.geometry (l.bytes c.cells source.other) l.masterSize =
        ⟨copied, none, offset⟩ := hf.log
    have hmaster : ∀ v, e.record ≠ .master v := by rw [hrec]; intro v h; cases h
    have hfit' : offset + (e.next - s.offset) ≤ (l.bytes c.cells source.other).size := by
      rw [hlen, hT]; exact hfit
    obtain ⟨hlog, hblank'⟩ := chain_overwrite_copy hchain hblank hd hmaster hfit'
    rw [hlen, hrec] at hlog
    rw [hlen] at hblank'
    rw [← hnext] at hself
    left
    refine ⟨rfl, ⟨⟨hin, hother.trans hf.intact, hhead⟩, ?_, ?_, by have := hf.start; omega⟩, ?_⟩
    · unfold Layout.logOf; rw [hself, hlog]
    · rw [hself]; exact hblank'
    · intro t'
      rw [hself, values_concat, values_overwrite_after hchain
        (by rw [hT]; have := hf.start; omega) (by rw [hT, hnext]; exact hfitj)]
      simp only [List.map_append, List.map_cons, List.map_nil, List.mem_append,
        List.mem_singleton]
      by_cases ht : t = t'
      · -- the new record holds the bytes of the copied one
        subst ht
        rw [if_pos rfl, if_pos (.inr rfl)]
        have hpay := payload_end_le (hoff ▸ hd) hrec
        rw [hoff] at hpay
        have hsz : ((l.bytes c.cells source).extract s.offset e.next).size = e.next - s.offset := by
          have := (decode_next hd).2.2
          simp only [ByteArray.size_extract]; omega
        have key := congrArg (fun X => X.extract headerSize (headerSize + s.length))
          (extract_overwrite_self (A := l.bytes c.cells source.other)
            (by rw [hsz, hlen, hT]; exact hfit))
        simp only [ByteArray.extract_extract, hsz] at key
        rw [Nat.min_eq_left (by omega), Nat.min_eq_left (by omega), ← Nat.add_assoc,
          ← Nat.add_assoc] at key
        unfold values
        rw [hslot, key, hf.intact]
        rfl
      · have ht' : ¬ t' = t := fun h => ht h.symm
        rw [if_neg ht, hf.held t']
        simp only [ht', or_false]
  · -- a fault cut the copy
    rw [if_neg hjs]
    exact .inr ⟨err, rfl, herr, (hcut.resolve_left hjs).2, ⟨hin, hother.trans hf.intact, hhead⟩⟩

/-! ### Copying the current records -/

/-- The bytes the copies of the records `live` take. -/
def copiesSize (l : Layout) (live : List (Slot × UInt8)) : Nat :=
  live.foldr (fun (slot, _) n => l.recordSize slot.length + n) 0

omit [Crc] in
theorem slotsOf_concat_live (count : Nat) (copied : List Entry) (offset : Nat) (t : UInt8)
    (length next : Nat) :
    slotsOf count (copied ++ [⟨offset, .live t length, next⟩]) =
      (slotsOf count copied).setIfInBounds t.toNat (some ⟨offset, length⟩) := by
  simp only [slotsOf, List.foldl_append, List.foldl_cons, List.foldl_nil]
  rfl

theorem copyLive_run (count : Nat) (hdec : ∀ e ∈ es, decode l.geometry S e.offset = .ok (some e)) :
    ∀ (live done : List (Slot × UInt8)) (copied : List Entry) (offset : Nat) (c : Chip),
      Filling l c.cells source S es done copied offset →
      (∀ p ∈ live, slotFor p.2 es = some p.1) →
      offset + copiesSize l live ≤ l.areaSize →
      ((copyLive l source source.other live (slotsOf count copied) offset).run.run c).2.failFrom =
          c.failFrom ∧
        ((∃ copied', ((copyLive l source source.other live (slotsOf count copied) offset).run.run
              c).1 = .ok (slotsOf count (copied ++ copied'), offset + copiesSize l live) ∧
            Filling l ((copyLive l source source.other live (slotsOf count copied) offset).run.run
              c).2.cells source S es (done ++ live) (copied ++ copied') (offset + copiesSize l live)) ∨
          (∃ err, ((copyLive l source source.other live (slotsOf count copied) offset).run.run
              c).1 = .error err ∧ err.isFlashFault = true ∧ c.failFrom ≠ none ∧
            Unfinished l ((copyLive l source source.other live (slotsOf count copied)
              offset).run.run c).2.cells source S))
  | [], done, copied, offset, c, hf, _, _ => by
    have hnil : offset + copiesSize l [] = offset := rfl
    rw [copyLive, FlashM.run_pure, hnil]
    exact ⟨rfl, .inl ⟨[], by rw [List.append_nil], by simpa using hf⟩⟩
  | (s, t) :: rest, done, copied, offset, c, hf, hlive, hfit => by
    have hsize : offset + copiesSize l ((s, t) :: rest) =
        offset + l.recordSize s.length + copiesSize l rest := by
      rw [Nat.add_assoc]; rfl
    have hfit1 : offset + l.recordSize s.length + copiesSize l rest ≤ l.areaSize := by
      rw [← hsize]; exact hfit
    rw [hsize]
    have hslot : slotFor t es = some s := hlive (s, t) List.mem_cons_self
    obtain ⟨hff, hr⟩ := copy_step hf hdec hslot (by omega)
    rw [copyLive, FlashM.run_bind]
    generalize (copy l source s.offset source.other offset).run.run c = q at hff hr ⊢
    obtain ⟨r, c1⟩ := q
    dsimp only at hff hr ⊢
    rcases hr with ⟨rfl, hf1⟩ | ⟨err, rfl, herr, hfault, hu⟩
    · -- the first copy is complete: the rest is copied from where it ended
      dsimp only
      rw [← slotsOf_concat_live count copied offset t s.length (offset + l.recordSize s.length)]
      obtain ⟨hff', hr'⟩ := copyLive_run count hdec rest _ _ _ c1 hf1
        (fun p hp => hlive p (List.mem_cons_of_mem _ hp)) (by omega)
      refine ⟨hff'.trans hff, ?_⟩
      rcases hr' with ⟨copied', hres, hf'⟩ | ⟨err, hres, herr, hfault, hu⟩
      · refine .inl ⟨⟨offset, .live t s.length, offset + l.recordSize s.length⟩ :: copied', ?_, ?_⟩
        · rw [hres]
          simp only [List.append_assoc, List.singleton_append]
        · simpa only [List.append_assoc, List.singleton_append] using hf'
      · exact .inr ⟨err, hres, herr, hff ▸ hfault, hu⟩
    · exact ⟨hff, .inr ⟨err, rfl, herr, hfault, hu⟩⟩

/-! ### The pending record and the master record -/

theorem pending_step {copied : List Entry} {offset : Nat} (hr : Ready l c.cells source S copied offset)
    {p : Pending} (htype : p.type < masterType) (hl : p.data.size ≤ 0xFFFF)
    (hdel : p.isDeletion = false) (hfit : offset + l.recordSize p.data.size ≤ l.areaSize) :
    ((write l source.other offset p.type p.flags p.data).run.run c).2.failFrom = c.failFrom ∧
      ((((write l source.other offset p.type p.flags p.data).run.run c).1 =
            .ok (offset + l.recordSize p.data.size) ∧
          Ready l ((write l source.other offset p.type p.flags p.data).run.run c).2.cells source S
            (copied ++ [⟨offset, .live p.type p.data.size, offset + l.recordSize p.data.size⟩])
            (offset + l.recordSize p.data.size) ∧
          ∀ t, values (l.bytes ((write l source.other offset p.type p.flags p.data).run.run
              c).2.cells source.other)
              (copied ++ [⟨offset, .live p.type p.data.size, offset + l.recordSize p.data.size⟩]) t =
            if p.type = t then some p.data else values (l.bytes c.cells source.other) copied t) ∨
        (((write l source.other offset p.type p.flags p.data).run.run c).1 = .error .writeError ∧
          c.failFrom ≠ none ∧
          Unfinished l ((write l source.other offset p.type p.flags p.data).run.run c).2.cells
            source S)) := by
  have hok : ¬ (p.type ≥ masterType ∨ p.data.size > 0xFFFF) := by
    intro h; rcases h with h | h
    · have := UInt8.lt_iff_toNat_lt.mp htype
      have := UInt8.le_iff_toNat_le.mp h
      omega
    · omega
  rw [write_eq, if_neg hok]
  obtain ⟨j, c', hj, hcut, hrun, hcells, hff⟩ :=
    program_run hr.inside source.other p.type p.flags hfit
  rw [hrun]
  dsimp only
  have hT := Layout.size_bytes hr.inside source.other
  have hsize := size_image l.geometry p.type p.flags p.data
  have hB : ((image l.geometry p.type p.flags p.data).extract 0 j).size = j := by
    simp only [ByteArray.size_extract, hsize]; simp only [Layout.recordSize] at hj; omega
  have hfitj : offset + ((image l.geometry p.type p.flags p.data).extract 0 j).size ≤ l.areaSize := by
    rw [hB]; omega
  have hself := bytes_program_self hr.inside source.other hfitj hr.blank
  have hother := Layout.bytes_programCells_other hr.inside (Area.other_ne source).symm hfitj
  rw [← hcells] at hself hother
  have hin : l.Inside c'.cells.size := by rw [hcells, Chip.size_programCells]; exact hr.inside
  have hfitT : offset + ((image l.geometry p.type p.flags p.data).extract 0 j).size ≤
      (l.bytes c.cells source.other).size := by rw [hT]; exact hfitj
  have hhead : Erased (l.bytes c'.cells source.other) 0 l.masterSize := by
    rw [hself]; exact erased_overwrite_before hfitT hr.head hr.start
  refine ⟨hff, ?_⟩
  by_cases hjs : j = l.recordSize p.data.size
  · -- the whole record was written
    subst hjs
    rw [if_pos rfl]
    have hfull : (image l.geometry p.type p.flags p.data).extract 0 (l.recordSize p.data.size) =
        image l.geometry p.type p.flags p.data := by
      rw [show l.recordSize p.data.size = (image l.geometry p.type p.flags p.data).size from
        hsize.symm, ByteArray.extract_zero_size]
    rw [hfull] at hself
    have hchain : chain l.geometry (l.bytes c.cells source.other) l.masterSize =
        ⟨copied, none, offset⟩ := hr.log
    obtain ⟨hlog, hblank'⟩ := chain_overwrite_image p.flags hchain hr.blank
      (by rw [hT]; exact hfit) htype hl
    have hne : p.type ≠ masterType := by
      intro h; rw [h] at htype; exact absurd htype (by decide)
    have hrec : (Header.ofPayload p.type p.flags p.data).record p.data = .live p.type p.data.size := by
      rw [Header.record_ofPayload hne hl]
      simp only [Pending.isDeletion] at hdel
      rw [if_neg (by simpa using hdel)]
    rw [hrec] at hlog
    left
    refine ⟨rfl, ⟨⟨hin, hother.trans hr.intact, hhead⟩, ?_, ?_, by have := hr.start; omega⟩, ?_⟩
    · unfold Layout.logOf; rw [hself]; exact hlog
    · rw [hself]; exact hblank'
    · intro t
      rw [hself, values_concat, values_overwrite_after hchain
        (by rw [hT]; have := hr.start; omega) (by rw [hT, hsize]; exact hfit)]
      dsimp only
      by_cases ht : p.type = t
      · -- the new record's payload is the pending data
        rw [if_pos ht, if_pos ht]
        have key := congrArg (fun X => X.extract headerSize (headerSize + p.data.size))
          (extract_overwrite_self (A := l.bytes c.cells source.other)
            (B := image l.geometry p.type p.flags p.data) (by rw [hsize, hT]; exact hfit))
        simp only [ByteArray.extract_extract, hsize] at key
        have hroom := headerSize_add_le_size l.geometry p.data.size
        rw [Nat.min_eq_left (by omega), ← Nat.add_assoc, extract_image_payload] at key
        rw [key]
      · rw [if_neg ht, if_neg ht]
  · -- a fault cut the record
    rw [if_neg hjs]
    exact .inr ⟨rfl, (hcut.resolve_left hjs).2, ⟨hin, hother.trans hr.intact, hhead⟩⟩

theorem master_step (hl : l.Valid) {copied : List Entry} {offset : Nat}
    (hr : Ready l c.cells source S copied offset) (version : UInt16) :
    ((writeMaster l source.other version).run.run c).2.failFrom = c.failFrom ∧
      ((((writeMaster l source.other version).run.run c).1 = .ok l.masterSize ∧
          l.Inside ((writeMaster l source.other version).run.run c).2.cells.size ∧
          masterIn l ((writeMaster l source.other version).run.run c).2.cells source.other =
            some version ∧
          l.bytes ((writeMaster l source.other version).run.run c).2.cells source = S ∧
          l.logOf ((writeMaster l source.other version).run.run c).2.cells source.other =
            ⟨copied, none, offset⟩ ∧
          Blank (l.bytes ((writeMaster l source.other version).run.run c).2.cells source.other)
            offset ∧
          values (l.bytes ((writeMaster l source.other version).run.run c).2.cells source.other)
            copied = values (l.bytes c.cells source.other) copied) ∨
        (((writeMaster l source.other version).run.run c).1 = .error .writeError ∧
          c.failFrom ≠ none ∧ ((writeMaster l source.other version).run.run c).2.cells = c.cells)) := by
  obtain ⟨c', hff, hres⟩ := writeMaster_run hl hr.inside source.other version
  rcases hres with ⟨hrun, hcells⟩ | ⟨hrun, hcells, hf⟩
  · rw [hrun]
    dsimp only
    have hT := Layout.size_bytes hr.inside source.other
    have hsz : (image l.geometry masterType 0 (masterPayload version)).size = l.masterSize :=
      size_image _ _ _ _
    have hm := hl.masterSize_le_areaSize
    have hfit : 0 + (image l.geometry masterType 0 (masterPayload version)).size ≤ l.areaSize := by
      rw [hsz]; omega
    have hfitT : 0 + (image l.geometry masterType 0 (masterPayload version)).size ≤
        (l.bytes c.cells source.other).size := by rw [hT]; exact hfit
    have hself := Layout.bytes_programCells_self hr.inside source.other hfit
      (by rw [Nat.zero_add, hsz]; exact hr.head)
    have hother := Layout.bytes_programCells_other hr.inside (Area.other_ne source).symm hfit
    rw [Nat.add_zero, ← hcells] at hself hother
    have hchain : chain l.geometry (l.bytes c.cells source.other) l.masterSize =
        ⟨copied, none, offset⟩ := hr.log
    have hafter : ∀ x y, l.masterSize ≤ x →
        (l.bytes c'.cells source.other).extract x y = (l.bytes c.cells source.other).extract x y := by
      intro x y hx
      rw [hself]
      exact extract_overwrite_after hfitT (by rw [hsz]; omega)
    have hsize' : (l.bytes c'.cells source.other).size = (l.bytes c.cells source.other).size := by
      rw [hself]; exact size_overwrite hfitT
    refine ⟨hff, .inl ⟨rfl, by rw [hcells, Chip.size_programCells]; exact hr.inside, ?_,
      hother.trans hr.intact, ?_, ?_, ?_⟩⟩
    · -- the master record reads back
      unfold masterIn
      rw [hself]
      exact masterOf_overwrite_image version (by rw [hT]; exact hm)
    · unfold Layout.logOf
      rw [chain_congr_from l.masterSize hsize' hafter]
      exact hchain
    · rw [hself]
      exact blank_overwrite_before hfitT hr.blank (by rw [hsz]; have := hr.start; omega)
    · rw [hself]
      exact values_overwrite_before hchain (by rw [hT]; exact hm) hfitT (by rw [hsz]; omega)
  · rw [hrun]
    exact ⟨hff, .inr ⟨rfl, hf, hcells⟩⟩

/-! ### A whole compaction -/

omit [Crc] in
theorem mem_copied_types {i : Index} {count : Nat} (hcount : count ≤ 256)
    (hslots : i.slots = slotsOf count es) (pending : Option Pending) (t : UInt8) :
    t ∈ (i.liveRecords.filter fun p => pending.all (·.type != p.2)).map Prod.snd ↔
      pending.all (·.type != t) ∧ t.toNat < count ∧ (slotFor t es).isSome := by
  have hsize : i.slots.size ≤ 256 := by rw [hslots, size_slotsOf]; exact hcount
  rw [List.mem_map]
  constructor
  · rintro ⟨⟨s, t'⟩, hp, rfl⟩
    obtain ⟨hmem, hall⟩ := List.mem_filter.mp hp
    rw [mem_liveRecords hsize, slot?_of_slots hcount hslots] at hmem
    split at hmem
    · exact ⟨hall, by assumption, by rw [hmem]; rfl⟩
    · cases hmem
  · rintro ⟨hall, hlt, hsome⟩
    obtain ⟨s, hs⟩ := Option.isSome_iff_exists.mp hsome
    refine ⟨(s, t), List.mem_filter.mpr ⟨?_, hall⟩, rfl⟩
    rw [mem_liveRecords hsize, slot?_of_slots hcount hslots, if_pos hlt, hs]

omit [Crc] in
theorem slotFor_of_mem_copied {i : Index} {count : Nat} (hcount : count ≤ 256)
    (hslots : i.slots = slotsOf count es) {pending : Option Pending} {p : Slot × UInt8}
    (hp : p ∈ i.liveRecords.filter fun p => pending.all (·.type != p.2)) :
    slotFor p.2 es = some p.1 := by
  have hsize : i.slots.size ≤ 256 := by rw [hslots, size_slotsOf]; exact hcount
  have hmem := (List.mem_filter.mp hp).1
  rw [mem_liveRecords hsize, slot?_of_slots hcount hslots] at hmem
  split at hmem
  · exact hmem
  · cases hmem

omit [Crc] in
theorem copied_value {i : Index} {count : Nat} (hcount : count ≤ 256)
    (hslots : i.slots = slotsOf count es) (pending : Option Pending) {t : UInt8}
    (ht : pending.all (·.type != t)) :
    (if t ∈ (i.liveRecords.filter fun p => pending.all (·.type != p.2)).map Prod.snd then
        values S es t else none) = if t.toNat < count then values S es t else none := by
  by_cases hlt : t.toNat < count
  · rw [if_pos hlt]
    by_cases hsome : (slotFor t es).isSome
    · rw [if_pos ((mem_copied_types hcount hslots pending t).mpr ⟨ht, hlt, hsome⟩)]
    · rw [if_neg (fun h => hsome ((mem_copied_types hcount hslots pending t).mp h).2.2)]
      simp only [Bool.not_eq_true, Option.isSome_eq_false_iff, Option.isNone_iff_eq_none] at hsome
      simp [values, hsome]
  · rw [if_neg hlt, if_neg (fun h => hlt ((mem_copied_types hcount hslots pending t).mp h).2.1)]

theorem erase_step (h : l.Inside c.cells.size) (source : Area) (es : List Entry) :
    ((l.erase source.other).run.run c).2.failFrom = c.failFrom ∧
      ((((l.erase source.other).run.run c).1 = .ok () ∧
          Filling l ((l.erase source.other).run.run c).2.cells source (l.bytes c.cells source) es []
            [] l.masterSize) ∨
        (((l.erase source.other).run.run c).1 = .error .writeError ∧ c.failFrom ≠ none ∧
          ((l.erase source.other).run.run c).2.cells = c.cells)) := by
  rw [Layout.erase_run h source.other]
  by_cases hlive : c.Live
  · rw [if_pos hlive]
    have hT := Layout.bytes_erase_self h source.other
    have hS := Layout.bytes_erase_other h (Area.other_ne source).symm
    have hfitE : (l.info source.other).address +
        (ByteArray.mk (Array.replicate l.areaSize 0xFF)).size ≤ c.cells.size := by
      rw [Layout.size_erasedArea]; exact Layout.info_address_add_le h source.other
    have hin : l.Inside (Chip.overwriteCells c.cells (l.info source.other).address
        (ByteArray.mk (Array.replicate l.areaSize 0xFF))).size := by
      rw [Chip.size_overwriteCells _ _ _ hfitE]; exact h
    have hblank : ∀ n, Blank (ByteArray.mk (Array.replicate l.areaSize 0xFF)) n :=
      fun _ _ hi _ _ => getElem_replicate_erased hi
    refine ⟨rfl, .inl ⟨rfl, ⟨⟨⟨hin, hS, ?_⟩, ?_, ?_, Nat.le_refl _⟩, fun t => ?_⟩⟩⟩
    · rw [hT]; exact (hblank 0).erased _
    · unfold Layout.logOf; rw [hT]; exact chain_of_blank (hblank _)
    · rw [hT]; exact hblank _
    · simp [values]
  · rw [if_neg hlive]
    exact ⟨rfl, .inr ⟨rfl, Chip.failFrom_ne_none_of_not_live hlive, rfl⟩⟩

omit [Crc] in
theorem compactedValues_of_none {i : Index} {count : Nat} (hcount : count ≤ 256)
    (hslots : i.slots = slotsOf count es) {pending : Option Pending}
    (hw : pending.filter (!·.isDeletion) = none) (t : UInt8) :
    (if t ∈ (i.liveRecords.filter fun p => pending.all (·.type != p.2)).map Prod.snd then
        values S es t else none) = compactedValues (values S es) count pending t := by
  cases pending with
  | none => exact copied_value hcount hslots none rfl
  | some p =>
    have hdel : p.isDeletion = true := by simpa using hw
    unfold compactedValues Pending.apply restrictValues
    dsimp only
    by_cases ht : p.type = t
    · -- the deleted type is not copied
      rw [if_pos ht, if_pos hdel, if_neg]
      intro hmem
      have := ((mem_copied_types hcount hslots (some p) t).mp hmem).1
      simp [ht] at this
    · rw [if_neg ht]
      exact copied_value hcount hslots (some p) (by simp [ht])

omit [Crc] in
theorem compactedValues_of_some {i : Index} {count : Nat} (hcount : count ≤ 256)
    (hslots : i.slots = slotsOf count es) {pending : Option Pending} {p : Pending}
    (hw : pending.filter (!·.isDeletion) = some p) (t : UInt8) :
    (if p.type = t then some p.data
      else if t ∈ (i.liveRecords.filter fun p => pending.all (·.type != p.2)).map Prod.snd then
        values S es t else none) = compactedValues (values S es) count pending t := by
  obtain ⟨rfl, hdel⟩ := Option.filter_eq_some_iff.mp hw
  unfold compactedValues Pending.apply restrictValues
  dsimp only
  by_cases ht : p.type = t
  · rw [if_pos ht, if_pos ht, if_neg (by simpa using hdel)]
  · rw [if_neg ht, if_neg ht]
    exact copied_value hcount hslots (some p) (by simp [ht])

theorem finish_step (hl : l.Valid) {cells : ByteArray} {count : Nat} {i : Index}
    (hi : Scanned l count cells i) {copied : List Entry} {offset : Nat}
    (hr : Ready l c.cells i.area (l.bytes cells i.area) copied offset) :
    ((writeMaster l i.area.other (i.version + 1) >>= fun _ =>
        pure ⟨i.area.other, i.version + 1, offset, slotsOf count copied⟩ :
          FlashM Chip Index).run.run c).2.failFrom = c.failFrom ∧
      l.Inside ((writeMaster l i.area.other (i.version + 1) >>= fun _ =>
        pure ⟨i.area.other, i.version + 1, offset, slotsOf count copied⟩ :
          FlashM Chip Index).run.run c).2.cells.size ∧
      ((((writeMaster l i.area.other (i.version + 1) >>= fun _ =>
            pure ⟨i.area.other, i.version + 1, offset, slotsOf count copied⟩ :
              FlashM Chip Index).run.run c).1 =
            .ok ⟨i.area.other, i.version + 1, offset, slotsOf count copied⟩ ∧
          Coherent l count ((writeMaster l i.area.other (i.version + 1) >>= fun _ =>
            pure ⟨i.area.other, i.version + 1, offset, slotsOf count copied⟩ :
              FlashM Chip Index).run.run c).2.cells ⟨i.area.other, i.version + 1, offset,
                slotsOf count copied⟩ ∧
          l.bytes ((writeMaster l i.area.other (i.version + 1) >>= fun _ =>
            pure ⟨i.area.other, i.version + 1, offset, slotsOf count copied⟩ :
              FlashM Chip Index).run.run c).2.cells i.area = l.bytes cells i.area ∧
          l.valueIn ((writeMaster l i.area.other (i.version + 1) >>= fun _ =>
            pure ⟨i.area.other, i.version + 1, offset, slotsOf count copied⟩ :
              FlashM Chip Index).run.run c).2.cells i.area.other =
            values (l.bytes c.cells i.area.other) copied) ∨
        (((writeMaster l i.area.other (i.version + 1) >>= fun _ =>
            pure ⟨i.area.other, i.version + 1, offset, slotsOf count copied⟩ :
              FlashM Chip Index).run.run c).1 = .error .writeError ∧ c.failFrom ≠ none ∧
          activeOf l ((writeMaster l i.area.other (i.version + 1) >>= fun _ =>
            pure ⟨i.area.other, i.version + 1, offset, slotsOf count copied⟩ :
              FlashM Chip Index).run.run c).2.cells = some (i.area, i.version) ∧
          l.bytes ((writeMaster l i.area.other (i.version + 1) >>= fun _ =>
            pure ⟨i.area.other, i.version + 1, offset, slotsOf count copied⟩ :
              FlashM Chip Index).run.run c).2.cells i.area = l.bytes cells i.area ∧
          masterIn l ((writeMaster l i.area.other (i.version + 1) >>= fun _ =>
            pure ⟨i.area.other, i.version + 1, offset, slotsOf count copied⟩ :
              FlashM Chip Index).run.run c).2.cells i.area.other = none)) := by
  have hsource : masterOf l.geometry (l.bytes cells i.area) = some i.version :=
    masterIn_of_activeOf hi.active
  obtain ⟨hff, hres⟩ := master_step hl hr (i.version + 1)
  rw [FlashM.run_bind]
  generalize (writeMaster l i.area.other (i.version + 1)).run.run c = q at hff hres ⊢
  obtain ⟨r, c'⟩ := q
  dsimp only at hff hres ⊢
  rcases hres with ⟨rfl, hin, hmaster, hsrc, hlog, hblank, hvalues⟩ | ⟨rfl, hfault, hcells⟩
  · dsimp only
    rw [FlashM.run_pure]
    refine ⟨hff, hin, .inl ⟨rfl, ⟨⟨?_, ?_⟩, ?_, ?_, hblank⟩, hsrc, ?_⟩⟩
    · exact activeOf_of_next (by unfold masterIn; rw [hsrc]; exact hsource) hmaster
    · dsimp only; rw [hlog]
    · dsimp only; rw [hlog]
    · dsimp only; rw [hlog]
    · unfold Layout.valueIn; rw [hlog]; exact hvalues
  · refine ⟨hff, by rw [hcells]; exact hr.inside, .inr ⟨rfl, hfault, ?_,
      by rw [hcells]; exact hr.intact, by rw [hcells]; exact masterIn_of_erased hr.head⟩⟩
    rw [hcells]
    exact activeOf_of_other_none (by unfold masterIn; rw [hr.intact]; exact hsource)
      (masterIn_of_erased hr.head)

/-- How a compaction from `i` with `pending` to write can end: the answer and the chip. -/
inductive Compacted (l : Layout) (count : Nat) (c : Chip) (i : Index) (pending : Option Pending) :
    Except Error Index → Chip → Prop
  /-- The live records and the pending one do not fit in an area, and nothing was done. -/
  | tooSmall (hbig : l.areaSize < compactedSize l
      (i.liveRecords.filter fun p => pending.all (·.type != p.2)) (pending.filter (!·.isDeletion))) :
      Compacted l count c i pending (.error .flashAreaTooSmall) c
  /-- The other area is active, with a coherent index and the compacted values, and the old
  area is as it was. -/
  | done {i' : Index} {c' : Chip} (harea : i'.area = i.area.other)
      (hcoherent : Coherent l count c'.cells i')
      (hsource : l.bytes c'.cells i.area = l.bytes c.cells i.area)
      (hvalues : l.valueIn c'.cells i'.area = compactedValues (l.valueIn c.cells i.area) count pending) :
      Compacted l count c i pending (.ok i') c'
  /-- A due fault cut it: the old area is still active and as it was, and the other area holds
  no master record unless nothing was written at all. -/
  | cut {e : Error} {c' : Chip} (hfault : e.isFlashFault = true) (hdue : c.failFrom ≠ none)
      (hactive : activeOf l c'.cells = some (i.area, i.version))
      (hsource : l.bytes c'.cells i.area = l.bytes c.cells i.area)
      (htarget : masterIn l c'.cells i.area.other = none ∨ c'.cells = c.cells) :
      Compacted l count c i pending (.error e) c'

theorem compact_run (hl : l.Valid) (h : l.Inside c.cells.size) {count : Nat} (hcount : count ≤ 256)
    {i : Index} (hi : Scanned l count c.cells i) (pending : Option Pending)
    (hp : ∀ p ∈ pending, p.type < masterType ∧ p.data.size ≤ 0xFFFF) :
    ((compact l i pending).run.run c).2.failFrom = c.failFrom ∧
      l.Inside ((compact l i pending).run.run c).2.cells.size ∧
      Compacted l count c i pending ((compact l i pending).run.run c).1
        ((compact l i pending).run.run c).2 := by
  have hsize : i.slots.size = count := by rw [hi.slots, size_slotsOf]
  unfold compact
  dsimp only
  by_cases hbig : compactedSize l (i.liveRecords.filter fun p => pending.all (·.type != p.2))
      (pending.filter (!·.isDeletion)) > l.areaSize
  · rw [if_pos hbig]
    exact ⟨rfl, h, .tooSmall hbig⟩
  rw [if_neg hbig, FlashM.run_bind]
  obtain ⟨hff1, hr1⟩ := erase_step h i.area (l.logOf c.cells i.area).entries
  generalize (l.erase i.area.other).run.run c = q at hff1 hr1 ⊢
  obtain ⟨r1, c1⟩ := q
  dsimp only at hff1 hr1 ⊢
  rcases hr1 with ⟨rfl, hf1⟩ | ⟨rfl, hfault, hcells⟩
  · dsimp only
    -- the copies
    have hS := Layout.size_bytes h i.area
    obtain ⟨-, hdec, -, -⟩ := chain_spec l.geometry (l.bytes c.cells i.area) l.masterSize
      (by rw [hS]; exact hl.masterSize_le_areaSize)
    have hdec' : ∀ e ∈ (l.logOf c.cells i.area).entries,
        decode l.geometry (l.bytes c.cells i.area) e.offset = .ok (some e) :=
      fun e he => (hdec e he).1
    have hinit : Array.replicate i.slots.size none = slotsOf count [] := by rw [hsize]; rfl
    have hsizes : compactedSize l (i.liveRecords.filter fun p => pending.all (·.type != p.2))
        (pending.filter (!·.isDeletion)) = l.masterSize +
          copiesSize l (i.liveRecords.filter fun p => pending.all (·.type != p.2)) +
          ((pending.filter (!·.isDeletion)).map fun p => l.recordSize p.data.size).getD 0 := rfl
    rw [hinit, FlashM.run_bind]
    obtain ⟨hff2, hr2⟩ := copyLive_run count hdec'
      (i.liveRecords.filter fun p => pending.all (·.type != p.2)) [] [] l.masterSize c1 hf1
      (fun p hp => slotFor_of_mem_copied hcount hi.slots hp) (by omega)
    generalize (copyLive l i.area i.area.other
      (i.liveRecords.filter fun p => pending.all (·.type != p.2)) (slotsOf count [])
      l.masterSize).run.run c1 = q at hff2 hr2 ⊢
    obtain ⟨r2, c2⟩ := q
    dsimp only at hff2 hr2 ⊢
    rcases hr2 with ⟨copied, rfl, hf2⟩ | ⟨err, rfl, herr, hfault, hu⟩
    · simp only [List.nil_append] at hf2 ⊢
      cases hw : Option.filter (fun x => !x.isDeletion) pending with
      | none =>
        -- nothing more to write but the master record
        dsimp only
        rw [FlashM.run_bind, FlashM.run_pure]
        dsimp only
        obtain ⟨hff3, hin3, hr3⟩ := finish_step hl hi hf2.toReady
        refine ⟨hff3.trans (hff2.trans hff1), hin3, ?_⟩
        rcases hr3 with ⟨hres, hcoh, hsrc, hval⟩ | ⟨hres, hfault, hact, hsrc, htarget⟩
        · rw [hres]
          refine .done rfl hcoh hsrc ?_
          funext t
          rw [hval, hf2.held t]
          exact compactedValues_of_none hcount hi.slots hw t
        · rw [hres]
          exact .cut rfl ((hff2.trans hff1) ▸ hfault) hact hsrc (.inl htarget)
      | some p =>
        -- the pending record, then the master record
        obtain ⟨hpend, hnd⟩ := Option.filter_eq_some_iff.mp hw
        have hdel : p.isDeletion = false := by simpa using hnd
        obtain ⟨htype, hlen⟩ := hp p (Option.mem_def.mpr hpend)
        have hfit3 : l.masterSize + copiesSize l
            (i.liveRecords.filter fun p => pending.all (·.type != p.2)) +
            l.recordSize p.data.size ≤ l.areaSize := by
          have hw' : ((Option.filter (fun x => !x.isDeletion) pending).map
              fun p => l.recordSize p.data.size).getD 0 = l.recordSize p.data.size := by
            rw [hw]; rfl
          omega
        dsimp only
        rw [FlashM.run_bind]
        obtain ⟨hff3, hr3⟩ := pending_step hf2.toReady htype hlen hdel hfit3
        generalize (write l i.area.other (l.masterSize + copiesSize l
          (i.liveRecords.filter fun p => pending.all (·.type != p.2))) p.type p.flags
          p.data).run.run c2 = q at hff3 hr3 ⊢
        obtain ⟨r3, c3⟩ := q
        dsimp only at hff3 hr3 ⊢
        rcases hr3 with ⟨rfl, hr4, hval4⟩ | ⟨rfl, hfault, hu⟩
        · dsimp only
          rw [FlashM.run_bind, FlashM.run_pure]
          dsimp only
          rw [← slotsOf_concat_live]
          obtain ⟨hff5, hin5, hr5⟩ := finish_step hl hi hr4
          refine ⟨hff5.trans (hff3.trans (hff2.trans hff1)), hin5, ?_⟩
          rcases hr5 with ⟨hres, hcoh, hsrc, hval⟩ | ⟨hres, hfault, hact, hsrc, htarget⟩
          · rw [hres]
            refine .done rfl hcoh hsrc ?_
            funext t
            rw [hval, hval4 t, hf2.held t]
            exact compactedValues_of_some hcount hi.slots hw t
          · rw [hres]
            exact .cut rfl ((hff3.trans (hff2.trans hff1)) ▸ hfault) hact hsrc (.inl htarget)
        · -- a fault cut the pending record: the target has no master record
          refine ⟨hff3.trans (hff2.trans hff1), hu.inside,
            .cut rfl ((hff2.trans hff1) ▸ hfault) ?_ hu.intact (.inl (masterIn_of_erased hu.head))⟩
          apply activeOf_of_other_none
          · unfold masterIn; rw [hu.intact]; exact masterIn_of_activeOf hi.active
          · exact masterIn_of_erased hu.head
    · -- a copy failed: the target has no master record
      refine ⟨hff2.trans hff1, hu.inside,
        .cut herr (hff1 ▸ hfault) ?_ hu.intact (.inl (masterIn_of_erased hu.head))⟩
      apply activeOf_of_other_none
      · unfold masterIn; rw [hu.intact]; exact masterIn_of_activeOf hi.active
      · exact masterIn_of_erased hu.head
  · -- the erase was refused: nothing changed
    refine ⟨hff1, by rw [hcells]; exact h, .cut rfl hfault ?_ (by rw [hcells]) (.inr hcells)⟩
    rw [hcells]; exact hi.active

end Index

end NorStore
