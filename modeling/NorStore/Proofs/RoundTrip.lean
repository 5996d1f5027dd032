import NorStore.Proofs.Acceptance
import NorStore.Proofs.AccessDiscipline

/-! # Writing a record and reading it back

A record written where its area is erased lands as the format lays it out: the eight header bytes
(type, flags, payload length and checksum, both little-endian), the payload, and erased bytes up to
the record's size (`write_run_of_erased`). Read back, it is the record written, with its payload
delivered into a buffer that holds it and nothing delivered into one that does not
(`readAt_image`); a master record reads back its generation (`writeMaster_readMaster`); and a
copy into erased bytes of the other area is the same bytes and reads as the same record at its new
offset (`copy_run_of_erased`).
-/

namespace NorStore.Record

open Generation

variable {l : Layout} {c : Chip} {a : Area} {offset : Nat} {type flags : UInt8} {data : ByteArray}

variable [Crc]

theorem image_eq_fields (g : Geometry) (type flags : UInt8) (data : ByteArray) :
    image g type flags data =
      ByteArray.mk (type :: flags :: le16 data.size.toUInt16 ++
          le32 (Crc.crc32 (Crc.crc32 0xFFFFFFFF
            (ByteArray.mk (type :: flags :: le16 data.size.toUInt16).toArray)) data)).toArray ++
        data ++ ByteArray.mk (Array.replicate (size g data.size - headerSize - data.size) 0xFF) :=
  rfl

omit [Crc] in
theorem programCells_of_erased (hin : l.Inside c.cells.size) {B : ByteArray}
    (hfit : offset + B.size ≤ l.areaSize) (he : Erased (l.bytes c.cells a) offset (offset + B.size)) :
    Chip.programCells c.cells ((l.info a).address + offset) B =
      Chip.overwriteCells c.cells ((l.info a).address + offset) B := by
  have := Layout.info_address_add_le hin a
  exact Chip.programCells_eq_overwriteCells (by omega) (Layout.erased_of_bytes hfit he)

theorem write_run_of_erased (hin : l.Inside c.cells.size) (hlive : c.failFrom = none)
    (htype : type < masterType) (hlen : data.size ≤ 0xFFFF)
    (hfit : offset + l.recordSize data.size ≤ l.areaSize)
    (herased : Erased (l.bytes c.cells a) offset (offset + l.recordSize data.size)) :
    ∃ c', (write l a offset type flags data).run.run c = (.ok (offset + l.recordSize data.size), c') ∧
      c'.cells = Chip.overwriteCells c.cells ((l.info a).address + offset)
        (image l.geometry type flags data) ∧ c'.failFrom = c.failFrom := by
  have hok : ¬ (type ≥ masterType ∨ data.size > 0xFFFF) := by
    rintro (h | h)
    · exact absurd htype (UInt8.not_lt.mpr h)
    · omega
  have hsize : (image l.geometry type flags data).size = l.recordSize data.size :=
    size_image _ _ _ _
  obtain ⟨j, c', -, hcut, hrun, hcells, hff⟩ := program_run hin a type flags hfit
  -- no fault is set, so every piece is written
  have hj : j = l.recordSize data.size := hcut.resolve_right fun h => h.2 hlive
  subst hj
  refine ⟨c', ?_, ?_, hff⟩
  · rw [write_eq, if_neg hok, hrun, if_pos rfl]
  · rw [hcells, ← hsize, ByteArray.extract_zero_size]
    exact programCells_of_erased hin (by rw [hsize]; exact hfit) (by rw [hsize]; exact herased)

theorem fetch_of_image {A : ByteArray} (hA : A.size = l.areaSize)
    (himage : A.extract offset (offset + l.recordSize data.size) = image l.geometry type flags data)
    (hfit : offset + l.recordSize data.size ≤ A.size) (htype : type ≠ noType)
    (hmaster : type = masterType → data.size = masterPayloadSize) (hlen : data.size ≤ 0xFFFF)
    (capacity : Option Nat) :
    fetch l A offset capacity =
      if capacity.any (· < data.size) then ⟨.error (.buffTooSmall data.size), .empty⟩
      else ⟨.ok (some ⟨offset, (Header.ofPayload type flags data).record data,
        offset + l.recordSize data.size⟩), data⟩ := by
  have hroom : headerSize + data.size ≤ l.recordSize data.size :=
    headerSize_add_le_size l.geometry data.size
  have hpayload : (Header.ofPayload type flags data).payloadSize = data.size :=
    Header.payloadSize_ofPayload hlen
  -- the header and the payload are the corresponding ranges of the image
  have hsub : ∀ x y, x ≤ y → y ≤ l.recordSize data.size →
      A.extract (offset + x) (offset + y) = (image l.geometry type flags data).extract x y := by
    intro x y _ hy
    rw [← himage, ByteArray.extract_extract, Nat.min_eq_left (by omega)]
  have hhead : A.extract offset (offset + headerSize) = (Header.ofPayload type flags data).toBytes := by
    rw [← extract_image_header, ← hsub 0 headerSize (by omega) (Nat.le_trans (by omega) hroom),
      Nat.add_zero]
  have hdata : A.extract (offset + headerSize) (offset + headerSize + data.size) = data := by
    rw [Nat.add_assoc, hsub _ _ (by omega) hroom, extract_image_payload]
  have hb : Header.ofBytes? (A.extract offset (offset + headerSize)).toList =
      some (Header.ofPayload type flags data) := by
    rw [hhead, Header.ofBytes?_toBytes]
  have he : ¬ IsErasedHeader (A.extract offset (offset + headerSize)) := by
    rw [hhead]
    exact Header.not_isErasedHeader_toBytes htype
  have hw : ¬ windowLength l offset < headerSize := by
    rw [windowLength_lt_iff, ← hA]; omega
  have hadm : (Header.ofPayload type flags data).Admissible l.geometry l.areaSize offset := by
    refine ⟨htype, fun hm => ?_, by rw [hpayload, ← hA]; exact hfit⟩
    rw [hpayload]
    exact hmaster hm
  unfold fetch inspect
  rw [if_neg hw, if_neg (mt (window_isErasedHeader_iff hw).mp he), window_header hw, hb]
  dsimp only
  rw [if_pos hadm]
  dsimp only
  rw [hpayload, hdata, if_pos Header.matches_ofPayload]

variable [LawfulCrc]

theorem readAt_image (hl : l.Valid) (hin : l.Inside c.cells.size) (hlive : c.failFrom = none)
    (himage : (l.bytes c.cells a).extract offset (offset + l.recordSize data.size) =
      image l.geometry type flags data)
    (hfit : offset + l.recordSize data.size ≤ l.areaSize) (htype : type < masterType)
    (hlen : data.size ≤ 0xFFFF) (capacity : Option Nat) :
    ((readAt l a offset capacity).run c).1 =
      if capacity.any (· < data.size) then ⟨.error (.buffTooSmall data.size), .empty⟩
      else ⟨.ok (some ⟨offset, if flags &&& deleteFlag ≠ 0 then .deleted type else .live type data.size,
        offset + l.recordSize data.size⟩), data⟩ := by
  have hA := Layout.size_bytes hin a
  have hne : type ≠ masterType := Nat.ne_of_lt (UInt8.lt_iff_toNat_lt.mp htype) ∘ congrArg UInt8.toNat
  have hnt : type ≠ noType := by
    intro h
    rw [h] at htype
    exact absurd htype (by decide)
  rcases (readAt_run hl hin a offset capacity).2 with hfetch | ⟨hdue, -⟩
  · rw [hfetch, fetch_of_image hA himage (by rw [hA]; exact hfit) hnt (fun h => absurd h hne) hlen,
      Header.record_ofPayload hne hlen]
    simp only [bne_iff_ne, ne_eq]
  · exact absurd hlive hdue

theorem writeMaster_readMaster (hl : l.Valid) (hin : l.Inside c.cells.size) (hlive : c.failFrom = none)
    (a : Area) (version : UInt16) (herased : Erased (l.bytes c.cells a) 0 l.masterSize) :
    ∃ c', (writeMaster l a version).run.run c = (.ok l.masterSize, c') ∧
      ((readMaster l a).run.run c').1 = .ok (some version) := by
  have hsize : (image l.geometry masterType 0 (masterPayload version)).size = l.masterSize :=
    size_image _ _ _ _
  obtain ⟨c', hff, ⟨hrun, hcells⟩ | ⟨-, -, hdue⟩⟩ := writeMaster_run hl hin a version
  · have hfit : 0 + (image l.geometry masterType 0 (masterPayload version)).size ≤ l.areaSize := by
      rw [hsize, Nat.zero_add]; exact hl.masterSize_le_areaSize
    have hcells' : c'.cells = Chip.overwriteCells c.cells ((l.info a).address + 0)
        (image l.geometry masterType 0 (masterPayload version)) := by
      rw [hcells, ← programCells_of_erased hin hfit (by rw [hsize, Nat.zero_add]; exact herased),
        Nat.add_zero]
    have hin' : l.Inside c'.cells.size := by
      rw [hcells, Chip.size_programCells]; exact hin
    refine ⟨c', hrun, ?_⟩
    rcases (readMaster_run hl hin' a).2 with hread | ⟨hdue, -⟩
    · rw [hread]
      unfold masterIn
      rw [hcells', Layout.bytes_overwriteCells_self hin a hfit,
        Index.masterOf_overwrite_image version (by rw [Layout.size_bytes hin]; exact hl.masterSize_le_areaSize)]
    · exact absurd (hff.trans hlive) hdue
  · exact absurd hlive hdue

omit [LawfulCrc] in
theorem copy_run_of_erased (hin : l.Inside c.cells.size) (hlive : c.failFrom = none) {e : Entry}
    (hd : decode l.geometry (l.bytes c.cells a) offset = .ok (some e)) {target : Nat}
    (hfit : target + (e.next - offset) ≤ l.areaSize)
    (herased : Erased (l.bytes c.cells a.other) target (target + (e.next - offset))) :
    ∃ c', (copy l a offset a.other target).run.run c = (.ok (target + (e.next - offset)), c') ∧
      c'.cells = Chip.overwriteCells c.cells ((l.info a.other).address + target)
        ((l.bytes c.cells a).extract offset e.next) ∧ c'.failFrom = c.failFrom := by
  have hnext := decode_next hd
  have hsize : ((l.bytes c.cells a).extract offset e.next).size = e.next - offset := by
    simp only [ByteArray.size_extract]; omega
  obtain ⟨j, err, c', -, -, hcut, hrun, hcells, hff⟩ := copy_run hin (Area.other_ne a) hd hfit
  -- no fault is set, so every piece is copied
  have hj : j = e.next - offset := hcut.resolve_right fun h => h.2 hlive
  subst hj
  refine ⟨c', by rw [hrun, if_pos rfl], ?_, hff⟩
  rw [hcells, show offset + (e.next - offset) = e.next by omega]
  exact programCells_of_erased hin (by rw [hsize]; exact hfit) (by rw [hsize]; exact herased)

/-! ### The round trip -/

/-- What the chip `c'` shows after a record was written at `offset` of area `a` of `c`. -/
structure Written (l : Layout) (c : Chip) (a : Area) (offset : Nat) (type flags : UInt8)
    (data : ByteArray) (c' : Chip) : Prop where
  -- the record's image (header with little-endian length and checksum, payload, erased padding)
  -- replaced those bytes and nothing else
  cells : c'.cells = Chip.overwriteCells c.cells ((l.info a).address + offset)
    (ByteArray.mk (type :: flags :: le16 data.size.toUInt16 ++
        le32 (Crc.crc32 (Crc.crc32 0xFFFFFFFF
          (ByteArray.mk (type :: flags :: le16 data.size.toUInt16).toArray)) data)).toArray ++
      data ++ ByteArray.mk (Array.replicate (l.recordSize data.size - headerSize - data.size) 0xFF))
  reads : ((readAt l a offset none).run c').1.outcome =
    .ok (some ⟨offset, if flags &&& deleteFlag ≠ 0 then .deleted type else .live type data.size,
      offset + l.recordSize data.size⟩)
  fills : ∀ buffer : ByteArray, data.size ≤ buffer.size →
    ((readAt l a offset (some buffer.size)).run c').1.outcome = ((readAt l a offset none).run c').1.outcome ∧
      overwriteFront buffer ((readAt l a offset (some buffer.size)).run c').1.delivered =
        data ++ buffer.extract data.size buffer.size
  refuses : ∀ buffer : ByteArray, buffer.size < data.size →
    ((readAt l a offset (some buffer.size)).run c').1.outcome = .error (.buffTooSmall data.size) ∧
      overwriteFront buffer ((readAt l a offset (some buffer.size)).run c').1.delivered = buffer
  copies : ∀ target, target + l.recordSize data.size ≤ l.areaSize →
    Erased (l.bytes c'.cells a.other) target (target + l.recordSize data.size) →
    ∃ c'', (copy l a offset a.other target).run.run c' = (.ok (target + l.recordSize data.size), c'') ∧
      c''.cells = Chip.overwriteCells c'.cells ((l.info a.other).address + target)
        ((l.bytes c'.cells a).extract offset (offset + l.recordSize data.size)) ∧
      ((readAt l a.other target none).run c'').1.outcome =
        .ok (some ⟨target, if flags &&& deleteFlag ≠ 0 then .deleted type else .live type data.size,
          target + l.recordSize data.size⟩)

/-- A record written where its area is erased reads back as written. -/
theorem record_round_trip (hl : l.Valid) (hin : l.Inside c.cells.size) (hlive : c.failFrom = none)
    (a : Area) (offset : Nat) (type flags : UInt8) (data : ByteArray) (htype : type < masterType)
    (hlen : data.size ≤ 0xFFFF) (hfit : offset + l.recordSize data.size ≤ l.areaSize)
    (herased : Erased (l.bytes c.cells a) offset (offset + l.recordSize data.size)) :
    (∃ c', (write l a offset type flags data).run.run c = (.ok (offset + l.recordSize data.size), c') ∧
        Written l c a offset type flags data c') ∧
      ∀ version : UInt16, Erased (l.bytes c.cells a) 0 l.masterSize →
        ∃ c', (writeMaster l a version).run.run c = (.ok l.masterSize, c') ∧
          ((readMaster l a).run.run c').1 = .ok (some version) := by
  refine ⟨?_, fun version hm => writeMaster_readMaster hl hin hlive a version hm⟩
  obtain ⟨c', hrun, hcells, hff⟩ := write_run_of_erased hin hlive htype hlen hfit herased
  have hsize : (image l.geometry type flags data).size = l.recordSize data.size := size_image _ _ _ _
  have hin' : l.Inside c'.cells.size := by
    rw [hcells, Chip.size_overwriteCells _ _ _ (by
      have := Layout.info_address_add_le hin a; rw [hsize]; omega)]
    exact hin
  have hlive' : c'.failFrom = none := hff.trans hlive
  -- the area now holds the record's image at the offset
  have himage : (l.bytes c'.cells a).extract offset (offset + l.recordSize data.size) =
      image l.geometry type flags data := by
    rw [hcells, Layout.bytes_overwriteCells_self hin a (by rw [hsize]; exact hfit), ← hsize]
    exact Log.extract_overwrite_self (by rw [Layout.size_bytes hin, hsize]; exact hfit)
  have hread := readAt_image hl hin' hlive' himage hfit htype hlen
  refine ⟨c', hrun, ⟨hcells, ?_, fun buffer hbig => ?_, fun buffer hsmall => ?_, fun target ht he => ?_⟩⟩
  · rw [hread none]
    rfl
  · have hany : (some buffer.size).any (· < data.size) = false := by simpa using hbig
    rw [hread, hread, hany, if_neg Bool.false_ne_true]
    exact ⟨rfl, Store.overwriteFront_eq_append buffer data⟩
  · have hany : (some buffer.size).any (· < data.size) = true := by simpa using hsmall
    rw [hread, if_pos hany]
    exact ⟨rfl, Store.overwriteFront_empty buffer⟩
  · -- the copy moves the record's bytes, which read as the same record at the target
    have hd : decode l.geometry (l.bytes c'.cells a) offset =
        .ok (some ⟨offset, (Header.ofPayload type flags data).record data,
          offset + l.recordSize data.size⟩) :=
      decode_image himage (by rw [Layout.size_bytes hin']; exact hfit)
        (by intro h; rw [h] at htype; exact absurd htype (by decide))
        (fun h => absurd (h ▸ htype) (by decide)) hlen
    have hnext : offset + l.recordSize data.size - offset = l.recordSize data.size := by omega
    obtain ⟨c'', hcopy, hcells', hff'⟩ :=
      copy_run_of_erased hin' hlive' hd (by rw [hnext]; exact ht) (by rw [hnext]; exact he)
    dsimp only at hcopy hcells'
    rw [hnext] at hcopy
    refine ⟨c'', hcopy, hcells', ?_⟩
    have himage' : (l.bytes c''.cells a.other).extract target (target + l.recordSize data.size) =
        image l.geometry type flags data := by
      have hfitB : target + ((l.bytes c'.cells a).extract offset
          (offset + l.recordSize data.size)).size ≤ l.areaSize := by
        rw [himage, hsize]; exact ht
      rw [hcells', Layout.bytes_overwriteCells_self hin' a.other hfitB, himage, ← hsize]
      exact Log.extract_overwrite_self (by rw [Layout.size_bytes hin', hsize]; exact ht)
    have hin'' : l.Inside c''.cells.size := by
      rw [hcells', Chip.size_overwriteCells _ _ _ (by
        have := Layout.info_address_add_le hin' a.other
        rw [himage, hsize]; omega)]
      exact hin'
    rw [readAt_image hl hin'' (hff'.trans hlive') himage' ht htype hlen none]
    rfl

omit [Crc] [LawfulCrc] in
theorem erased_bytes_of_erased (l : Layout) (n : Nat) (a : Area) (start stop : Nat) :
    Erased (l.bytes (Chip.erased n).cells a) start stop := by
  intro i hi _ _
  unfold Layout.bytes at hi ⊢
  rw [ByteArray.getElem_extract]
  exact getElem_replicate_erased _

end NorStore.Record

namespace NorStore.Record

open Generation

/-- A one-byte record written after the master record of an erased chip. -/
theorem erased_chip_record_round_trip :
    Layout.Valid ⟨⟨1, 1, 64⟩, 0, 64⟩ ∧ Layout.Inside ⟨⟨1, 1, 64⟩, 0, 64⟩ (Chip.erased 128).cells.size ∧
      (Chip.erased 128).failFrom = none ∧ (0 : UInt8) < masterType ∧
      (ByteArray.mk #[0xAA]).size ≤ 0xFFFF ∧
      12 + Layout.recordSize ⟨⟨1, 1, 64⟩, 0, 64⟩ (ByteArray.mk #[0xAA]).size ≤ 64 ∧
      Erased (Layout.bytes ⟨⟨1, 1, 64⟩, 0, 64⟩ (Chip.erased 128).cells .first) 12
        (12 + Layout.recordSize ⟨⟨1, 1, 64⟩, 0, 64⟩ (ByteArray.mk #[0xAA]).size) ∧
      (∃ c', (write ⟨⟨1, 1, 64⟩, 0, 64⟩ .first 12 0 0 (ByteArray.mk #[0xAA])).run.run (Chip.erased 128) =
          (.ok (12 + Layout.recordSize ⟨⟨1, 1, 64⟩, 0, 64⟩ (ByteArray.mk #[0xAA]).size), c') ∧
          Written ⟨⟨1, 1, 64⟩, 0, 64⟩ (Chip.erased 128) .first 12 0 0 (ByteArray.mk #[0xAA]) c') ∧
      ∀ version : UInt16,
        Erased (Layout.bytes ⟨⟨1, 1, 64⟩, 0, 64⟩ (Chip.erased 128).cells .first) 0
          (Layout.masterSize ⟨⟨1, 1, 64⟩, 0, 64⟩) →
        ∃ c', (writeMaster ⟨⟨1, 1, 64⟩, 0, 64⟩ .first version).run.run (Chip.erased 128) =
          (.ok (Layout.masterSize ⟨⟨1, 1, 64⟩, 0, 64⟩), c') ∧
          ((readMaster ⟨⟨1, 1, 64⟩, 0, 64⟩ .first).run.run c').1 = .ok (some version) := by
  have hl : Layout.Valid ⟨⟨1, 1, 64⟩, 0, 64⟩ :=
    Layout.valid_of_create (show Layout.create ⟨1, 1, 64⟩ 0 128 = .ok ⟨⟨1, 1, 64⟩, 0, 64⟩ from rfl)
  have hin : Layout.Inside ⟨⟨1, 1, 64⟩, 0, 64⟩ (Chip.erased 128).cells.size :=
    Nat.le_of_eq (size_replicate_erased 128).symm
  have hfit : 12 + Layout.recordSize ⟨⟨1, 1, 64⟩, 0, 64⟩ (ByteArray.mk #[0xAA]).size ≤ 64 := by decide
  have herased := erased_bytes_of_erased ⟨⟨1, 1, 64⟩, 0, 64⟩ 128 .first 12
    (12 + Layout.recordSize ⟨⟨1, 1, 64⟩, 0, 64⟩ (ByteArray.mk #[0xAA]).size)
  exact ⟨hl, hin, rfl, by decide, by decide, hfit, herased,
    record_round_trip hl hin rfl .first 12 0 0 (ByteArray.mk #[0xAA]) (by decide) (by decide) hfit herased⟩

end NorStore.Record
