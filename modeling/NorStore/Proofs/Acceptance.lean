import NorStore.Proofs.Fetch

/-! # What a read of a record accepts

`Record.readAt` reads the header window at an offset, checks the header, and streams the payload
in read-size pieces through its checksum. Whatever the pieces, the answer is fixed by the area's
bytes alone (`readAt_answers`): the end of the log where fewer than eight bytes remain or the
header is erased; the record, where the header opens one (`Opens`) and the stored checksum is that
of the first four header bytes and the whole payload (`Sealed`); a too short buffer where the
header opens a record longer than it, before any payload is read; and `dataCorrupt` for every
other content. A read error is possible only while a fault is set.
-/

namespace NorStore.Record

variable {l : Layout} {c : Chip} {A : ByteArray} {offset : Nat} {h : Header}

/-! ### The header's own bytes -/

theorem toNat_ofLe16 (b0 b1 : UInt8) : (ofLe16 b0 b1).toNat = b0.toNat + b1.toNat * 2 ^ 8 := by
  have h0 := b0.toNat_lt
  have h1 := b1.toNat_lt
  simp only [ofLe16, UInt16.toNat_or, UInt16.toNat_shiftLeft, UInt8.toNat_toUInt16,
    show (8 : UInt16).toNat % 16 = 8 from rfl, Nat.shiftLeft_eq]
  rw [Nat.mod_eq_of_lt (a := b1.toNat * 2 ^ 8) (by omega), or_mul_two_pow_eq_add (by omega)]

theorem le16_ofLe16 (b0 b1 : UInt8) : le16 (ofLe16 b0 b1) = [b0, b1] := by
  have h := toNat_ofLe16 b0 b1
  have h0 := b0.toNat_lt
  have h1 := b1.toNat_lt
  unfold le16
  simp only [List.cons.injEq, and_true]
  constructor
  · apply UInt8.toNat_inj.mp
    rw [UInt16.toNat_toUInt8, h]
    omega
  · apply UInt8.toNat_inj.mp
    rw [UInt16.toNat_toUInt8, UInt16.toNat_shiftRight, h]
    simp only [show (8 : UInt16).toNat % 16 = 8 from rfl, Nat.shiftRight_eq_div_pow]
    omega

theorem Header.exists_ofBytes {bs : List UInt8} (hlen : headerSize ≤ bs.length) :
    ∃ h, Header.ofBytes? bs = some h := by
  obtain _ | ⟨t, _ | ⟨f, _ | ⟨l0, _ | ⟨l1, _ | ⟨c0, _ | ⟨c1, _ | ⟨c2, _ | ⟨c3, rest⟩⟩⟩⟩⟩⟩⟩⟩ := bs
  all_goals simp only [headerSize, List.length_cons, List.length_nil] at hlen
  all_goals first | omega | exact ⟨_, rfl⟩

variable [Crc]

theorem Header.seed_of_ofBytes {B : ByteArray} (hb : Header.ofBytes? B.toList = some h) :
    Header.seed h.type h.flags h.length = Crc.crc32 0xFFFFFFFF (B.extract 0 4) := by
  unfold Header.ofBytes? at hb
  split at hb
  · rename_i t f l0 l1 c0 c1 c2 c3 rest hlist
    cases hb
    have hfirst : B.extract 0 4 = ByteArray.mk #[t, f, l0, l1] := by
      apply ByteArray.ext
      apply Array.toList_inj.mp
      rw [ByteArray.data_extract, Array.toList_extract, ← ByteArray.toList_eq_data_toList, hlist]
      rfl
    simp only [Header.seed, hfirst, le16_ofLe16]
    rfl
  · cases hb

omit [Crc] in
theorem Header.not_isErasedHeader {B : ByteArray} (hb : Header.ofBytes? B.toList = some h)
    (ht : h.type ≠ noType) : ¬ IsErasedHeader B := by
  unfold Header.ofBytes? at hb
  split at hb
  · rename_i t f l0 l1 c0 c1 c2 c3 rest hlist
    cases hb
    unfold IsErasedHeader
    rw [ByteArray.toList_eq_data_toList, ByteArray.data_extract, Array.toList_extract,
      ← ByteArray.toList_eq_data_toList, hlist]
    intro hall
    simp [headerSize] at hall
    exact ht hall.1
  · cases hb

/-! ### The checks, in the terms of the format -/

/-- The payload of the record whose header `h` is at `offset`. -/
def payloadAt (A : ByteArray) (offset : Nat) (h : Header) : ByteArray :=
  A.extract (offset + headerSize) (offset + headerSize + h.payloadSize)

/-- The eight bytes at `offset` are a header `h` that passes the checks made before the payload. -/
structure Opens (g : Geometry) (A : ByteArray) (offset : Nat) (h : Header) : Prop where
  header : Header.ofBytes? (A.extract offset (offset + headerSize)).toList = some h
  typed : h.type ≠ noType
  master : h.type = masterType → h.payloadSize = masterPayloadSize
  fits : offset + size g h.payloadSize ≤ A.size

/-- The stored checksum is the CRC of the first four header bytes and the payload. -/
def Sealed (A : ByteArray) (offset : Nat) (h : Header) : Prop :=
  Crc.crc32 (Crc.crc32 0xFFFFFFFF (A.extract offset (offset + 4))) (payloadAt A offset h) =
    h.crc

/-- What reading the record at `offset` of an area whose bytes are `A` answers, case by case. -/
structure Answers (g : Geometry) (A : ByteArray) (offset : Nat) (capacity : Option Nat)
    (r : Except Error (Option Entry)) : Prop where
  blank : r = .ok none ↔
    A.size - offset < headerSize ∨ IsErasedHeader (A.extract offset (offset + headerSize))
  entry : ∀ e, r = .ok (some e) ↔ ∃ h, Opens g A offset h ∧ Sealed A offset h ∧
    capacity.all (h.payloadSize ≤ ·) ∧ e.offset = offset ∧ e.next = offset + size g h.payloadSize ∧
    e.record = if h.type = masterType then
        .master (ofLe16 (payloadAt A offset h)[0]! (payloadAt A offset h)[1]!)
      else if h.flags &&& deleteFlag ≠ 0 then .deleted h.type
      else .live h.type h.payloadSize
  short : ∀ n, r = .error (.buffTooSmall n) ↔ ∃ h, Opens g A offset h ∧
    capacity.any (· < h.payloadSize) ∧ n = h.payloadSize
  corrupt : r = .ok none ∨ (∃ e, r = .ok (some e)) ∨ (∃ n, r = .error (.buffTooSmall n)) ∨
    r = .error .dataCorrupt

namespace Opens

variable {g : Geometry}

omit [Crc] in
theorem room (ho : Opens g A offset h) : headerSize ≤ A.size - offset := by
  have := headerSize_add_le_size g h.payloadSize
  have := ho.fits
  omega

omit [Crc] in
theorem not_blank (ho : Opens g A offset h) :
    ¬ (A.size - offset < headerSize ∨ IsErasedHeader (A.extract offset (offset + headerSize))) := by
  rintro (hshort | herased)
  · exact absurd ho.room (by omega)
  · exact Header.not_isErasedHeader ho.header ho.typed herased

omit [Crc] in
theorem header_eq {h' : Header} (ho : Opens g A offset h) (ho' : Opens g A offset h') : h' = h :=
  Option.some.inj (ho'.header.symm.trans ho.header)

omit [Crc] in
theorem admissible (ho : Opens g A offset h) : h.Admissible g A.size offset :=
  ⟨ho.typed, ho.master, ho.fits⟩

end Opens

omit [Crc] in
theorem getElem!_eq_getD {B : ByteArray} {i : Nat} (hi : i < B.size) : B[i]! = B.data.getD i 0xFF := by
  rw [getElem!_pos B i hi]
  simp only [Array.getD, ByteArray.size_data, hi, dite_true]
  rfl

omit [Crc] in
theorem Opens.record_eq {g : Geometry} (ho : Opens g A offset h) :
    h.record (payloadAt A offset h) =
      if h.type = masterType then
        .master (ofLe16 (payloadAt A offset h)[0]! (payloadAt A offset h)[1]!)
      else if h.flags &&& deleteFlag ≠ 0 then .deleted h.type
      else .live h.type h.payloadSize := by
  unfold Header.record
  by_cases hm : h.type = masterType
  · -- a master record has four payload bytes, so its first two are there
    have hsize : (payloadAt A offset h).size = masterPayloadSize := by
      have := headerSize_add_le_size g h.payloadSize
      have := ho.fits
      unfold payloadAt
      rw [ByteArray.size_extract, ← ho.master hm]
      omega
    have h0 : 0 < (payloadAt A offset h).size := by simp only [hsize, masterPayloadSize]; omega
    have h1 : 1 < (payloadAt A offset h).size := by simp only [hsize, masterPayloadSize]; omega
    rw [if_pos hm, if_pos hm, getElem!_eq_getD h0, getElem!_eq_getD h1]
  · rw [if_neg hm, if_neg hm]
    simp [Header.isDeleted]

theorem sealed_iff_matches
    (hb : Header.ofBytes? (A.extract offset (offset + headerSize)).toList = some h) :
    Sealed A offset h ↔ h.Matches (payloadAt A offset h) := by
  have hfirst : (A.extract offset (offset + headerSize)).extract 0 4 = A.extract offset (offset + 4) := by
    rw [ByteArray.extract_extract, Nat.add_zero, Nat.min_eq_left (by simp only [headerSize]; omega)]
  unfold Sealed Header.Matches
  rw [Header.seed_of_ofBytes hb, hfirst]

/-! ### What a read on a live chip answers -/

theorem fetch_outcome_of_blank (hA : A.size = l.areaSize) (capacity : Option Nat)
    (hblank : A.size - offset < headerSize ∨ IsErasedHeader (A.extract offset (offset + headerSize))) :
    (fetch l A offset capacity).outcome = .ok none := by
  unfold fetch
  by_cases hw : windowLength l offset < headerSize
  · rw [if_pos hw]
  · rw [if_neg hw]
    have herased : IsErasedHeader (A.extract offset (offset + headerSize)) :=
      hblank.resolve_left (by rw [hA]; exact mt windowLength_lt_iff.mpr hw)
    unfold inspect
    rw [if_pos ((window_isErasedHeader_iff hw).mpr herased)]

theorem fetch_outcome_of_header (hA : A.size = l.areaSize) (capacity : Option Nat)
    (hroom : headerSize ≤ A.size - offset) (he : ¬ IsErasedHeader (A.extract offset (offset + headerSize)))
    (hb : Header.ofBytes? (A.extract offset (offset + headerSize)).toList = some h) :
    (fetch l A offset capacity).outcome =
      if h.Admissible l.geometry A.size offset then
        if capacity.any (· < h.payloadSize) then .error (.buffTooSmall h.payloadSize)
        else if h.Matches (payloadAt A offset h) then
          .ok (some ⟨offset, h.record (payloadAt A offset h), offset + l.recordSize h.payloadSize⟩)
        else .error .dataCorrupt
      else .error .dataCorrupt := by
  have hw : ¬ windowLength l offset < headerSize := by rw [windowLength_lt_iff, ← hA]; omega
  unfold fetch inspect
  rw [if_neg hw, if_neg (mt (window_isErasedHeader_iff hw).mp he), window_header hw, hb, hA]
  dsimp only
  by_cases hadm : h.Admissible l.geometry l.areaSize offset
  · rw [if_pos hadm, if_pos hadm]
    dsimp only
    by_cases hcap : capacity.any (· < h.payloadSize) = true
    · rw [if_pos hcap, if_pos hcap]
    · rw [if_neg hcap, if_neg hcap]
      unfold payloadAt
      split <;> rfl
  · rw [if_neg hadm, if_neg hadm]

theorem fetch_answers (hA : A.size = l.areaSize) (capacity : Option Nat) :
    Answers l.geometry A offset capacity (fetch l A offset capacity).outcome := by
  by_cases hblank : A.size - offset < headerSize ∨ IsErasedHeader (A.extract offset (offset + headerSize))
  · -- the log ends here: no header opens a record
    rw [fetch_outcome_of_blank hA capacity hblank]
    refine ⟨iff_of_true rfl hblank, fun e => ?_, fun n => ?_, .inl rfl⟩
    · refine iff_of_false (by simp) ?_
      rintro ⟨h, ho, -⟩
      exact ho.not_blank hblank
    · refine iff_of_false (by simp) ?_
      rintro ⟨h, ho, -⟩
      exact ho.not_blank hblank
  obtain ⟨hshort, he⟩ := not_or.mp hblank
  have hroom : headerSize ≤ A.size - offset := by omega
  obtain ⟨h, hb⟩ := Header.exists_ofBytes
    (show headerSize ≤ (A.extract offset (offset + headerSize)).toList.length by
      simp only [ByteArray.toList_eq_data_toList, Array.length_toList, ByteArray.size_data,
        ByteArray.size_extract]; omega)
  have hseal := sealed_iff_matches hb
  rw [fetch_outcome_of_header hA capacity hroom he hb]
  by_cases hadm : h.Admissible l.geometry A.size offset
  · have ho : Opens l.geometry A offset h := ⟨hb, hadm.1, hadm.2.1, hadm.2.2⟩
    rw [if_pos hadm]
    by_cases hcap : capacity.any (· < h.payloadSize) = true
    · -- the buffer is refused before any payload is read
      rw [if_pos hcap]
      refine ⟨iff_of_false (by simp) hblank, fun e => iff_of_false (by simp) ?_, fun n => ?_,
        .inr (.inr (.inl ⟨_, rfl⟩))⟩
      · rintro ⟨h', ho', -, hall, -⟩
        rw [ho.header_eq ho'] at hall
        cases capacity with
        | none => simp at hcap
        | some n =>
          simp only [Option.any_some, Option.all_some, decide_eq_true_eq] at hcap hall
          omega
      · constructor
        · rintro ⟨⟩
          exact ⟨h, ho, hcap, rfl⟩
        · rintro ⟨h', ho', -, rfl⟩
          rw [ho.header_eq ho']
    · rw [if_neg hcap]
      have hall : capacity.all (h.payloadSize ≤ ·) = true := by
        cases capacity <;> simp_all
      have hnone : ∀ n, ¬ ∃ h', Opens l.geometry A offset h' ∧ capacity.any (· < h'.payloadSize) ∧
          n = h'.payloadSize := by
        rintro n ⟨h', ho', hcap', -⟩
        rw [ho.header_eq ho'] at hcap'
        exact hcap hcap'
      by_cases hm : h.Matches (payloadAt A offset h)
      · -- the record is intact
        rw [if_pos hm]
        refine ⟨iff_of_false (by simp) hblank, fun e => ⟨?_, ?_⟩,
          fun n => iff_of_false (by simp) (hnone n), .inr (.inl ⟨_, rfl⟩)⟩
        · rintro ⟨⟩
          exact ⟨h, ho, hseal.mpr hm, hall, rfl, rfl, ho.record_eq⟩
        · rintro ⟨h', ho', -, -, hoff, hnext, hrec⟩
          obtain rfl := ho.header_eq ho'
          obtain ⟨offset', record, next⟩ := e
          dsimp only at hoff hnext hrec
          rw [hoff, hnext, hrec, ← ho.record_eq]
          rfl
      · -- the checksum fails
        rw [if_neg hm]
        refine ⟨iff_of_false (by simp) hblank, fun e => iff_of_false (by simp) ?_,
          fun n => iff_of_false (by simp) (hnone n), .inr (.inr (.inr rfl))⟩
        rintro ⟨h', ho', hs', -⟩
        rw [ho.header_eq ho'] at hs'
        exact hm (hseal.mp hs')
  · -- the header cannot open a record here
    rw [if_neg hadm]
    have hno : ∀ h', ¬ Opens l.geometry A offset h' := by
      intro h' ho'
      obtain rfl := Option.some.inj (ho'.header.symm.trans hb)
      exact hadm ho'.admissible
    refine ⟨iff_of_false (by simp) hblank, fun e => iff_of_false (by simp) ?_,
      fun n => iff_of_false (by simp) ?_, .inr (.inr (.inr rfl))⟩
    · rintro ⟨h', ho', -⟩
      exact hno h' ho'
    · rintro ⟨h', ho', -⟩
      exact hno h' ho'

variable [LawfulCrc]

/-- A read of a record answers as the area's bytes say, failing only while a fault is set. -/
theorem readAt_answers (hl : l.Valid) (hin : l.Inside c.cells.size) (a : Area) (offset : Nat)
    (capacity : Option Nat) :
    Answers l.geometry (l.bytes c.cells a) offset capacity
        ((readAt l a offset capacity).run c).1.outcome ∨
      (c.failFrom ≠ none ∧ ((readAt l a offset capacity).run c).1.outcome = .error .readError) := by
  rcases (readAt_run hl hin a offset capacity).2 with hfetch | hfault
  · rw [hfetch]
    exact .inl (fetch_answers (Layout.size_bytes hin a) capacity)
  · exact .inr hfault

end NorStore.Record

namespace NorStore.Record

/-- Reading the first record of an erased chip into a one-byte buffer. -/
theorem erased_chip_readAt_answers :
    Layout.Valid ⟨⟨1, 1, 64⟩, 0, 64⟩ ∧ Layout.Inside ⟨⟨1, 1, 64⟩, 0, 64⟩ (Chip.erased 128).cells.size ∧
      (Answers (⟨1, 1, 64⟩ : Geometry) (Layout.bytes ⟨⟨1, 1, 64⟩, 0, 64⟩ (Chip.erased 128).cells .first) 0
          (some 1) ((readAt ⟨⟨1, 1, 64⟩, 0, 64⟩ .first 0 (some 1)).run (Chip.erased 128)).1.outcome ∨
        ((Chip.erased 128).failFrom ≠ none ∧
          ((readAt ⟨⟨1, 1, 64⟩, 0, 64⟩ .first 0 (some 1)).run (Chip.erased 128)).1.outcome =
            .error .readError)) := by
  have hl : Layout.Valid ⟨⟨1, 1, 64⟩, 0, 64⟩ :=
    Layout.valid_of_create (show Layout.create ⟨1, 1, 64⟩ 0 128 = .ok ⟨⟨1, 1, 64⟩, 0, 64⟩ from rfl)
  have hin : Layout.Inside ⟨⟨1, 1, 64⟩, 0, 64⟩ (Chip.erased 128).cells.size :=
    Nat.le_of_eq (size_replicate_erased 128).symm
  exact ⟨hl, hin, readAt_answers hl hin .first 0 (some 1)⟩

end NorStore.Record
