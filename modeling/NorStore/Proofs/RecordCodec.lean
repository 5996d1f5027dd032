import Mathlib.Algebra.Group.Nat.Defs
import NorStore.Record.Format
import NorStore.Proofs.Cells

/-! # Decoding record images

The header fields are little-endian, and reading them back gives the numbers written
(`ofLe16_le16`, `ofLe32_le32`), so a header survives its eight bytes (`Header.ofBytes?_toBytes`).
From this, `decode_image`: where an area holds the image of a record, `decode` finds exactly that
record and the offset after it. `decode_congr` says what `decode` depends on: the area's size and
the record's own bytes, so a record stays valid whatever is written outside it.
-/

namespace NorStore.Record

/-! ### Little-endian fields -/

theorem or_mul_two_pow_eq_add {a b k : Nat} (ha : a < 2 ^ k) : a ||| b * 2 ^ k = a + b * 2 ^ k := by
  rw [Nat.or_comm, Nat.mul_comm, ← Nat.two_pow_add_eq_or_of_lt ha]
  omega

theorem ofLe16_le16 (x : UInt16) : ofLe16 x.toUInt8 (x >>> 8).toUInt8 = x := by
  apply UInt16.toNat_inj.mp
  have hx := x.toNat_lt
  simp only [ofLe16, UInt16.toNat_or, UInt16.toNat_shiftLeft, UInt8.toNat_toUInt16,
    UInt16.toNat_toUInt8, UInt16.toNat_shiftRight]
  simp only [show (8 : UInt16).toNat % 16 = 8 from rfl, Nat.shiftRight_eq_div_pow,
    Nat.shiftLeft_eq]
  rw [Nat.mod_eq_of_lt (a := x.toNat / 2 ^ 8 % 2 ^ 8 * 2 ^ 8) (by omega),
    or_mul_two_pow_eq_add (by omega)]
  omega

theorem ofLe32_le32 (x : UInt32) :
    ofLe32 x.toUInt8 (x >>> 8).toUInt8 (x >>> 16).toUInt8 (x >>> 24).toUInt8 = x := by
  apply UInt32.toNat_inj.mp
  have hx := x.toNat_lt
  simp only [ofLe32, UInt32.toNat_or, UInt32.toNat_shiftLeft, UInt8.toNat_toUInt32,
    UInt32.toNat_toUInt8, UInt32.toNat_shiftRight]
  simp only [show (8 : UInt32).toNat % 32 = 8 from rfl, show (16 : UInt32).toNat % 32 = 16 from rfl,
    show (24 : UInt32).toNat % 32 = 24 from rfl, Nat.shiftRight_eq_div_pow, Nat.shiftLeft_eq]
  -- the three shifted bytes do not overflow, and each `|||` adds disjoint bits
  rw [Nat.mod_eq_of_lt (a := x.toNat / 2 ^ 8 % 2 ^ 8 * 2 ^ 8) (by omega),
    Nat.mod_eq_of_lt (a := x.toNat / 2 ^ 16 % 2 ^ 8 * 2 ^ 16) (by omega),
    Nat.mod_eq_of_lt (a := x.toNat / 2 ^ 24 % 2 ^ 8 * 2 ^ 24) (by omega),
    or_mul_two_pow_eq_add (a := x.toNat % 2 ^ 8) (by omega), or_mul_two_pow_eq_add (k := 16) (by omega),
    or_mul_two_pow_eq_add (k := 24) (by omega)]
  omega

/-! ### Headers -/

namespace Header

theorem toList_toBytes (h : Header) :
    h.toBytes.toList = [h.type, h.flags, h.length.toUInt8, (h.length >>> 8).toUInt8,
      h.crc.toUInt8, (h.crc >>> 8).toUInt8, (h.crc >>> 16).toUInt8, (h.crc >>> 24).toUInt8] := by
  rw [ByteArray.toList_eq_data_toList]
  rfl

@[simp] theorem ofBytes?_toBytes (h : Header) : ofBytes? h.toBytes.toList = some h := by
  rw [toList_toBytes, ofBytes?, ofLe16_le16, ofLe32_le32]

theorem not_isErasedHeader_toBytes {h : Header} (ht : h.type ≠ noType) :
    ¬ IsErasedHeader h.toBytes := by
  have hsize := size_toBytes h
  unfold IsErasedHeader
  rw [show headerSize = h.toBytes.size from hsize.symm, ByteArray.extract_zero_size,
    toList_toBytes]
  intro hall
  simp only [List.all_cons, Bool.and_eq_true, beq_iff_eq] at hall
  exact ht hall.1

variable {type flags : UInt8} {data : ByteArray}

variable [Crc]

theorem payloadSize_ofPayload (hl : data.size ≤ 0xFFFF) :
    (ofPayload type flags data).payloadSize = data.size := by
  simp only [payloadSize, ofPayload, Nat.toUInt16_eq]
  exact Nat.mod_eq_of_lt (by omega)

theorem matches_ofPayload : (ofPayload type flags data).Matches data := rfl

theorem record_ofPayload (ht : type ≠ masterType) (hl : data.size ≤ 0xFFFF) :
    (ofPayload type flags data).record data =
      if flags &&& deleteFlag != 0 then .deleted type else .live type data.size := by
  have hdel : (ofPayload type flags data).isDeleted = (flags &&& deleteFlag != 0) := rfl
  have htype : (ofPayload type flags data).type = type := rfl
  unfold record
  rw [htype, if_neg ht, hdel, payloadSize_ofPayload hl]

theorem record_master (version : UInt16) :
    (ofPayload masterType 0 (masterPayload version)).record (masterPayload version) =
      .master version := by
  simp only [record, ofPayload, if_true]
  congr 1
  exact ofLe16_le16 version

end Header

/-! ### Images -/

variable {g : Geometry} {type flags : UInt8} {data : ByteArray}

variable [Crc]

theorem extract_image_header :
    (image g type flags data).extract 0 headerSize = (Header.ofPayload type flags data).toBytes := by
  rw [image, ByteArray.append_assoc]
  exact ByteArray.extract_append_eq_left (Header.size_toBytes _).symm

theorem extract_image_payload :
    (image g type flags data).extract headerSize (headerSize + data.size) = data := by
  have hshift := ByteArray.extract_append_size_add' (a := (Header.ofPayload type flags data).toBytes)
    (b := data ++ ByteArray.mk (Array.replicate (size g data.size - headerSize - data.size) 0xFF))
    (i := 0) (j := data.size) (Header.size_toBytes _).symm
  rw [Nat.add_zero] at hshift
  rw [image, ByteArray.append_assoc, hshift]
  exact ByteArray.extract_append_eq_left rfl

/-! ### Decoding -/

theorem decode_congr_extract {A A' : ByteArray} {offset : Nat} (hsize : A'.size = A.size)
    (hhead : A'.extract offset (offset + headerSize) = A.extract offset (offset + headerSize))
    (hpay : ∀ h : Header, Header.ofBytes? (A.extract offset (offset + headerSize)).toList = some h →
      h.Admissible g A.size offset →
      A'.extract (offset + headerSize) (offset + headerSize + h.payloadSize) =
        A.extract (offset + headerSize) (offset + headerSize + h.payloadSize)) :
    decode g A' offset = decode g A offset := by
  unfold decode
  dsimp only
  rw [hsize, hhead]
  split
  · rfl
  · split
    · rfl
    · cases hb : Header.ofBytes? (A.extract offset (offset + headerSize)).toList with
      | none => rfl
      | some h =>
        simp only
        split
        · rename_i hadm
          rw [hpay h hb hadm]
        · rfl

theorem decode_eq_ok_some {A : ByteArray} {offset : Nat} {e : Entry}
    (hd : decode g A offset = .ok (some e)) :
    ∃ h : Header, headerSize ≤ A.size - offset ∧ ¬ IsErasedHeader (A.extract offset (offset + headerSize)) ∧
      Header.ofBytes? (A.extract offset (offset + headerSize)).toList = some h ∧
      h.Admissible g A.size offset ∧
      h.Matches (A.extract (offset + headerSize) (offset + headerSize + h.payloadSize)) ∧
      e = ⟨offset, h.record (A.extract (offset + headerSize) (offset + headerSize + h.payloadSize)),
        offset + size g h.payloadSize⟩ := by
  unfold decode at hd
  dsimp only at hd
  split at hd
  · cases hd
  · rename_i hroom
    split at hd
    · cases hd
    · rename_i herased
      split at hd
      · cases hd
      · rename_i h hb
        split at hd
        · rename_i hadm
          split at hd
          · rename_i hmatch
            cases hd
            exact ⟨h, by omega, herased, hb, hadm, hmatch, rfl⟩
          · cases hd
        · cases hd

theorem decode_next {A : ByteArray} {offset : Nat} {e : Entry}
    (hd : decode g A offset = .ok (some e)) :
    e.offset = offset ∧ offset + headerSize ≤ e.next ∧ e.next ≤ A.size := by
  obtain ⟨h, -, -, -, ⟨-, -, hfit⟩, -, rfl⟩ := decode_eq_ok_some hd
  have := headerSize_add_le_size g h.payloadSize
  exact ⟨rfl, by dsimp only; omega, hfit⟩

theorem decode_congr {A A' : ByteArray} {offset : Nat} {e : Entry} (hsize : A'.size = A.size)
    (hd : decode g A offset = .ok (some e))
    (hagree : A'.extract offset e.next = A.extract offset e.next) :
    decode g A' offset = .ok (some e) := by
  obtain ⟨h, -, -, hb, ⟨-, -, hfit⟩, -, he⟩ := decode_eq_ok_some hd
  have hnext : e.next = offset + size g h.payloadSize := by rw [he]
  have hroom := headerSize_add_le_size g h.payloadSize
  -- both reads of `decode` are ranges inside `[offset, e.next)`
  have hsub : ∀ x y, offset ≤ x → x ≤ y → y ≤ e.next → A'.extract x y = A.extract x y := by
    intro x y hx hxy hy
    have h1 := congrArg (fun B => B.extract (x - offset) (y - offset)) hagree
    simp only [ByteArray.extract_extract] at h1
    rwa [show offset + (x - offset) = x by omega,
      show min (offset + (y - offset)) e.next = y by omega] at h1
  rw [← hd]
  apply decode_congr_extract hsize (hsub _ _ (Nat.le_refl _) (by omega) (by omega))
  intro h' hb' _
  rw [hb] at hb'
  cases hb'
  exact hsub _ _ (by omega) (by omega) (by omega)

theorem decode_shift {A B : ByteArray} {offset offset' : Nat} {e : Entry}
    (hd : decode g A offset = .ok (some e))
    (hcopy : B.extract offset' (offset' + (e.next - offset)) = A.extract offset e.next)
    (hfit : offset' + (e.next - offset) ≤ B.size) :
    decode g B offset' = .ok (some ⟨offset', e.record, offset' + (e.next - offset)⟩) := by
  obtain ⟨h, hroom, herased, hb, ⟨htype, hmaster, hend⟩, hm, rfl⟩ := decode_eq_ok_some hd
  dsimp only at hcopy hfit ⊢
  have hroom' := headerSize_add_le_size g h.payloadSize
  rw [Nat.add_sub_cancel_left] at hcopy hfit ⊢
  -- the copy's ranges are the original's, shifted
  have hsub : ∀ x y, x ≤ y → y ≤ size g h.payloadSize →
      B.extract (offset' + x) (offset' + y) = A.extract (offset + x) (offset + y) := by
    intro x y _ hy
    have h1 := congrArg (fun C => C.extract x y) hcopy
    simp only [ByteArray.extract_extract] at h1
    rwa [Nat.min_eq_left (by omega), Nat.min_eq_left (by omega)] at h1
  have hhead := hsub 0 headerSize (by omega) (by omega)
  have hpay := hsub headerSize (headerSize + h.payloadSize) (by omega) (by omega)
  rw [Nat.add_zero, Nat.add_zero] at hhead
  rw [← Nat.add_assoc, ← Nat.add_assoc] at hpay
  unfold decode
  rw [if_neg (by omega), hhead, if_neg herased, hb]
  simp only
  rw [if_pos ⟨htype, hmaster, hfit⟩, hpay, if_pos hm]

theorem decode_image {A : ByteArray} {offset : Nat}
    (himage : A.extract offset (offset + size g data.size) = image g type flags data)
    (hfit : offset + size g data.size ≤ A.size) (htype : type ≠ noType)
    (hmaster : type = masterType → data.size = masterPayloadSize) (hl : data.size ≤ 0xFFFF) :
    decode g A offset =
      .ok (some ⟨offset, (Header.ofPayload type flags data).record data,
        offset + size g data.size⟩) := by
  have hroom := headerSize_add_le_size g data.size
  have hpayload : (Header.ofPayload type flags data).payloadSize = data.size :=
    Header.payloadSize_ofPayload hl
  -- the header and the payload are the corresponding ranges of the image
  have hsub : ∀ x y, x ≤ y → y ≤ size g data.size →
      A.extract (offset + x) (offset + y) = (image g type flags data).extract x y := by
    intro x y _ hy
    rw [← himage, ByteArray.extract_extract, Nat.min_eq_left (by omega)]
  have hhead : A.extract offset (offset + headerSize) = (Header.ofPayload type flags data).toBytes := by
    rw [← extract_image_header, ← hsub 0 headerSize (by omega) (by omega), Nat.add_zero]
  have hdata : A.extract (offset + headerSize) (offset + headerSize + data.size) = data := by
    rw [Nat.add_assoc, hsub _ _ (by omega) (by omega), extract_image_payload]
  have herased := Header.not_isErasedHeader_toBytes (h := Header.ofPayload type flags data) htype
  have hadm : (Header.ofPayload type flags data).Admissible g A.size offset := by
    refine ⟨htype, fun hm => ?_, by rw [hpayload]; exact hfit⟩
    rw [hpayload]
    exact hmaster hm
  unfold decode
  rw [if_neg (by omega), hhead, if_neg herased, Header.ofBytes?_toBytes]
  simp only
  rw [if_pos hadm, hpayload, hdata, if_pos Header.matches_ofPayload]

theorem decode_of_erased {A : ByteArray} {offset : Nat}
    (he : Erased A offset (offset + headerSize)) : decode g A offset = .ok none := by
  unfold decode
  split
  · rfl
  · rename_i hroom
    have herased : IsErasedHeader (A.extract offset (offset + headerSize)) := by
      have hsize : (A.extract offset (offset + headerSize)).size = headerSize := by
        simp only [ByteArray.size_extract]; omega
      have hval : ∀ i (hi : i < (A.extract offset (offset + headerSize)).size),
          (A.extract offset (offset + headerSize))[i] = 0xFF := by
        intro i hi
        rw [hsize] at hi
        rw [ByteArray.getElem_extract]
        exact he (offset + i) _ (by omega) (by omega)
      generalize A.extract offset (offset + headerSize) = B at hval hsize ⊢
      unfold IsErasedHeader
      rw [← hsize, ByteArray.extract_zero_size, List.all_eq_true]
      intro b hb
      rw [ByteArray.toList_eq_data_toList, Array.mem_toList_iff, Array.mem_iff_getElem] at hb
      obtain ⟨i, hi, rfl⟩ := hb
      have hb := hval i hi
      rw [ByteArray.getElem_eq_getElem_data] at hb
      simp [hb]
    rw [if_pos herased]

end NorStore.Record
