import NorStore.Proofs.Reads

/-! # A record cut short

A record is programmed in pieces of 64 bytes, so a power loss while the store appends one leaves
a prefix of the record's image where the log ended, a whole number of pieces long, and erased
flash after it. The first piece holds the whole header: a torn record has its type, flags,
length and checksum, and its payload is what was programmed of the value followed by erased
bytes (`Record.tornPayload`).

Reading the log back checks that payload against the checksum. When they disagree, the log ends
at the torn record as corrupt data and keeps every value it held (`Log.values_overwrite_torn`).
The checksum is all that tells a torn record from a whole one, so when the torn payload happens to
match it, the torn record is read as a whole record of its type with the torn payload. Either way
the master records are untouched and the active area stays what it was
(`Index.torn_contents`).
-/

namespace NorStore

open Record Generation

namespace Record

/-- The payload of the record of `data` once programming stopped `j` bytes into its image. -/
def tornPayload (data : ByteArray) (j : Nat) : ByteArray :=
  data.extract 0 (j - headerSize) ++ ByteArray.mk (Array.replicate (data.size - (j - headerSize)) 0xFF)

theorem size_tornPayload (data : ByteArray) (j : Nat) : (tornPayload data j).size = data.size := by
  simp only [tornPayload, ByteArray.size_append, ByteArray.size_extract, size_replicate_erased]
  omega

theorem getElem_tornPayload (data : ByteArray) (j : Nat) {k : Nat} (hk : k < data.size)
    (hk' : k < (tornPayload data j).size) :
    (tornPayload data j)[k] = if _ : k < j - headerSize then data[k] else 0xFF := by
  simp only [tornPayload]
  split
  · rename_i hw
    rw [ByteArray.getElem_append_left (by simp; omega), ByteArray.getElem_extract]
    simp
  · rename_i hw
    rw [ByteArray.getElem_append_right (by simp; omega), getElem_replicate_erased]

variable [Crc]

theorem getElem_image_payload {g : Geometry} {type flags : UInt8} {data : ByteArray} {k : Nat}
    (hk : k < data.size) (hk' : headerSize + k < (image g type flags data).size) :
    (image g type flags data)[headerSize + k] = data[k] := by
  have hh := Header.size_toBytes (Header.ofPayload type flags data)
  simp only [image]
  rw [ByteArray.getElem_append_left (by simp only [ByteArray.size_append]; omega),
    ByteArray.getElem_append_right (by omega)]
  simp only [hh, Nat.add_sub_cancel_left]

omit [Crc] in
theorem eq_zero_or_headerSize_le {j : Nat} (hcut : j % scratchSize = 0) :
    j = 0 ∨ headerSize ≤ j := by
  simp only [scratchSize, headerSize] at *
  omega

omit [Crc] in
theorem eq_zero_of_lt_size_empty {g : Geometry} (hg : g.Supported) {j : Nat}
    (hj : j < size g 0) (hcut : j % scratchSize = 0) : j = 0 := by
  have : size g 0 ≤ 64 := size_le_sixtyFour hg (by decide)
  simp only [scratchSize] at hcut
  omega

theorem Header.record_ofPayload_payload {type flags : UInt8} {data : ByteArray}
    (ht : type ≠ masterType) (payload : ByteArray) :
    (Header.ofPayload type flags data).record payload =
      (Header.ofPayload type flags data).record data := by
  have htype : (Header.ofPayload type flags data).type = type := rfl
  unfold Header.record
  rw [htype, if_neg ht, if_neg ht]

end Record

namespace Log

variable {g : Geometry}

variable [Crc]

theorem decode_of_header {A : ByteArray} {offset : Nat} {h : Header}
    (hhead : A.extract offset (offset + headerSize) = h.toBytes) (htype : h.type ≠ noType)
    (hadm : h.Admissible g A.size offset) :
    decode g A offset =
      if h.Matches (A.extract (offset + headerSize) (offset + headerSize + h.payloadSize)) then
        .ok (some ⟨offset, h.record (A.extract (offset + headerSize)
          (offset + headerSize + h.payloadSize)), offset + size g h.payloadSize⟩)
      else .error .dataCorrupt := by
  have hroom := headerSize_add_le_size g h.payloadSize
  have hend := hadm.2.2
  unfold decode
  rw [if_neg (by omega), hhead, if_neg (Header.not_isErasedHeader_toBytes htype),
    Header.ofBytes?_toBytes]
  simp only
  rw [if_pos hadm]

theorem chain_overwrite_after {A B : ByteArray} {offset free : Nat} {copied : List Entry}
    (hchain : chain g A offset = ⟨copied, none, free⟩) (hfit : free + B.size ≤ A.size) :
    chain g (Chip.overwriteCells A free B) offset =
      { chain g (Chip.overwriteCells A free B) free with
        entries := copied ++ (chain g (Chip.overwriteCells A free B) free).entries } := by
  have hstop : (chain g A offset).stop = none := by rw [hchain]
  have hfree : (chain g A offset).next = free := by rw [hchain]
  rw [chain_append g offset (size_overwrite hfit) hstop
    (by rw [hfree]; exact extract_overwrite_before hfit (Nat.le_refl _)), hfree, hchain]

theorem values_overwrite_record {A B : ByteArray} {offset free next : Nat} {es : List Entry}
    {type flags : UInt8} {data payload : ByteArray} (hchain : chain g A offset = ⟨es, none, free⟩)
    (hoff : offset ≤ A.size) (hfit : free + B.size ≤ A.size) (htype : type ≠ masterType)
    (hl : data.size ≤ 0xFFFF)
    (hpayload : (Chip.overwriteCells A free B).extract (free + headerSize)
      (free + headerSize + data.size) = payload) :
    values (Chip.overwriteCells A free B)
        (es ++ [⟨free, (Header.ofPayload type flags data).record payload, next⟩]) =
      Pending.apply ⟨type, flags, payload⟩ (values A es) := by
  funext t
  rw [values_concat, values_overwrite_after hchain hoff hfit,
    Header.record_ofPayload_payload htype, Header.record_ofPayload htype hl]
  unfold Pending.apply Pending.isDeletion
  dsimp only
  by_cases hdel : (flags &&& deleteFlag != 0) = true
  · rw [if_pos hdel, if_pos hdel]
  · rw [if_neg hdel, if_neg hdel]
    dsimp only
    rw [hpayload]

section Torn

variable {A : ByteArray} {free j : Nat} {type flags : UInt8} {data : ByteArray}

theorem size_extract_image (type flags : UInt8) (hj : j ≤ size g data.size) :
    ((image g type flags data).extract 0 j).size = j := by
  simp only [ByteArray.size_extract, size_image]
  omega

theorem extract_torn_header (hfit : free + size g data.size ≤ A.size) (hj : headerSize ≤ j)
    (hjs : j ≤ size g data.size) :
    (Chip.overwriteCells A free ((image g type flags data).extract 0 j)).extract free
      (free + headerSize) = (Header.ofPayload type flags data).toBytes := by
  have hB := size_extract_image type flags hjs
  have hself : (Chip.overwriteCells A free ((image g type flags data).extract 0 j)).extract free
      (free + ((image g type flags data).extract 0 j).size) =
      (image g type flags data).extract 0 j := extract_overwrite_self (by rw [hB]; omega)
  have key := congrArg (fun X => X.extract 0 headerSize) hself
  simp only [ByteArray.extract_extract, hB, Nat.add_zero, Nat.zero_add] at key
  rw [Nat.min_eq_left (by omega), Nat.min_eq_left hj] at key
  rw [key, extract_image_header]

theorem extract_torn_payload (hfit : free + size g data.size ≤ A.size) (hblank : Blank A free)
    (hj : headerSize ≤ j) (hjs : j ≤ size g data.size) :
    (Chip.overwriteCells A free ((image g type flags data).extract 0 j)).extract
      (free + headerSize) (free + headerSize + data.size) = tornPayload data j := by
  have hB := size_extract_image type flags hjs
  have hroom := headerSize_add_le_size g data.size
  have hfitB : free + ((image g type flags data).extract 0 j).size ≤ A.size := by rw [hB]; omega
  have hsize := size_overwrite hfitB
  apply ByteArray.ext_getElem
  · simp only [ByteArray.size_extract, hsize, size_tornPayload]
    omega
  · intro k hk hk'
    simp only [ByteArray.size_extract, hsize] at hk
    rw [ByteArray.getElem_extract, Chip.getElem_overwriteCells hfitB _ (by omega),
      getElem_tornPayload data j (by omega)]
    -- a payload byte was programmed exactly when it lies before the cut
    by_cases hw : k < j - headerSize
    · rw [dif_pos (by omega), dif_pos hw, ByteArray.getElem_extract]
      have hidx : 0 + (free + headerSize + k - free) = headerSize + k := by omega
      simp only [hidx]
      exact getElem_image_payload (by omega) (by rw [size_image]; omega)
    · rw [dif_neg (by omega), dif_neg hw]
      exact hblank _ _ (by omega) (by omega)

theorem values_overwrite_torn {offset : Nat} {es : List Entry}
    (hchain : chain g A offset = ⟨es, none, free⟩) (hoff : offset ≤ A.size) (hblank : Blank A free)
    (hfit : free + size g data.size ≤ A.size) (htype : type < masterType) (hl : data.size ≤ 0xFFFF)
    (hj : j < size g data.size) (hcut : j % scratchSize = 0) :
    values (Chip.overwriteCells A free ((image g type flags data).extract 0 j))
        (chain g (Chip.overwriteCells A free ((image g type flags data).extract 0 j)) offset).entries =
      values A es ∨
    (0 < j ∧ (Header.ofPayload type flags data).Matches (tornPayload data j) ∧
      values (Chip.overwriteCells A free ((image g type flags data).extract 0 j))
          (chain g (Chip.overwriteCells A free ((image g type flags data).extract 0 j)) offset).entries =
        Pending.apply ⟨type, flags, tornPayload data j⟩ (values A es)) := by
  have hB := size_extract_image type flags (Nat.le_of_lt hj)
  have hfitB : free + ((image g type flags data).extract 0 j).size ≤ A.size := by rw [hB]; omega
  have hne : type ≠ masterType := by
    intro h; rw [h] at htype; exact absurd htype (by decide)
  have hnoType : type ≠ noType := by
    intro h; rw [h] at htype; exact absurd htype (by decide)
  rw [chain_overwrite_after hchain hfitB]
  -- where the log stops at the cut, its values are those before
  have hstop : (chain g (Chip.overwriteCells A free ((image g type flags data).extract 0 j))
      free).entries = [] →
      values (Chip.overwriteCells A free ((image g type flags data).extract 0 j))
        (es ++ (chain g (Chip.overwriteCells A free ((image g type flags data).extract 0 j))
          free).entries) = values A es := by
    intro hnil
    rw [hnil, List.append_nil]
    exact values_overwrite_after hchain hoff hfitB
  rcases eq_zero_or_headerSize_le hcut with rfl | hhead
  · -- nothing was programmed: the log still ends at erased flash
    have herased : Erased (Chip.overwriteCells A free ((image g type flags data).extract 0 0)) free
        (free + headerSize) :=
      ((blank_overwrite hfitB hblank).erased (free + headerSize)).mono (by omega) (Nat.le_refl _)
    exact .inl (hstop (by rw [chain_of_none (decode_of_erased herased)]))
  · -- the header was programmed: the torn payload decides
    have hsize := size_overwrite hfitB
    have hpay : (Header.ofPayload type flags data).payloadSize = data.size :=
      Header.payloadSize_ofPayload hl
    have hadm : (Header.ofPayload type flags data).Admissible g
        (Chip.overwriteCells A free ((image g type flags data).extract 0 j)).size free :=
      ⟨hnoType, fun h => absurd h hne, by rw [hpay, hsize]; exact hfit⟩
    have hd := decode_of_header (extract_torn_header hfit hhead (Nat.le_of_lt hj)) hnoType hadm
    rw [hpay, extract_torn_payload hfit hblank hhead (Nat.le_of_lt hj)] at hd
    by_cases hmatch : (Header.ofPayload type flags data).Matches (tornPayload data j)
    · rw [if_pos hmatch] at hd
      right
      refine ⟨Nat.lt_of_lt_of_le (by decide) hhead, hmatch, ?_⟩
      -- the torn record is read whole, and the flash after it is erased
      have hblank' : Blank (Chip.overwriteCells A free ((image g type flags data).extract 0 j))
          (free + size g data.size) := by
        have := blank_overwrite hfitB hblank
        rw [hB] at this
        exact fun k hk h1 h2 => this k hk (by omega) h2
      have hmaster : ∀ v, (Header.ofPayload type flags data).record (tornPayload data j) ≠
          .master v := by
        intro v
        rw [Header.record_ofPayload_payload hne, Header.record_ofPayload hne hl]
        split <;> simp
      rw [chain_of_data hd hmaster, chain_of_blank hblank']
      exact values_overwrite_record hchain hoff hfitB hne hl
        (extract_torn_payload hfit hblank hhead (Nat.le_of_lt hj))
    · rw [if_neg hmatch] at hd
      exact .inl (hstop (by rw [chain_of_error hd]))

end Torn

end Log

namespace Index

variable {l : Layout} {count : Nat} {c c' : Chip} {i : Index} {p : Pending} {j : Nat}

variable [Crc]

theorem torn_contents (hl : l.Valid) (h : l.Inside c.cells.size) (hi : Coherent l count c.cells i)
    (hfit : i.free + l.recordSize p.data.size ≤ l.areaSize) (htype : p.type < masterType)
    (hlen : p.data.size ≤ 0xFFFF) (hj : j < l.recordSize p.data.size)
    (hcut : j % scratchSize = 0)
    (hbytes : l.bytes c'.cells i.area = Chip.overwriteCells (l.bytes c.cells i.area) i.free
      ((image l.geometry p.type p.flags p.data).extract 0 j))
    (hother : l.bytes c'.cells i.area.other = l.bytes c.cells i.area.other) :
    activeOf l c'.cells = activeOf l c.cells ∧
      (l.contents c'.cells = l.contents c.cells ∨
        (0 < j ∧ (Header.ofPayload p.type p.flags p.data).Matches (tornPayload p.data j) ∧
          l.contents c'.cells =
            Pending.apply ⟨p.type, p.flags, tornPayload p.data j⟩ (l.contents c.cells))) := by
  have hA := Layout.size_bytes h i.area
  obtain ⟨hafter, -⟩ := hi.free_bounds hl h
  have hB := Log.size_extract_image p.type p.flags (Nat.le_of_lt hj)
  have hactive : activeOf l c'.cells = activeOf l c.cells :=
    activeOf_overwrite hbytes hother (by rw [hB, hA]; simp only [Layout.recordSize] at *; omega)
      hafter
  refine ⟨hactive, ?_⟩
  have hact' : activeOf l c'.cells = some (i.area, i.version) := hactive.trans hi.active
  rw [Layout.contents_of_active hact', Layout.contents_of_active hi.active]
  unfold Layout.valueIn Layout.logOf
  rw [hbytes]
  have hchain : Log.chain l.geometry (l.bytes c.cells i.area) l.masterSize =
      ⟨(l.logOf c.cells i.area).entries, none, i.free⟩ := hi.log
  exact Log.values_overwrite_torn hchain (by rw [hA]; exact hl.masterSize_le_areaSize) hi.blank
    (by rw [hA]; exact hfit) htype hlen hj hcut

end Index

end NorStore
