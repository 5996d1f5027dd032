import NorStore.Record.Access
import NorStore.Proofs.Access
import NorStore.Proofs.Alignment
import NorStore.Proofs.RecordCodec

/-! # Reading records off a chip

`Record.readAt` reads a header window and then the rest of the payload in pieces widened to
whole read units. `Record.fetch` says in one function what it answers when the chip performs
every access: the checks of `decode` on the area's bytes, with the buffer check between the
header and the payload, and the whole payload delivered. `readAt_run` proves that a read keeps
the cells, and answers `fetch` unless a fault is set and it failed with a read error. The widened
reads never leave the record, which is where the alignment facts of a valid layout come in.
-/

namespace NorStore

/-! ### Pieces -/

theorem pieces_of_lt {start stop : Nat} (h : start < stop) :
    pieces start stop = (start, min (stop - start) scratchSize) ::
      pieces (start + min (stop - start) scratchSize) stop := by
  rw [pieces, if_pos h]

theorem pieces_of_le {start stop : Nat} (h : stop ≤ start) : pieces start stop = [] := by
  rw [pieces, if_neg (by omega)]

theorem mod_of_mem_pieces {start stop p n : Nat} (h : (p, n) ∈ pieces start stop)
    (hs : start % scratchSize = 0) : p % scratchSize = 0 := by
  fun_induction pieces start stop with
  | case1 start hlt m ih =>
    simp only [List.mem_cons, Prod.mk.injEq] at h
    rcases h with ⟨rfl, rfl⟩ | h
    · exact hs
    · by_cases hn : stop - start < scratchSize
      · -- a short piece is the last one
        have hend : start + m = stop := by simp only [m, scratchSize] at *; omega
        rw [hend, pieces_of_le (Nat.le_refl _)] at h
        simp at h
      · exact ih h (by simp only [m, scratchSize] at *; omega)
  | case2 => simp at h

/-- The bytes `[offset + p, offset + p + n)` of each piece `(p, n)`, appended to `acc`. -/
def gather (A : ByteArray) (offset : Nat) (ps : List (Nat × Nat)) (acc : ByteArray) : ByteArray :=
  ps.foldl (fun acc p => acc ++ A.extract (offset + p.1) (offset + p.1 + p.2)) acc

theorem gather_pieces (A : ByteArray) (offset : Nat) {start stop : Nat} (h : start ≤ stop)
    (acc : ByteArray) :
    gather A offset (pieces start stop) acc = acc ++ A.extract (offset + start) (offset + stop) := by
  fun_induction pieces start stop generalizing acc with
  | case1 start hlt m ih =>
    simp only [gather, List.foldl_cons] at ih ⊢
    rw [ih (by simp only [m, scratchSize]; omega), ByteArray.append_assoc, ← Nat.add_assoc offset,
      ByteArray.extract_append_extract, Nat.min_eq_left (by omega), Nat.max_eq_right (by omega)]
  | case2 start hge =>
    have hs : start = stop := by omega
    subst hs
    simp [gather, ByteArray.extract_same]

/-! ### Reading pieces -/

namespace Record

variable {l : Layout} {c : Chip}

theorem readPieces_run_cons (a : Area) (offset p n : Nat) (rest : List (Nat × Nat))
    (acc : ByteArray) (c : Chip) :
    (readPieces l a offset ((p, n) :: rest) acc : StateM Chip _).run c =
      match (l.read a (offset + p) (l.geometry.readLength n) : FlashM Chip ByteArray).run.run c with
      | (.error e, c') => ((some e, acc), c')
      | (.ok bytes, c') => (readPieces l a offset rest (acc ++ bytes.extract 0 n)).run c' := by
  simp only [readPieces, StateT.run_bind]
  rcases (l.read a (offset + p) (l.geometry.readLength n) : FlashM Chip ByteArray).run.run c
    with ⟨_ | _, c'⟩ <;> rfl

theorem readPieces_run (a : Area) (offset : Nat) :
    ∀ (ps : List (Nat × Nat)) (acc : ByteArray) (c : Chip), l.Inside c.cells.size →
      (∀ p ∈ ps, offset + p.1 + l.geometry.readLength p.2 ≤ l.areaSize ∧
        p.2 ≤ l.geometry.readLength p.2) →
      Chip.Keeps c ((readPieces l a offset ps acc).run c).2 ∧
        (((readPieces l a offset ps acc).run c).1 = (none, gather (l.bytes c.cells a) offset ps acc) ∨
          (c.failFrom ≠ none ∧ ((readPieces l a offset ps acc).run c).1.1 = some .readError))
  | [], acc, c, _, _ => ⟨Chip.Keeps.refl c, .inl rfl⟩
  | (p, n) :: rest, acc, c, h, hps => by
    obtain ⟨hb, hn⟩ := hps (p, n) List.mem_cons_self
    dsimp only at hb hn
    rw [readPieces_run_cons, Layout.read_run h a hb]
    by_cases hlive : c.Live
    · rw [if_pos hlive]
      obtain ⟨hk, hr⟩ := readPieces_run a offset rest
        (acc ++ ((l.bytes c.cells a).extract (offset + p) (offset + p + l.geometry.readLength n)).extract 0 n)
        { c with reads := c.reads + 1 } h (fun q hq => hps q (List.mem_cons_of_mem _ hq))
      refine ⟨(Chip.keeps_read c).trans hk, ?_⟩
      rcases hr with hr | hr
      · left
        rw [hr]
        -- the widened read, cut back to the piece, is the piece
        simp only [gather, List.foldl_cons, ByteArray.extract_extract, Nat.add_zero]
        rw [Nat.min_eq_left (by omega)]
      · exact .inr hr
    · rw [if_neg hlive]
      exact ⟨Chip.Keeps.refl c, .inr ⟨Chip.failFrom_ne_none_of_not_live hlive, rfl⟩⟩

/-! ### The header window -/

/-- The checks `readWindow` makes on the window it read at `offset`. -/
def inspect (l : Layout) (offset : Nat) (bytes : ByteArray) :
    Except Error (Option (Header × ByteArray)) :=
  if IsErasedHeader bytes then .ok none
  else match Header.ofBytes? (bytes.extract 0 headerSize).toList with
    | none => .ok none
    | some h =>
      if h.Admissible l.geometry l.areaSize offset then .ok (some (h, bytes)) else .error .dataCorrupt

/-- The length of the header window at `offset`. -/
def windowLength (l : Layout) (offset : Nat) : Nat := min (l.areaSize - offset) window

theorem readWindow_run (h : l.Inside c.cells.size) (a : Area) (offset : Nat) :
    (readWindow l a offset : FlashM Chip _).run.run c =
      if windowLength l offset < headerSize then (.ok none, c)
      else if c.Live then
        (inspect l offset ((l.bytes c.cells a).extract offset (offset + windowLength l offset)),
          { c with reads := c.reads + 1 })
      else (.error .readError, c) := by
  unfold readWindow
  rw [← windowLength]
  dsimp only
  by_cases hw : windowLength l offset < headerSize
  · rw [if_pos hw, if_pos hw]
    rfl
  · rw [if_neg hw, if_neg hw, FlashM.run_bind,
      Layout.read_run h a (by simp only [windowLength, window, headerSize] at hw ⊢; omega)]
    by_cases hlive : c.Live
    · rw [if_pos hlive, if_pos hlive]
      generalize (l.bytes c.cells a).extract offset (offset + windowLength l offset) = bytes
      simp only [inspect]
      by_cases he : IsErasedHeader bytes
      · rw [if_pos he, if_pos he]
        rfl
      · rw [if_neg he, if_neg he]
        cases hb : Header.ofBytes? (bytes.extract 0 headerSize).toList with
        | none => rfl
        | some hd =>
          simp only
          by_cases hadm : hd.Admissible l.geometry l.areaSize offset
          · rw [if_pos hadm, if_pos hadm]
            rfl
          · rw [if_neg hadm, if_neg hadm]
            rfl
    · rw [if_neg hlive, if_neg hlive]

theorem inspect_eq_ok_some {offset : Nat} {bytes bytes' : ByteArray} {h : Header}
    (hi : inspect l offset bytes = .ok (some (h, bytes'))) :
    bytes' = bytes ∧ h.Admissible l.geometry l.areaSize offset := by
  unfold inspect at hi
  split at hi
  · cases hi
  · split at hi
    · cases hi
    · split at hi
      · cases hi
        exact ⟨rfl, by assumption⟩
      · cases hi

theorem bound_of_mem_pieces (hl : l.Valid) {offset : Nat} {h : Header}
    (hadm : h.Admissible l.geometry l.areaSize offset) {p n : Nat}
    (hmem : (p, n) ∈ pieces (min (windowLength l offset) (headerSize + h.payloadSize))
      (headerSize + h.payloadSize)) :
    offset + p + l.geometry.readLength n ≤ l.areaSize ∧ n ≤ l.geometry.readLength n := by
  obtain ⟨hn0, -, hpos, hstop⟩ := bounds_of_mem_pieces hmem
  have hfit := hadm.2.2
  have hsize := headerSize_add_le_size l.geometry h.payloadSize
  have hR := hl.supported.readSize_pos
  have hlen : windowLength l offset = min (l.areaSize - offset) 64 := rfl
  -- a payload longer than the window means the window was a full 64 bytes
  have hwin : min (windowLength l offset) (headerSize + h.payloadSize) = 64 := by omega
  have hp : p % scratchSize = 0 := mod_of_mem_pieces hmem (by rw [hwin]; rfl)
  have hRp : l.geometry.readSize ∣ p :=
    Nat.dvd_trans hl.supported.readSize_dvd_sixtyFour (Nat.dvd_of_mod_eq_zero hp)
  obtain ⟨k, hk⟩ := hRp
  have hwiden : p + l.geometry.readLength n = alignUp (p + n) l.geometry.readSize := by
    rw [Geometry.readLength, hk, Nat.mul_comm, alignUp_mul_add _ _ _ hR]
  have hle : alignUp (p + n) l.geometry.readSize ≤ Record.size l.geometry h.payloadSize :=
    calc alignUp (p + n) l.geometry.readSize
        ≤ alignUp (headerSize + h.payloadSize) l.geometry.readSize := alignUp_mono hstop
      _ ≤ alignUp (headerSize + h.payloadSize) l.geometry.recordAlignment :=
        alignUp_le_alignUp_of_dvd hl.supported.readSize_dvd hR l.geometry.recordAlignment_pos
  exact ⟨by omega, le_alignUp n _ hR⟩

theorem gather_payload {A : ByteArray} {offset w total : Nat} (hw : headerSize ≤ w)
    (htotal : headerSize ≤ total) :
    gather A offset (pieces (min w total) total)
        ((A.extract offset (offset + w)).extract headerSize (min w total)) =
      A.extract (offset + headerSize) (offset + total) := by
  rw [gather_pieces A offset (Nat.min_le_right w total), ByteArray.extract_extract,
    show min (offset + min w total) (offset + w) = offset + min w total by omega,
    ByteArray.extract_append_extract]
  congr 1 <;> omega

theorem isErasedHeader_iff_extract (B : ByteArray) :
    IsErasedHeader B ↔ IsErasedHeader (B.extract 0 headerSize) := by
  unfold IsErasedHeader
  simp only [ByteArray.extract_extract, Nat.zero_add, Nat.min_self]

variable {A : ByteArray} {offset : Nat}

theorem window_header (hroom : ¬ windowLength l offset < headerSize) :
    (A.extract offset (offset + windowLength l offset)).extract 0 headerSize =
      A.extract offset (offset + headerSize) := by
  rw [ByteArray.extract_extract, Nat.add_zero, Nat.min_eq_left (by omega)]

theorem window_isErasedHeader_iff (hroom : ¬ windowLength l offset < headerSize) :
    IsErasedHeader (A.extract offset (offset + windowLength l offset)) ↔
      IsErasedHeader (A.extract offset (offset + headerSize)) := by
  rw [isErasedHeader_iff_extract, window_header hroom]

theorem windowLength_lt_iff : windowLength l offset < headerSize ↔ l.areaSize - offset < headerSize := by
  simp only [windowLength, window, headerSize]
  omega

theorem payloadSize_of_record_live {h : Header} {payload : ByteArray} {type : UInt8} {length : Nat}
    (hlive : h.record payload = .live type length) : h.payloadSize = length := by
  simp only [Header.record] at hlive
  split at hlive
  · cases hlive
  · split at hlive
    · cases hlive
    · cases hlive
      rfl

/-! ### Reading a record -/

variable [Crc]

/-- What `readAt` answers on a chip that performs every access, for area bytes `A`. -/
def fetch (l : Layout) (A : ByteArray) (offset : Nat) (capacity : Option Nat) : Fetch :=
  if windowLength l offset < headerSize then ⟨.ok none, .empty⟩
  else match inspect l offset (A.extract offset (offset + windowLength l offset)) with
    | .error e => ⟨.error e, .empty⟩
    | .ok none => ⟨.ok none, .empty⟩
    | .ok (some (h, _)) =>
      if capacity.any (· < h.payloadSize) then ⟨.error (.buffTooSmall h.payloadSize), .empty⟩
      else
        let payload := A.extract (offset + headerSize) (offset + headerSize + h.payloadSize)
        if h.Matches payload then
          ⟨.ok (some ⟨offset, h.record payload, offset + l.recordSize h.payloadSize⟩), payload⟩
        else ⟨.error .dataCorrupt, payload⟩

theorem fetch_outcome_none (hA : A.size = l.areaSize) :
    (fetch l A offset none).outcome = decode l.geometry A offset := by
  unfold fetch decode
  by_cases hw : windowLength l offset < headerSize
  · rw [if_pos hw, if_pos (by rw [hA]; exact windowLength_lt_iff.mp hw)]
  · rw [if_neg hw, if_neg (by rw [hA]; exact mt windowLength_lt_iff.mpr hw)]
    dsimp only
    unfold inspect
    by_cases he : IsErasedHeader (A.extract offset (offset + headerSize))
    · rw [if_pos ((window_isErasedHeader_iff hw).mpr he), if_pos he]
    · rw [if_neg (mt (window_isErasedHeader_iff hw).mp he), if_neg he, window_header hw, hA]
      cases hb : Header.ofBytes? (A.extract offset (offset + headerSize)).toList with
      | none => rfl
      | some h =>
        dsimp only
        by_cases hadm : h.Admissible l.geometry l.areaSize offset
        · rw [if_pos hadm, if_pos hadm]
          dsimp only
          by_cases hm : h.Matches
              (A.extract (offset + headerSize) (offset + headerSize + h.payloadSize))
          · rw [if_pos hm, if_pos hm]
            rfl
          · rw [if_neg hm, if_neg hm]
            rfl
        · rw [if_neg hadm, if_neg hadm]

theorem inspect_window_of_decode (hA : A.size = l.areaSize) {e : Entry}
    (hd : decode l.geometry A offset = .ok (some e)) :
    ∃ h : Header, ¬ windowLength l offset < headerSize ∧
      inspect l offset (A.extract offset (offset + windowLength l offset)) =
        .ok (some (h, A.extract offset (offset + windowLength l offset))) ∧
      h.Matches (A.extract (offset + headerSize) (offset + headerSize + h.payloadSize)) ∧
      e = ⟨offset, h.record (A.extract (offset + headerSize) (offset + headerSize + h.payloadSize)),
        offset + l.recordSize h.payloadSize⟩ := by
  obtain ⟨h, hroom, he, hb, hadm, hm, rfl⟩ := decode_eq_ok_some hd
  have hw : ¬ windowLength l offset < headerSize := by
    rw [windowLength_lt_iff, ← hA]; omega
  rw [hA] at hadm
  refine ⟨h, hw, ?_, hm, rfl⟩
  unfold inspect
  rw [if_neg (mt (window_isErasedHeader_iff hw).mp he), window_header hw, hb]
  dsimp only
  rw [if_pos hadm]

theorem fetch_of_live (hA : A.size = l.areaSize) {e : Entry} {type : UInt8} {length : Nat}
    (hd : decode l.geometry A offset = .ok (some e)) (hlive : e.record = .live type length)
    (capacity : Option Nat) :
    fetch l A offset capacity =
      if capacity.any (· < length) then ⟨.error (.buffTooSmall length), .empty⟩
      else ⟨.ok (some e), A.extract (offset + headerSize) (offset + headerSize + length)⟩ := by
  obtain ⟨h, hw, hi, hm, rfl⟩ := inspect_window_of_decode hA hd
  obtain rfl := payloadSize_of_record_live hlive
  unfold fetch
  rw [if_neg hw, hi]
  dsimp only
  split <;> rfl

variable [LawfulCrc]

theorem feedPieces_pieces (payload : ByteArray) (init : UInt32) {start stop : Nat}
    (hs : headerSize ≤ start) (h : start ≤ stop) :
    feedPieces payload (Crc.crc32 init (payload.extract 0 (start - headerSize))) (pieces start stop) =
      Crc.crc32 init (payload.extract 0 (stop - headerSize)) := by
  fun_induction pieces start stop with
  | case1 start hlt m ih =>
    -- the piece continues the checksum where the part before it ended
    have hjoin : payload.extract 0 (start - headerSize) ++
        payload.extract (start - headerSize) (start - headerSize + m) =
          payload.extract 0 (start + m - headerSize) := by
      rw [ByteArray.extract_append_extract, Nat.min_eq_left (Nat.zero_le _),
        Nat.max_eq_right (by omega)]
      congr 1
      omega
    rw [feedPieces, LawfulCrc.crc32_append, hjoin]
    exact ih (by omega) (by simp only [m, scratchSize]; omega)
  | case2 start hge =>
    have hs : start = stop := by omega
    subst hs
    rfl

theorem readAt_run (hl : l.Valid) (h : l.Inside c.cells.size) (a : Area) (offset : Nat)
    (capacity : Option Nat) :
    Chip.Keeps c ((readAt l a offset capacity).run c).2 ∧
      (((readAt l a offset capacity).run c).1 = fetch l (l.bytes c.cells a) offset capacity ∨
        (c.failFrom ≠ none ∧ ((readAt l a offset capacity).run c).1.outcome = .error .readError)) := by
  have hA := Layout.size_bytes h a
  unfold readAt fetch
  rw [StateM.run_bind, readWindow_run h a offset]
  by_cases hw : windowLength l offset < headerSize
  · rw [if_pos hw, if_pos hw]
    exact ⟨Chip.Keeps.refl c, .inl rfl⟩
  · rw [if_neg hw, if_neg hw]
    by_cases hlive : c.Live
    · rw [if_pos hlive]
      generalize hwin : inspect l offset
        ((l.bytes c.cells a).extract offset (offset + windowLength l offset)) = r
      rcases r with e | _ | ⟨hd, bytes⟩
      · exact ⟨Chip.keeps_read c, .inl rfl⟩
      · exact ⟨Chip.keeps_read c, .inl rfl⟩
      · obtain ⟨rfl, hadm⟩ := inspect_eq_ok_some hwin
        simp only
        by_cases hcap : capacity.any (· < hd.payloadSize)
        · rw [if_pos hcap, if_pos hcap]
          exact ⟨Chip.keeps_read c, .inl rfl⟩
        · rw [if_neg hcap, if_neg hcap]
          have hwlen : windowLength l offset ≤ l.areaSize - offset := Nat.min_le_left _ _
          have hbsize : ((l.bytes c.cells a).extract offset (offset + windowLength l offset)).size =
              windowLength l offset := by
            simp only [ByteArray.size_extract, hA]; omega
          rw [hbsize]
          obtain ⟨hk, hr⟩ := readPieces_run a offset
            (pieces (min (windowLength l offset) (headerSize + hd.payloadSize))
              (headerSize + hd.payloadSize))
            (((l.bytes c.cells a).extract offset (offset + windowLength l offset)).extract headerSize
              (min (windowLength l offset) (headerSize + hd.payloadSize)))
            { c with reads := c.reads + 1 } h (fun q hq => bound_of_mem_pieces hl hadm hq)
          rw [StateM.run_bind]
          generalize (readPieces l a offset _ _).run { c with reads := c.reads + 1 } = q at hk hr ⊢
          obtain ⟨⟨failure, payload⟩, c''⟩ := q
          dsimp only at hk hr ⊢
          rcases hr with hr | ⟨hf, hr⟩
          · -- every piece arrived: the payload is the record's bytes after its header
            obtain ⟨rfl, rfl⟩ := Prod.mk.inj hr
            rw [gather_payload (by omega) (by simp only [headerSize]; omega), Nat.add_assoc]
            -- the checksum streamed over the pieces is the checksum of the whole payload
            have hpay : ((l.bytes c.cells a).extract (offset + headerSize)
                (offset + (headerSize + hd.payloadSize))).size = headerSize + hd.payloadSize - headerSize := by
              simp only [ByteArray.size_extract, hA]
              have := hadm.2.2
              have := headerSize_add_le_size l.geometry hd.payloadSize
              omega
            rw [feedPieces_pieces _ _ (by omega) (Nat.min_le_right _ _), ← hpay,
              ByteArray.extract_zero_size]
            by_cases hm : hd.Matches ((l.bytes c.cells a).extract (offset + headerSize)
              (offset + (headerSize + hd.payloadSize)))
            · rw [if_pos (show _ = hd.crc from hm), if_pos hm]
              exact ⟨(Chip.keeps_read c).trans hk, .inl rfl⟩
            · rw [if_neg (show ¬ _ = hd.crc from hm), if_neg hm]
              exact ⟨(Chip.keeps_read c).trans hk, .inl rfl⟩
          · subst hr
            exact ⟨(Chip.keeps_read c).trans hk, .inr ⟨hf, rfl⟩⟩
    · rw [if_neg hlive]
      exact ⟨Chip.Keeps.refl c, .inr ⟨Chip.failFrom_ne_none_of_not_live hlive, rfl⟩⟩

end Record

end NorStore
