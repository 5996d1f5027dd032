import NorStore.Proofs.Fetch

/-! # Programming and copying records on a chip

`Record.program` writes a record's image in 64-byte pieces, and `Record.copy` moves a record
piece by piece. A power loss can strike between two pieces, so the run lemmas here say what a
run leaves whatever the chip does: a prefix of the bytes, cut at a multiple of 64, is programmed,
and the run succeeds exactly when the prefix is the whole record. A record that fits one piece
(a master record, a deletion) is therefore written completely or not at all.
-/

namespace NorStore.Record

variable {l : Layout} {c : Chip}

/-- One step of programming the bytes `B` piece by piece at `offset` of area `a`. -/
def programPiece (l : Layout) (a : Area) (offset : Nat) (B : ByteArray) (x : Nat × Nat)
    (_ : PUnit) : FlashM Chip (ForInStep PUnit) := do
  l.write a (offset + x.1) (B.extract x.1 (x.1 + x.2))
  pure (ForInStep.yield PUnit.unit)

variable [Crc]

theorem program_eq (a : Area) (offset : Nat) (type flags : UInt8) (data : ByteArray) :
    (program l a offset type flags data : FlashM Chip Nat) =
      if offset + l.recordSize data.size > l.areaSize then throw .flashAreaTooSmall
      else
        forIn (pieces 0 (l.recordSize data.size)) PUnit.unit
            (programPiece l a offset (image l.geometry type flags data)) >>= fun _ =>
          pure (offset + l.recordSize data.size) := by
  unfold program
  rfl

omit [Crc] in
theorem programPiece_run (h : l.Inside c.cells.size) (a : Area) {offset : Nat} {B : ByteArray}
    {start n : Nat} (hB : start + n ≤ B.size) (hfit : offset + start + n ≤ l.areaSize) :
    (programPiece l a offset B (start, n) PUnit.unit).run.run c =
      if c.Live then
        (.ok (.yield PUnit.unit), { c with
          cells := Chip.programCells c.cells ((l.info a).address + offset + start)
            (B.extract start (start + n))
          writes := c.writes + 1 })
      else (.error .writeError, c) := by
  have hsize : (B.extract start (start + n)).size = n := by
    simp only [ByteArray.size_extract]; omega
  unfold programPiece
  rw [FlashM.run_bind, Layout.write_run h a (by rw [hsize]; omega)]
  by_cases hlive : c.Live
  · rw [if_pos hlive, if_pos hlive, Nat.add_assoc]
    rfl
  · rw [if_neg hlive, if_neg hlive]

omit [Crc] in
theorem forIn_programPiece_run (a : Area) (offset : Nat) (B : ByteArray) (start stop : Nat) :
    ∀ (c : Chip), l.Inside c.cells.size → start ≤ stop → stop ≤ B.size →
      offset + stop ≤ l.areaSize →
      ∃ j c', start ≤ j ∧ j ≤ stop ∧
        (j = stop ∨ ((j - start) % scratchSize = 0 ∧ c.failFrom ≠ none)) ∧
        (forIn (pieces start stop) PUnit.unit (programPiece l a offset B)).run.run c =
          (if j = stop then .ok PUnit.unit else .error .writeError, c') ∧
        c'.cells = Chip.programCells c.cells ((l.info a).address + offset + start)
          (B.extract start j) ∧
        c'.failFrom = c.failFrom := by
  fun_induction pieces start stop with
  | case1 start hlt n ih =>
    intro c h hle hB hfit
    have hn : n = min (stop - start) scratchSize := rfl
    rw [List.forIn_cons, FlashM.run_bind,
      programPiece_run h a (by simp only [scratchSize] at hn; omega)
        (by simp only [scratchSize] at hn; omega)]
    by_cases hlive : c.Live
    · rw [if_pos hlive]
      obtain ⟨j, c', h1, h2, h3, hrun, hcells, hff⟩ :=
        ih { c with
          cells := Chip.programCells c.cells ((l.info a).address + offset + start)
            (B.extract start (start + n))
          writes := c.writes + 1 }
          (by rw [Chip.size_programCells]; exact h) (by simp only [scratchSize] at hn; omega) hB hfit
      refine ⟨j, c', by omega, h2, ?_, hrun, ?_, hff⟩
      · rcases h3 with h3 | ⟨h3, hf⟩
        · exact .inl h3
        · -- a piece shorter than 64 bytes is the last one, so the cut follows a full piece
          by_cases hj : j = stop
          · exact .inl hj
          · have hfull : n = scratchSize := by simp only [scratchSize] at hn ⊢; omega
            refine .inr ⟨?_, hf⟩
            rw [show j - start = (j - (start + n)) + scratchSize by omega, Nat.add_mod_right]
            exact h3
      · -- the first piece and the rest of the prefix program the prefix
        have hsplit : B.extract start j = B.extract start (start + n) ++ B.extract (start + n) j := by
          rw [ByteArray.extract_append_extract, Nat.min_eq_left (by omega),
            Nat.max_eq_right (by omega)]
        have hsize : (B.extract start (start + n)).size = n := by
          simp only [ByteArray.size_extract]; omega
        rw [hcells, hsplit, Chip.programCells_append, hsize, Nat.add_assoc _ start n]
    · rw [if_neg hlive]
      refine ⟨start, c, Nat.le_refl _, hle,
        .inr ⟨by simp, Chip.failFrom_ne_none_of_not_live hlive⟩, ?_, ?_, rfl⟩
      · rw [if_neg (by omega)]
      · simp
  | case2 start hge =>
    intro c h hle hB hfit
    have hs : start = stop := by omega
    subst hs
    exact ⟨start, c, Nat.le_refl _, Nat.le_refl _, .inl rfl, by rw [if_pos rfl]; rfl, by simp, rfl⟩

theorem program_run (h : l.Inside c.cells.size) (a : Area) {offset : Nat} (type flags : UInt8)
    {data : ByteArray} (hfit : offset + l.recordSize data.size ≤ l.areaSize) :
    ∃ j c', j ≤ l.recordSize data.size ∧
      (j = l.recordSize data.size ∨ (j % scratchSize = 0 ∧ c.failFrom ≠ none)) ∧
      (program l a offset type flags data).run.run c =
        (if j = l.recordSize data.size then .ok (offset + l.recordSize data.size)
          else .error .writeError, c') ∧
      c'.cells = Chip.programCells c.cells ((l.info a).address + offset)
        ((image l.geometry type flags data).extract 0 j) ∧
      c'.failFrom = c.failFrom := by
  have hsize := size_image l.geometry type flags data
  obtain ⟨j, c', -, hj, hcut, hrun, hcells, hff⟩ :=
    forIn_programPiece_run (l := l) a offset (image l.geometry type flags data) 0
      (l.recordSize data.size) c h (Nat.zero_le _) (by rw [hsize]; exact Nat.le_refl _) hfit
  refine ⟨j, c', hj, by simpa using hcut, ?_, by simpa using hcells, hff⟩
  rw [program_eq, if_neg (by omega), FlashM.run_bind, hrun]
  by_cases hjs : j = l.recordSize data.size
  · rw [if_pos hjs, if_pos hjs]
    rfl
  · rw [if_neg hjs, if_neg hjs]

theorem program_run_of_gt (a : Area) {offset : Nat} {type flags : UInt8} {data : ByteArray}
    (hgt : offset + l.recordSize data.size > l.areaSize) :
    (program l a offset type flags data : FlashM Chip Nat).run.run c =
      (.error .flashAreaTooSmall, c) := by
  rw [program_eq, if_pos hgt]
  rfl

theorem write_eq (a : Area) (offset : Nat) (type flags : UInt8) (data : ByteArray) :
    (write l a offset type flags data : FlashM Chip Nat) =
      if type ≥ masterType ∨ data.size > 0xFFFF then throw .badValue
      else program l a offset type flags data := by
  unfold write
  split <;> rfl

theorem writeMaster_run (hl : l.Valid) (h : l.Inside c.cells.size) (a : Area) (version : UInt16) :
    ∃ c', c'.failFrom = c.failFrom ∧
      (((writeMaster l a version).run.run c = (.ok l.masterSize, c') ∧
          c'.cells = Chip.programCells c.cells (l.info a).address
            (image l.geometry masterType 0 (masterPayload version))) ∨
        ((writeMaster l a version).run.run c = (.error .writeError, c') ∧ c'.cells = c.cells ∧
          c.failFrom ≠ none)) := by
  have hsmall := Record.masterSize_le_sixtyFour hl.supported
  have hpay : (masterPayload version).size = masterPayloadSize := rfl
  obtain ⟨j, c', hj, hcut, hrun, hcells, hff⟩ := program_run h a masterType 0
    (show 0 + l.recordSize (masterPayload version).size ≤ l.areaSize by
      rw [Nat.zero_add, hpay]; exact hl.masterSize_le_areaSize)
  have hsize : l.recordSize (masterPayload version).size = l.masterSize := by rw [hpay]; rfl
  have hfull : (image l.geometry masterType 0 (masterPayload version)).extract 0
      (l.recordSize (masterPayload version).size) = image l.geometry masterType 0 (masterPayload version) := by
    rw [show l.recordSize (masterPayload version).size =
      (image l.geometry masterType 0 (masterPayload version)).size from (size_image _ _ _ _).symm,
      ByteArray.extract_zero_size]
  -- a cut inside one piece is at its start
  have hcut' : j = l.recordSize (masterPayload version).size ∨ (j = 0 ∧ c.failFrom ≠ none) := by
    rcases hcut with hcut | ⟨hmod, hf⟩
    · exact .inl hcut
    · by_cases hjs : j = l.recordSize (masterPayload version).size
      · exact .inl hjs
      · refine .inr ⟨?_, hf⟩
        simp only [scratchSize, Layout.masterSize] at hmod hsmall hsize hj; omega
  unfold writeMaster
  refine ⟨c', hff, ?_⟩
  rw [hrun]
  rcases hcut' with hjs | ⟨hj0, hf⟩
  · left
    rw [if_pos hjs, hcells, hjs, Nat.add_zero, Nat.zero_add, hfull, hsize]
    exact ⟨rfl, rfl⟩
  · right
    have hpos := headerSize_add_le_size l.geometry (masterPayload version).size
    rw [if_neg (by simp only [Layout.recordSize, headerSize] at hpos ⊢; omega), hcells, hj0,
      Nat.add_zero]
    exact ⟨rfl, by simp, hf⟩

/-! ### Copying -/

/-- One step of a copy: read a piece of `source`, then write it to `target`. -/
def copyPiece (l : Layout) (source : Area) (sourceOffset : Nat) (target : Area)
    (targetOffset : Nat) (x : Nat × Nat) (_ : PUnit) : FlashM Chip (ForInStep PUnit) := do
  let bytes ← l.read source (sourceOffset + x.1) x.2
  l.write target (targetOffset + x.1) bytes
  pure (ForInStep.yield PUnit.unit)

omit [Crc] in
theorem copy_eq (source : Area) (sourceOffset : Nat) (target : Area) (targetOffset : Nat) :
    (copy l source sourceOffset target targetOffset : FlashM Chip Nat) =
      readWindow l source sourceOffset >>= fun w =>
        match w with
        | some (h, _) =>
          if targetOffset + l.recordSize h.payloadSize > l.areaSize then throw .flashAreaTooSmall
          else
            forIn (pieces 0 (l.recordSize h.payloadSize)) PUnit.unit
                (copyPiece l source sourceOffset target targetOffset) >>= fun _ =>
              pure (targetOffset + l.recordSize h.payloadSize)
        | none => throw .dataCorrupt := by
  unfold copy
  congr 1
  funext w
  rcases w with _ | ⟨h, _⟩
  · rfl
  · dsimp only
    split
    · rfl
    · -- the loop body matches on the piece; copyPiece reads its two halves
      congr 2

variable {source target : Area} {sourceOffset targetOffset : Nat}

omit [Crc] in
theorem copyPiece_run (h : l.Inside c.cells.size) {start n : Nat}
    (hs : sourceOffset + start + n ≤ l.areaSize) (ht : targetOffset + start + n ≤ l.areaSize) :
    (copyPiece l source sourceOffset target targetOffset (start, n) PUnit.unit).run.run c =
      if c.Live then
        if ({ c with reads := c.reads + 1 } : Chip).Live then
          (.ok (.yield PUnit.unit), { c with
            reads := c.reads + 1
            cells := Chip.programCells c.cells ((l.info target).address + targetOffset + start)
              ((l.bytes c.cells source).extract (sourceOffset + start) (sourceOffset + start + n))
            writes := c.writes + 1 })
        else (.error .writeError, { c with reads := c.reads + 1 })
      else (.error .readError, c) := by
  unfold copyPiece
  rw [FlashM.run_bind, Layout.read_run h source (by omega)]
  by_cases hlive : c.Live
  · rw [if_pos hlive, if_pos hlive]
    dsimp only
    have hsize : ((l.bytes c.cells source).extract (sourceOffset + start)
        (sourceOffset + start + n)).size = n := by
      simp only [ByteArray.size_extract, Layout.size_bytes h]; omega
    rw [FlashM.run_bind,
      Layout.write_run (c := { c with reads := c.reads + 1 }) h target (by rw [hsize]; omega)]
    by_cases hlive' : ({ c with reads := c.reads + 1 } : Chip).Live
    · rw [if_pos hlive', if_pos hlive', Nat.add_assoc _ targetOffset start, Nat.add_assoc sourceOffset]
      rfl
    · rw [if_neg hlive', if_neg hlive']
  · rw [if_neg hlive, if_neg hlive]

omit [Crc] in
theorem forIn_copyPiece_run (hne : target ≠ source) (start stop : Nat) :
    ∀ (c : Chip), l.Inside c.cells.size → start ≤ stop → sourceOffset + stop ≤ l.areaSize →
      targetOffset + stop ≤ l.areaSize →
      ∃ j e c', start ≤ j ∧ j ≤ stop ∧ e.isFlashFault = true ∧
        (j = stop ∨ ((j - start) % scratchSize = 0 ∧ c.failFrom ≠ none)) ∧
        (forIn (pieces start stop) PUnit.unit
            (copyPiece l source sourceOffset target targetOffset)).run.run c =
          (if j = stop then .ok PUnit.unit else .error e, c') ∧
        c'.cells = Chip.programCells c.cells ((l.info target).address + targetOffset + start)
          ((l.bytes c.cells source).extract (sourceOffset + start) (sourceOffset + j)) ∧
        c'.failFrom = c.failFrom := by
  fun_induction pieces start stop with
  | case1 start hlt n ih =>
    intro c h hle hs ht
    have hn : n = min (stop - start) scratchSize := rfl
    rw [List.forIn_cons, FlashM.run_bind,
      copyPiece_run h (by simp only [scratchSize] at hn; omega) (by simp only [scratchSize] at hn; omega)]
    by_cases hlive : c.Live
    · rw [if_pos hlive]
      by_cases hlive' : ({ c with reads := c.reads + 1 } : Chip).Live
      · rw [if_pos hlive']
        have hin := Layout.info_address_add_le h target
        have hA := Layout.size_bytes h source
        -- writing the target leaves the source area as it was
        have hsrc : l.bytes (Chip.programCells c.cells ((l.info target).address + targetOffset + start)
            ((l.bytes c.cells source).extract (sourceOffset + start) (sourceOffset + start + n)))
            source = l.bytes c.cells source := by
          rw [Nat.add_assoc]
          exact Layout.bytes_programCells_other h hne.symm
            (by simp only [ByteArray.size_extract, hA, scratchSize] at hn ⊢; omega)
        obtain ⟨j, e, c', h1, h2, he, h3, hrun, hcells, hff⟩ :=
          ih { c with
            reads := c.reads + 1
            cells := Chip.programCells c.cells ((l.info target).address + targetOffset + start)
              ((l.bytes c.cells source).extract (sourceOffset + start) (sourceOffset + start + n))
            writes := c.writes + 1 }
            (by rw [Chip.size_programCells]; exact h) (by simp only [scratchSize] at hn; omega) hs ht
        refine ⟨j, e, c', by omega, h2, he, ?_, hrun, ?_, hff⟩
        · rcases h3 with h3 | ⟨h3, hf⟩
          · exact .inl h3
          · by_cases hj : j = stop
            · exact .inl hj
            · have hfull : n = scratchSize := by simp only [scratchSize] at hn ⊢; omega
              refine .inr ⟨?_, hf⟩
              rw [show j - start = (j - (start + n)) + scratchSize by omega, Nat.add_mod_right]
              exact h3
        · rw [hcells]
          dsimp only
          rw [hsrc]
          have hsplit : (l.bytes c.cells source).extract (sourceOffset + start) (sourceOffset + j) =
              (l.bytes c.cells source).extract (sourceOffset + start) (sourceOffset + start + n) ++
                (l.bytes c.cells source).extract (sourceOffset + (start + n)) (sourceOffset + j) := by
            rw [← Nat.add_assoc, ByteArray.extract_append_extract, Nat.min_eq_left (by omega),
              Nat.max_eq_right (by omega)]
          have hsize : ((l.bytes c.cells source).extract (sourceOffset + start)
              (sourceOffset + start + n)).size = n := by
            simp only [ByteArray.size_extract, hA]; simp only [scratchSize] at hn; omega
          rw [hsplit, Chip.programCells_append, hsize]
          simp only [Nat.add_assoc]
      · rw [if_neg hlive']
        refine ⟨start, .writeError, { c with reads := c.reads + 1 }, Nat.le_refl _, hle, rfl,
          .inr ⟨by simp, ?_⟩, ?_, ?_, rfl⟩
        · exact Chip.failFrom_ne_none_of_not_live (c := { c with reads := c.reads + 1 }) hlive'
        · rw [if_neg (by omega)]
        · simp
    · rw [if_neg hlive]
      refine ⟨start, .readError, c, Nat.le_refl _, hle, rfl,
        .inr ⟨by simp, Chip.failFrom_ne_none_of_not_live hlive⟩, ?_, ?_, rfl⟩
      · rw [if_neg (by omega)]
      · simp
  | case2 start hge =>
    intro c h hle hs ht
    have hs' : start = stop := by omega
    subst hs'
    exact ⟨start, .readError, c, Nat.le_refl _, Nat.le_refl _, rfl, .inl rfl,
      by rw [if_pos rfl]; rfl, by simp, rfl⟩

theorem copy_run (h : l.Inside c.cells.size) (hne : target ≠ source) {e : Entry}
    (hd : decode l.geometry (l.bytes c.cells source) sourceOffset = .ok (some e))
    (hfit : targetOffset + (e.next - sourceOffset) ≤ l.areaSize) :
    ∃ j err c', j ≤ e.next - sourceOffset ∧ err.isFlashFault = true ∧
      (j = e.next - sourceOffset ∨ (j % scratchSize = 0 ∧ c.failFrom ≠ none)) ∧
      (copy l source sourceOffset target targetOffset).run.run c =
        (if j = e.next - sourceOffset then .ok (targetOffset + (e.next - sourceOffset))
          else .error err, c') ∧
      c'.cells = Chip.programCells c.cells ((l.info target).address + targetOffset)
        ((l.bytes c.cells source).extract sourceOffset (sourceOffset + j)) ∧
      c'.failFrom = c.failFrom := by
  have hA := Layout.size_bytes h source
  obtain ⟨hd', hw, hi, -, rfl⟩ := inspect_window_of_decode hA hd
  have hnext := (decode_next hd).2.2
  simp only [hA] at hnext
  simp only [Nat.add_sub_cancel_left] at hfit hnext ⊢
  rw [copy_eq, FlashM.run_bind, readWindow_run h source sourceOffset, if_neg hw]
  by_cases hlive : c.Live
  · rw [if_pos hlive, hi]
    dsimp only
    rw [if_neg (by omega)]
    obtain ⟨j, err, c', -, hj, herr, hcut, hrun, hcells, hff⟩ :=
      forIn_copyPiece_run (l := l) hne 0
        (l.recordSize hd'.payloadSize) { c with reads := c.reads + 1 } h (Nat.zero_le _) hnext hfit
    refine ⟨j, err, c', hj, herr, by simpa using hcut, ?_, by simpa using hcells, hff⟩
    rw [FlashM.run_bind, hrun]
    by_cases hjs : j = l.recordSize hd'.payloadSize
    · rw [if_pos hjs, if_pos hjs]
      rfl
    · rw [if_neg hjs, if_neg hjs]
  · rw [if_neg hlive]
    have hpos := headerSize_add_le_size l.geometry hd'.payloadSize
    refine ⟨0, .readError, c, Nat.zero_le _, rfl,
      .inr ⟨rfl, Chip.failFrom_ne_none_of_not_live hlive⟩, ?_, by simp, rfl⟩
    rw [if_neg (by simp only [Layout.recordSize, headerSize] at hpos ⊢; omega)]

end NorStore.Record
