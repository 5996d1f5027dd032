import NorStore.Proofs.Recorder

/-! # The writes and erases a run asks for

A recorder logs every access it is asked for. What a power loss can leave behind, and what a
maintainer reads in a trace, are the writes and erases among them, in their order; the reads
between them change nothing. `Recorder.Issues m r ws` says that a run of `m` from `r` asks for
exactly the writes and erases `ws`, in this order, and otherwise only reads.

On a chip with no fault set every access the store asks for inside its area is performed, so a
run goes on to its end and its writes can be listed in full: a record is programmed as the
pieces of its image (`Layout.pieceWrites`), one write of at most 64 bytes each, and a copy
writes the pieces of the source record's bytes, each read from the source just before. This
module proves so for the single accesses, for programming and for copying a record; the
compaction is assembled from them in `Proofs/CompactionWrites`.
-/

namespace NorStore

open Record

/-- Whether an access changes the flash: a write or an erase. -/
def Access.isChange : Access → Bool
  | .read _ _ => false
  | .write _ _ => true
  | .erase _ _ => true

/-- The writes programming `B` at `offset` of area `a`, one piece of 64 bytes or less at a time. -/
def Layout.pieceWrites (l : Layout) (a : Area) (offset : Nat) (B : ByteArray) : List Access :=
  (pieces 0 B.size).map fun x =>
    .write ((l.info a).address + (offset + x.1)) (B.extract x.1 (x.1 + x.2))

namespace Recorder

variable {α β : Type} {l : Layout}

/-- The writes and erases among the events `es`, oldest first. -/
def changes (es : List Event) : List Access := (es.map Event.access).filter Access.isChange

@[simp] theorem changes_nil : changes [] = [] := rfl

@[simp] theorem changes_append (es es' : List Event) :
    changes (es ++ es') = changes es ++ changes es' := by
  simp [changes]

/-- A run of `m` from `r` asks for the writes and erases `ws`, in order, and otherwise reads. -/
def Issues (m : FlashM Recorder α) (r : Recorder) (ws : List Access) : Prop :=
  ∃ new, (m.run.run r).2.log = r.log ++ new ∧ changes new = ws

theorem Issues.of_eq {m : FlashM Recorder α} {r : Recorder} {ws ws' : List Access}
    (h : Issues m r ws) (hws : ws = ws') : Issues m r ws' :=
  hws ▸ h

theorem Issues.pure (a : α) (r : Recorder) : Issues (pure a : FlashM Recorder α) r [] :=
  ⟨[], (List.append_nil _).symm, rfl⟩

theorem Issues.throw (e : Error) (r : Recorder) :
    Issues (MonadExcept.throw e : FlashM Recorder α) r [] :=
  ⟨[], (List.append_nil _).symm, rfl⟩

theorem Issues.bind {m : FlashM Recorder α} {f : α → FlashM Recorder β} {r r' : Recorder}
    {a : α} {ws ws' : List Access} (h : Issues m r ws) (hrun : m.run.run r = (.ok a, r'))
    (hf : Issues (f a) r' ws') : Issues (m >>= f) r (ws ++ ws') := by
  obtain ⟨new, hlog, hnew⟩ := h
  obtain ⟨new', hlog', hnew'⟩ := hf
  rw [hrun] at hlog
  refine ⟨new ++ new', ?_, by rw [changes_append, hnew, hnew']⟩
  rw [FlashM.run_bind_of_ok hrun, hlog', hlog, List.append_assoc]

theorem Issues.bind_quiet {m : FlashM Recorder α} {f : α → FlashM Recorder β} {r : Recorder}
    {ws : List Access} (h : Issues m r ws)
    (hf : ∀ a r', m.run.run r = (.ok a, r') → Issues (f a) r' []) : Issues (m >>= f) r ws := by
  obtain ⟨new, hlog, hnew⟩ := h
  unfold Issues
  rw [FlashM.run_bind]
  generalize hrun : m.run.run r = q at hlog
  obtain ⟨_ | a, r'⟩ := q
  · exact ⟨new, hlog, hnew⟩
  · obtain ⟨new', hlog', hnew'⟩ := hf a r' hrun
    refine ⟨new ++ new', ?_, by rw [changes_append, hnew, hnew', List.append_nil]⟩
    dsimp only at hlog ⊢
    rw [hlog', hlog, List.append_assoc]

theorem MirrorsF.run_eq {m : FlashM Recorder α} {m' : FlashM Chip α} (h : MirrorsF m m')
    (r : Recorder) :
    ∃ r', m.run.run r = ((m'.run.run r.chip).1, r') ∧ r'.chip = (m'.run.run r.chip).2 :=
  ⟨(m.run.run r).2, Prod.ext (congrArg Prod.fst (h r) :) rfl, congrArg Prod.snd (h r)⟩

/-! ### The three accesses -/

theorem issues_read (a : Area) (offset length : Nat) (r : Recorder) :
    Issues (l.read a offset length) r [] := by
  unfold Layout.read Layout.address
  split
  · refine ⟨[], ?_, rfl⟩
    simp only [FlashM.run_bind, FlashM.run_liftExcept, List.append_nil]
  · refine ⟨[⟨r.chip, .read ((l.info a).address + offset) length⟩], ?_, rfl⟩
    simp only [FlashM.run_bind, FlashM.run_liftExcept, FlashM.run_modifyGet]
    split <;> rfl

theorem issues_write {a : Area} {offset : Nat} {bytes : ByteArray}
    (hfit : offset + bytes.size ≤ l.areaSize) (r : Recorder) :
    Issues (l.write a offset bytes) r [.write ((l.info a).address + offset) bytes] := by
  unfold Layout.write Layout.address
  rw [if_neg (by omega)]
  refine ⟨[⟨r.chip, .write ((l.info a).address + offset) bytes⟩], ?_, rfl⟩
  simp only [FlashM.run_bind, FlashM.run_liftExcept, FlashM.run_modifyGet]
  split <;> rfl

theorem issues_erase (a : Area) (r : Recorder) :
    Issues (l.erase a) r [.erase (l.info a).address ((l.info a).address + l.areaSize)] := by
  unfold Layout.erase
  refine ⟨[⟨r.chip, .erase (l.info a).address ((l.info a).address + l.areaSize)⟩], ?_, rfl⟩
  simp only [FlashM.run_bind, FlashM.run_modifyGet]
  split <;> rfl

section Live

variable {r : Recorder}

theorem read_live {a : Area} {offset length : Nat} (hin : l.Inside r.chip.cells.size)
    (hlive : r.chip.failFrom = none) (hfit : offset + length ≤ l.areaSize) :
    ∃ r', (l.read a offset length).run.run r =
        (.ok ((l.bytes r.chip.cells a).extract offset (offset + length)), r') ∧
      r'.chip.cells = r.chip.cells ∧ r'.chip.failFrom = none := by
  obtain ⟨r', hrun, hchip⟩ := (mirrors_read l a offset length).run_eq r
  rw [Layout.read_run hin a hfit, if_pos (Chip.live_of_failFrom_eq_none hlive)] at hrun hchip
  exact ⟨r', hrun, by rw [hchip], by rw [hchip]; exact hlive⟩

theorem write_live {a : Area} {offset : Nat} {bytes : ByteArray} (hin : l.Inside r.chip.cells.size)
    (hlive : r.chip.failFrom = none) (hfit : offset + bytes.size ≤ l.areaSize) :
    ∃ r', (l.write a offset bytes).run.run r = (.ok (), r') ∧
      r'.chip.cells = Chip.programCells r.chip.cells ((l.info a).address + offset) bytes ∧
      r'.chip.failFrom = none := by
  obtain ⟨r', hrun, hchip⟩ := (mirrors_write l a offset bytes).run_eq r
  rw [Layout.write_run hin a hfit, if_pos (Chip.live_of_failFrom_eq_none hlive)] at hrun hchip
  exact ⟨r', hrun, by rw [hchip], by rw [hchip]; exact hlive⟩

end Live

/-! ### Programming a record -/

theorem issues_programPieces (a : Area) (offset : Nat) (B : ByteArray) (stop : Nat)
    (hfit : offset + stop ≤ l.areaSize) (hB : stop ≤ B.size) :
    ∀ start (r : Recorder), l.Inside r.chip.cells.size → r.chip.failFrom = none →
      Issues (forIn (pieces start stop) PUnit.unit fun x _ => do
          l.write a (offset + x.1) (B.extract x.1 (x.1 + x.2))
          pure (ForInStep.yield PUnit.unit)) r
        ((pieces start stop).map fun x =>
          .write ((l.info a).address + (offset + x.1)) (B.extract x.1 (x.1 + x.2))) := by
  intro start
  fun_induction pieces start stop with
  | case1 start hlt n ih =>
    intro r hin hlive
    have hsize : (B.extract start (start + n)).size = n := by
      simp only [ByteArray.size_extract, n, scratchSize]; omega
    have hfit' : offset + start + (B.extract start (start + n)).size ≤ l.areaSize := by
      rw [hsize]; simp only [n, scratchSize]; omega
    rw [List.forIn_cons, List.map_cons]
    simp only [bind_assoc, pure_bind]
    -- the piece is written, and the rest is programmed from the chip it leaves
    obtain ⟨r', hrun, hcells, hlive'⟩ := write_live (a := a) hin hlive hfit'
    have hin' : l.Inside r'.chip.cells.size := by rw [hcells, Chip.size_programCells]; exact hin
    exact Issues.bind (issues_write hfit' r) hrun (ih r' hin' hlive')
  | case2 start hge =>
    intro r _ _
    exact Issues.pure _ r

variable [Crc]

theorem issues_program (a : Area) {offset : Nat} (type flags : UInt8) {data : ByteArray}
    (r : Recorder) (hin : l.Inside r.chip.cells.size) (hlive : r.chip.failFrom = none)
    (hfit : offset + l.recordSize data.size ≤ l.areaSize) :
    Issues (program l a offset type flags data) r
      (l.pieceWrites a offset (image l.geometry type flags data)) := by
  have hsize := size_image l.geometry type flags data
  unfold program
  dsimp only
  rw [if_neg (by omega)]
  refine Issues.bind_quiet ?_ fun _ r' _ => Issues.pure _ r'
  unfold Layout.pieceWrites
  rw [hsize]
  exact issues_programPieces a offset _ _ hfit (Nat.le_of_eq hsize.symm) 0 r hin hlive

theorem issues_write_record (a : Area) {offset : Nat} {type : UInt8} (flags : UInt8)
    {data : ByteArray} (htype : type < masterType) (hlen : data.size ≤ 0xFFFF) (r : Recorder)
    (hin : l.Inside r.chip.cells.size) (hlive : r.chip.failFrom = none)
    (hfit : offset + l.recordSize data.size ≤ l.areaSize) :
    Issues (Record.write l a offset type flags data) r
      (l.pieceWrites a offset (image l.geometry type flags data)) := by
  have hok : ¬ (type ≥ masterType ∨ data.size > 0xFFFF) := by
    intro h
    rcases h with h | h
    · exact absurd (UInt8.lt_of_lt_of_le htype h) (UInt8.lt_irrefl _)
    · omega
  unfold Record.write
  rw [if_neg hok]
  exact issues_program a type flags r hin hlive hfit

theorem issues_writeMaster (hl : l.Valid) (a : Area) (version : UInt16) (r : Recorder)
    (hin : l.Inside r.chip.cells.size) (hlive : r.chip.failFrom = none) :
    Issues (writeMaster l a version) r
      (l.pieceWrites a 0 (image l.geometry masterType 0 (masterPayload version))) :=
  issues_program a masterType 0 r hin hlive
    (by rw [Nat.zero_add]; exact hl.masterSize_le_areaSize)

/-! ### Copying a record -/

omit [Crc] in
theorem issues_readWindow (a : Area) (offset : Nat) (r : Recorder) :
    Issues (readWindow l a offset) r [] := by
  unfold readWindow
  dsimp only
  split
  · exact Issues.pure _ r
  refine Issues.bind_quiet (issues_read a offset _ r) fun bytes r' _ => ?_
  split
  · exact Issues.pure _ r'
  split
  · exact Issues.pure _ r'
  split
  · exact Issues.pure _ r'
  · exact Issues.throw _ r'

variable {source target : Area}

omit [Crc] in
theorem issues_copyPieces (hne : target ≠ source) (sourceOffset targetOffset stop : Nat)
    (hs : sourceOffset + stop ≤ l.areaSize) (ht : targetOffset + stop ≤ l.areaSize) :
    ∀ start (r : Recorder), l.Inside r.chip.cells.size → r.chip.failFrom = none →
      Issues (forIn (pieces start stop) PUnit.unit fun x _ => do
          let bytes ← l.read source (sourceOffset + x.1) x.2
          l.write target (targetOffset + x.1) bytes
          pure (ForInStep.yield PUnit.unit)) r
        ((pieces start stop).map fun x => .write ((l.info target).address + (targetOffset + x.1))
          ((l.bytes r.chip.cells source).extract (sourceOffset + x.1) (sourceOffset + x.1 + x.2))) := by
  intro start
  fun_induction pieces start stop with
  | case1 start hlt n ih =>
    intro r hin hlive
    have hn : n ≤ stop - start := by simp only [n]; omega
    rw [List.forIn_cons, List.map_cons]
    simp only [bind_assoc, pure_bind]
    -- the piece read is the source's bytes; writing it to the other area keeps the source
    obtain ⟨r₁, hread, hcells₁, hlive₁⟩ := read_live (a := source) hin hlive
      (show sourceOffset + start + n ≤ l.areaSize by omega)
    have hin₁ : l.Inside r₁.chip.cells.size := by rw [hcells₁]; exact hin
    have hsize : ((l.bytes r.chip.cells source).extract (sourceOffset + start)
        (sourceOffset + start + n)).size = n := by
      simp only [ByteArray.size_extract, Layout.size_bytes hin]; omega
    obtain ⟨r₂, hwrite, hcells₂, hlive₂⟩ := write_live (a := target) hin₁ hlive₁
      (show targetOffset + start + ((l.bytes r.chip.cells source).extract (sourceOffset + start)
        (sourceOffset + start + n)).size ≤ l.areaSize by rw [hsize]; omega)
    have hin₂ : l.Inside r₂.chip.cells.size := by
      rw [hcells₂, Chip.size_programCells]; exact hin₁
    have hsource : l.bytes r₂.chip.cells source = l.bytes r.chip.cells source := by
      rw [hcells₂, Layout.bytes_programCells_other hin₁ hne.symm (by rw [hsize]; omega), hcells₁]
    have hrest := ih r₂ hin₂ hlive₂
    rw [hsource] at hrest
    exact Issues.bind (issues_read _ _ _ r) hread
      (Issues.bind (issues_write (by rw [hsize]; omega) r₁) hwrite hrest)
  | case2 start hge =>
    intro r _ _
    exact Issues.pure _ r

omit [Crc] in
theorem pieceWrites_extract (a : Area) (offset : Nat) {S : ByteArray} {start stop : Nat}
    (hle : start ≤ stop) (hstop : stop ≤ S.size) :
    l.pieceWrites a offset (S.extract start stop) =
      (pieces 0 (stop - start)).map fun x => .write ((l.info a).address + (offset + x.1))
        (S.extract (start + x.1) (start + x.1 + x.2)) := by
  have hsize : (S.extract start stop).size = stop - start := by
    simp only [ByteArray.size_extract]; omega
  unfold Layout.pieceWrites
  rw [hsize]
  refine List.map_congr_left fun x hx => ?_
  have hb := (bounds_of_mem_pieces (show (x.1, x.2) ∈ pieces 0 (stop - start) from hx)).2.2.2
  rw [ByteArray.extract_extract, Nat.min_eq_left (by omega), Nat.add_assoc]

theorem issues_copy (hne : target ≠ source) {sourceOffset targetOffset : Nat} {e : Entry}
    (r : Recorder) (hin : l.Inside r.chip.cells.size) (hlive : r.chip.failFrom = none)
    (hd : decode l.geometry (l.bytes r.chip.cells source) sourceOffset = .ok (some e))
    (hfit : targetOffset + (e.next - sourceOffset) ≤ l.areaSize) :
    Issues (copy l source sourceOffset target targetOffset) r
      (l.pieceWrites target targetOffset
        ((l.bytes r.chip.cells source).extract sourceOffset e.next)) := by
  have hA := Layout.size_bytes hin source
  obtain ⟨hd', hw, hi, -, rfl⟩ := inspect_window_of_decode hA hd
  have hnext := (decode_next hd).2.2
  simp only [hA] at hnext
  simp only [Nat.add_sub_cancel_left] at hfit
  rw [pieceWrites_extract target targetOffset (Nat.le_add_right _ _) (by rw [hA]; exact hnext),
    Nat.add_sub_cancel_left]
  -- the window read finds the record's header and changes no cell
  obtain ⟨r₁, hrun₁, hchip₁⟩ := (mirrors_readWindow l source sourceOffset).run_eq r
  rw [readWindow_run hin source sourceOffset, if_neg hw,
    if_pos (Chip.live_of_failFrom_eq_none hlive), hi] at hrun₁ hchip₁
  have hcells₁ : r₁.chip.cells = r.chip.cells := by rw [hchip₁]
  have hlive₁ : r₁.chip.failFrom = none := by rw [hchip₁]; exact hlive
  unfold copy
  refine Issues.bind (issues_readWindow source sourceOffset r) hrun₁ ?_
  dsimp only
  rw [if_neg (by omega)]
  refine Issues.bind_quiet ?_ fun _ r' _ => Issues.pure _ r'
  rw [← hcells₁]
  exact issues_copyPieces hne sourceOffset targetOffset _ hnext hfit 0 r₁ (hcells₁ ▸ hin) hlive₁

end Recorder

end NorStore
