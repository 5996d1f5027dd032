import NorStore.Proofs.Recorder

/-! # The accesses the store makes

A run on a `Recorder` logs every access the store asks of the flash, with the flash as it was
at that moment. This module says which accesses those are, for the reads, the record writes and
the log walks, one lemma per definition; `Proofs/CompactionTrace` and `Proofs/CallTrace` go on
with compaction and the store's calls.

Every access lies in one area: `Layout.read` and `Layout.write` refuse a range that leaves its
area before the device is asked. What the lemmas add is the store's discipline (`Event.Fits`):
offsets and lengths are whole read or write units and fit the 64-byte buffer the store moves
data through, a write lands on erased bytes, and an erase clears one whole area. Every write
keeps off both master records or writes a whole master record of the generation after the
active one (`Event.Advances`). Besides, the accesses of every operation but a reset keep off the
master record of the active area (`Event.Spares`). A run's events are described by `Adds`: the
run appends to the log only events of a given kind, each on the chip the one before it left
(`Event.Chained`). Its bind rule hands the continuation the recorder the first part left, and
`MirrorsF.run_chip` says what the chip in it is, by the run lemmas on a chip.
-/

namespace NorStore

open Record Generation Index Log

/-! ### Chains of events -/

namespace Event

/-- The chip after the access of `e`: performed, or refused and without effect. -/
def after (e : Event) : Chip :=
  match e.access with
  | .read address length => (e.before.read address length).2
  | .write address bytes => (e.before.write address bytes).2
  | .erase start stop => (e.before.erase start stop).2

/-- The events `es` happened one after the other, taking the chip from `c` to `c'`. -/
def Chained : List Event → Chip → Chip → Prop
  | [], c, c' => c' = c
  | e :: es, c, c' => e.before = c ∧ Chained es e.after c'

theorem Chained.append {es es' : List Event} {c c' c'' : Chip} (h : Chained es c c')
    (h' : Chained es' c' c'') : Chained (es ++ es') c c'' := by
  induction es generalizing c with
  | nil =>
    unfold Chained at h
    subst h
    exact h'
  | cons e es ih => exact ⟨h.1, ih h.2⟩

theorem Chained.keeps {I : Chip → Prop} {es : List Event} {c c' : Chip} (h : Chained es c c')
    (hstep : ∀ e ∈ es, I e.before → I e.after) (hc : I c) : I c' := by
  induction es generalizing c with
  | nil =>
    unfold Chained at h
    exact h ▸ hc
  | cons e es ih =>
    obtain ⟨rfl, hes⟩ := h
    exact ih hes (fun e' he' => hstep e' (List.mem_cons_of_mem _ he'))
      (hstep e List.mem_cons_self hc)

theorem Chained.holds_before {I : Chip → Prop} {es : List Event} {c c' : Chip}
    (h : Chained es c c') (hstep : ∀ e ∈ es, I e.before → I e.after) (hc : I c) :
    ∀ e ∈ es, I e.before := by
  induction es generalizing c with
  | nil => exact fun _ he => nomatch he
  | cons e es ih =>
    obtain ⟨rfl, hes⟩ := h
    intro e' he'
    rcases List.mem_cons.mp he' with rfl | he'
    · exact hc
    · exact ih hes (fun e'' he'' => hstep e'' (List.mem_cons_of_mem _ he''))
        (hstep e List.mem_cons_self hc) e' he'

end Event

variable {l : Layout}

/-! ### Pieces on the grid -/

theorem dvd_min_of_dvd {A x y : Nat} (hx : A ∣ x) (hy : A ∣ y) : A ∣ min x y := by
  rcases Nat.le_total x y with h | h
  · rwa [Nat.min_eq_left h]
  · rwa [Nat.min_eq_right h]

theorem dvd_of_mem_pieces {A start stop p n : Nat} (h : (p, n) ∈ pieces start stop)
    (hA : A ∣ scratchSize) (hs : A ∣ start) (hstop : A ∣ stop) : A ∣ p ∧ A ∣ n := by
  fun_induction pieces start stop with
  | case1 start hlt m ih =>
    have hm : A ∣ m := dvd_min_of_dvd (Nat.dvd_sub hstop hs) hA
    simp only [List.mem_cons, Prod.mk.injEq] at h
    rcases h with ⟨rfl, rfl⟩ | h
    · exact ⟨hs, hm⟩
    · exact ih h (Nat.dvd_add hs hm)
  | case2 => simp at h

theorem readLength_le (hl : l.Valid) {n : Nat} (hn : n ≤ scratchSize) :
    l.geometry.readLength n ≤ scratchSize := by
  have hdvd := hl.supported.readSize_dvd_sixtyFour
  calc l.geometry.readLength n ≤ alignUp 64 l.geometry.readSize := alignUp_mono hn
    _ = 64 := alignUp_of_dvd hdvd hl.supported.readSize_pos

theorem readSize_dvd_readLength (n : Nat) : l.geometry.readSize ∣ l.geometry.readLength n :=
  Nat.dvd_of_mod_eq_zero (alignUp_mod _ _)

theorem Layout.Valid.readSize_dvd (hl : l.Valid) {offset : Nat}
    (h : l.geometry.recordAlignment ∣ offset) : l.geometry.readSize ∣ offset :=
  Nat.dvd_trans hl.supported.readSize_dvd h

theorem Layout.Valid.writeSize_dvd (hl : l.Valid) {offset : Nat}
    (h : l.geometry.recordAlignment ∣ offset) : l.geometry.writeSize ∣ offset :=
  Nat.dvd_trans hl.supported.writeSize_dvd h

theorem Layout.Valid.dvd_areaSize (hl : l.Valid) : l.geometry.recordAlignment ∣ l.areaSize :=
  Nat.dvd_of_mod_eq_zero hl.aligned

theorem recordAlignment_dvd_recordSize (l : Layout) (length : Nat) :
    l.geometry.recordAlignment ∣ l.recordSize length :=
  Nat.dvd_of_mod_eq_zero (size_mod _ _)

theorem dvd_start_of_mem_pieces {A start stop p n : Nat} (h : (p, n) ∈ pieces start stop)
    (hA : A ∣ scratchSize) (hs : A ∣ start) : A ∣ p := by
  fun_induction pieces start stop with
  | case1 start hlt m ih =>
    simp only [List.mem_cons, Prod.mk.injEq] at h
    rcases h with ⟨rfl, -⟩ | h
    · exact hs
    · by_cases hm : m = scratchSize
      · exact ih h (by rw [hm]; exact Nat.dvd_add hs hA)
      · -- a piece shorter than 64 bytes is the last one
        have hstop : start + m = stop := by simp only [m, scratchSize] at hm ⊢; omega
        rw [hstop, pieces_of_le (Nat.le_refl _)] at h
        cases h
  | case2 => simp at h

theorem lastValueAt_on_grid {type : UInt8} {es : List Entry} {offset : Nat} {A : Nat}
    (h : Store.lastValueAt type es = some offset) (hes : ∀ e ∈ es, A ∣ e.offset) : A ∣ offset := by
  rw [lastValueAt_eq] at h
  obtain ⟨slot, hslot, rfl⟩ := Option.map_eq_some_iff.mp h
  obtain ⟨e, he, hoff, -⟩ := slotFor_eq_some hslot
  exact hoff ▸ hes e he

theorem Layout.masterSize_pos (l : Layout) : 0 < l.masterSize := by
  have := headerSize_add_le_size l.geometry masterPayloadSize
  simp only [Layout.masterSize, Record.masterSize, masterPayloadSize] at this ⊢
  omega

namespace Recorder

/-! ### Events a run adds -/

variable {α β : Type} {P Q : Event → Prop}

/-- The events a run of `m` from `r` adds are chained and each satisfies `P`. -/
def Adds (P : Event → Prop) (m : StateM Recorder α) (r : Recorder) : Prop :=
  ∃ new, (m.run r).2.log = r.log ++ new ∧ Event.Chained new r.chip (m.run r).2.chip ∧
    ∀ e ∈ new, P e

/-- The same, for runs that may fail. -/
def AddsF (P : Event → Prop) (m : FlashM Recorder α) (r : Recorder) : Prop := Adds P m.run r

theorem Adds.mono {m : StateM Recorder α} {r : Recorder} (h : Adds P m r)
    (hPQ : ∀ e, P e → Q e) : Adds Q m r := by
  obtain ⟨new, hlog, hchain, hnew⟩ := h
  exact ⟨new, hlog, hchain, fun e he => hPQ e (hnew e he)⟩

theorem AddsF.mono {m : FlashM Recorder α} {r : Recorder} (h : AddsF P m r)
    (hPQ : ∀ e, P e → Q e) : AddsF Q m r :=
  Adds.mono h hPQ

theorem Adds.pure (a : α) (r : Recorder) : Adds P (pure a) r :=
  ⟨[], (List.append_nil _).symm, rfl, by simp⟩

theorem Adds.bind {m : StateM Recorder α} {f : α → StateM Recorder β} {r : Recorder}
    (h : Adds P m r) (hf : ∀ a r', m.run r = (a, r') → Adds P (f a) r') : Adds P (m >>= f) r := by
  obtain ⟨new, hlog, hchain, hnew⟩ := h
  obtain ⟨new', hlog', hchain', hnew'⟩ := hf (m.run r).1 (m.run r).2 rfl
  refine ⟨new ++ new', ?_, ?_, List.forall_mem_append.mpr ⟨hnew, hnew'⟩⟩
  · rw [StateM.run_bind, hlog', hlog, List.append_assoc]
  · rw [StateM.run_bind]
    exact hchain.append hchain'

theorem AddsF.pure (a : α) (r : Recorder) : AddsF P (pure a : FlashM Recorder α) r :=
  ⟨[], (List.append_nil _).symm, rfl, by simp⟩

theorem AddsF.throw (e : Error) (r : Recorder) :
    AddsF P (MonadExcept.throw e : FlashM Recorder α) r :=
  ⟨[], (List.append_nil _).symm, rfl, by simp⟩

theorem AddsF.liftExcept (x : Except Error α) (r : Recorder) :
    AddsF P (liftExcept x : FlashM Recorder α) r := by
  refine ⟨[], ?_, ?_, by simp⟩
  · rw [List.append_nil]
    cases x <;> rfl
  · cases x <;> rfl

theorem AddsF.bind {m : FlashM Recorder α} {f : α → FlashM Recorder β} {r : Recorder}
    (h : AddsF P m r) (hf : ∀ a r', m.run.run r = (.ok a, r') → AddsF P (f a) r') :
    AddsF P (m >>= f) r := by
  obtain ⟨new, hlog, hchain, hnew⟩ := h
  unfold AddsF Adds
  rw [FlashM.run_bind]
  generalize hrun : m.run.run r = q at hlog hchain
  obtain ⟨_ | a, r'⟩ := q
  · exact ⟨new, hlog, hchain, hnew⟩
  · obtain ⟨new', hlog', hchain', hnew'⟩ := hf a r' hrun
    refine ⟨new ++ new', ?_, hchain.append hchain', List.forall_mem_append.mpr ⟨hnew, hnew'⟩⟩
    dsimp only
    rw [hlog', hlog, List.append_assoc]

theorem AddsF.lift {m : StateM Recorder α} {r : Recorder} (h : Adds P m r) :
    AddsF P (liftM m : FlashM Recorder α) r :=
  h

theorem AddsF.lift_bind {m : StateM Recorder α} {f : α → FlashM Recorder β} {r : Recorder}
    (h : Adds P m r) (hf : ∀ a r', m.run r = (a, r') → AddsF P (f a) r') :
    AddsF P (liftM m >>= f) r := by
  refine AddsF.bind (AddsF.lift h) fun a r' hrun => hf a r' ?_
  change (Except.ok (m.run r).1, (m.run r).2) = (Except.ok a, r') at hrun
  obtain ⟨h1, h2⟩ := Prod.mk.inj hrun
  rw [← Except.ok.inj h1, ← h2]
  rfl

theorem AddsF.forIn {γ : Type} {f : γ → β → FlashM Recorder (ForInStep β)} (xs : List γ) (b : β)
    (r : Recorder) (hf : ∀ x ∈ xs, ∀ b r, AddsF P (f x b) r) : AddsF P (forIn xs b f) r := by
  induction xs generalizing b r with
  | nil => exact AddsF.pure b r
  | cons x xs ih =>
    rw [List.forIn_cons]
    refine AddsF.bind (hf x List.mem_cons_self b r) fun step r' _ => ?_
    cases step with
    | done b' => exact AddsF.pure b' r'
    | yield b' => exact ih b' r' fun y hy => hf y (List.mem_cons_of_mem x hy)

theorem AddsF.access {γ : Type} {f : Recorder → γ × Recorder} {r : Recorder} {access : Access}
    (hf : (f r).2.log = r.log ++ [⟨r.chip, access⟩])
    (hc : (f r).2.chip = Event.after ⟨r.chip, access⟩) (hP : P ⟨r.chip, access⟩) :
    AddsF P (modifyGet f : FlashM Recorder γ) r :=
  ⟨[⟨r.chip, access⟩], by rw [FlashM.run_modifyGet]; exact hf,
    by rw [FlashM.run_modifyGet]; exact ⟨rfl, hc⟩, by simpa using hP⟩

theorem MirrorsF.run_chip {m : FlashM Recorder α} {m' : FlashM Chip α} (h : MirrorsF m m')
    {r r' : Recorder} {x : Except Error α} (hr : m.run.run r = (x, r')) :
    m'.run.run r.chip = (x, r'.chip) := by
  rw [← h r, hr]

theorem Mirrors.run_chip {m : StateM Recorder α} {m' : StateM Chip α} (h : Mirrors m m')
    (r : Recorder) : m'.run r.chip = ((m.run r).1, (m.run r).2.chip) :=
  (h r).symm

/-! ### The three accesses -/

theorem address_eq_ok {a : Area} {offset length address : Nat}
    (h : l.address a offset length = .ok address) :
    offset + length ≤ l.areaSize ∧ address = (l.info a).address + offset := by
  unfold Layout.address at h
  split at h
  · cases h
  · cases h
    exact ⟨by omega, rfl⟩

theorem liftExcept_run_ok {x : Except Error α} {a : α} {r r' : Recorder}
    (h : (liftExcept x : FlashM Recorder α).run.run r = (.ok a, r')) : x = .ok a ∧ r' = r := by
  rw [FlashM.run_liftExcept] at h
  obtain ⟨h1, h2⟩ := Prod.mk.inj h
  exact ⟨h1, h2.symm⟩

theorem adds_read {a : Area} {offset length : Nat} {r : Recorder}
    (h : offset + length ≤ l.areaSize → P ⟨r.chip, .read ((l.info a).address + offset) length⟩) :
    AddsF P (l.read a offset length) r := by
  unfold Layout.read
  refine AddsF.bind (AddsF.liftExcept _ r) fun address r' hrun => ?_
  obtain ⟨haddr, rfl⟩ := liftExcept_run_ok hrun
  obtain ⟨hfit, rfl⟩ := address_eq_ok haddr
  refine AddsF.bind (AddsF.access rfl rfl (h hfit)) fun bytes r'' _ => ?_
  cases bytes
  · exact AddsF.throw _ r''
  · exact AddsF.pure _ r''

theorem adds_write {a : Area} {offset : Nat} {bytes : ByteArray} {r : Recorder}
    (h : offset + bytes.size ≤ l.areaSize →
      P ⟨r.chip, .write ((l.info a).address + offset) bytes⟩) :
    AddsF P (l.write a offset bytes) r := by
  unfold Layout.write
  refine AddsF.bind (AddsF.liftExcept _ r) fun address r' hrun => ?_
  obtain ⟨haddr, rfl⟩ := liftExcept_run_ok hrun
  obtain ⟨hfit, rfl⟩ := address_eq_ok haddr
  refine AddsF.bind (AddsF.access rfl rfl (h hfit)) fun done r'' _ => ?_
  cases done
  · exact AddsF.throw _ r''
  · exact AddsF.pure _ r''

theorem adds_erase {a : Area} {r : Recorder}
    (h : P ⟨r.chip, .erase (l.info a).address ((l.info a).address + l.areaSize)⟩) :
    AddsF P (l.erase a) r := by
  unfold Layout.erase
  refine AddsF.bind (AddsF.access rfl rfl h) fun done r' _ => ?_
  cases done
  · exact AddsF.throw _ r'
  · exact AddsF.pure _ r'

end Recorder

/-! ### What an access leaves on the chip -/

theorem read_of_gt {δ : Type} [NorFlash δ] {a : Area} {offset length : Nat}
    (h : offset + length > l.areaSize) (d : δ) :
    (l.read a offset length).run.run d = (.error .flashAreaTooSmall, d) := by
  simp only [Layout.read, Layout.address, if_pos h]
  rfl

theorem read_ok {a : Area} {offset length : Nat} {bytes : ByteArray} {r r' : Recorder}
    (hin : l.Inside r.chip.cells.size) (hrun : (l.read a offset length).run.run r = (.ok bytes, r')) :
    offset + length ≤ l.areaSize ∧
      bytes = (l.bytes r.chip.cells a).extract offset (offset + length) ∧ r'.chip.cells = r.chip.cells := by
  by_cases hfit : offset + length ≤ l.areaSize
  · have hchip := (Recorder.mirrors_read l a offset length).run_chip hrun
    rw [Layout.read_run hin a hfit] at hchip
    split at hchip
    · obtain ⟨h1, h2⟩ := Prod.mk.inj hchip
      exact ⟨hfit, (Except.ok.inj h1).symm, (congrArg Chip.cells h2).symm⟩
    · cases (Prod.mk.inj hchip).1
  · rw [read_of_gt (by omega)] at hrun
    cases (Prod.mk.inj hrun).1

theorem cells_of_write_ok {a : Area} {offset : Nat} {bytes : ByteArray} {r r' : Recorder}
    (hin : l.Inside r.chip.cells.size) (hfit : offset + bytes.size ≤ l.areaSize)
    (hrun : (l.write a offset bytes).run.run r = (.ok (), r')) :
    r'.chip.cells = Chip.programCells r.chip.cells ((l.info a).address + offset) bytes := by
  have hchip := (Recorder.mirrors_write l a offset bytes).run_chip hrun
  rw [Layout.write_run hin a hfit] at hchip
  split at hchip
  · exact (congrArg Chip.cells (Prod.mk.inj hchip).2).symm
  · cases (Prod.mk.inj hchip).1

theorem Layout.cells_of_erase {c c' : Chip} {a : Area} (h : l.Inside c.cells.size)
    (hrun : (l.erase a : FlashM Chip Unit).run.run c = (.ok (), c')) :
    c'.cells = Chip.overwriteCells c.cells (l.info a).address
      (ByteArray.mk (Array.replicate l.areaSize 0xFF)) := by
  rw [Layout.erase_run h a] at hrun
  split at hrun
  · cases hrun
    rfl
  · cases hrun

theorem Layout.inside_erase {cells : ByteArray} (h : l.Inside cells.size) (a : Area) :
    l.Inside (Chip.overwriteCells cells (l.info a).address
      (ByteArray.mk (Array.replicate l.areaSize 0xFF))).size := by
  rw [Chip.size_overwriteCells _ _ _ (by
    rw [Layout.size_erasedArea]; exact Layout.info_address_add_le h a)]
  exact h

theorem cells_of_erase_ok {a : Area} {r r' : Recorder} (hin : l.Inside r.chip.cells.size)
    (hrun : (l.erase a).run.run r = (.ok (), r')) :
    r'.chip.cells = Chip.overwriteCells r.chip.cells (l.info a).address
      (ByteArray.mk (Array.replicate l.areaSize 0xFF)) :=
  Layout.cells_of_erase hin ((Recorder.mirrors_erase l a).run_chip hrun)

theorem readWindow_some {a : Area} {offset : Nat} {hd : Header} {bytes : ByteArray}
    {r r' : Recorder} (hin : l.Inside r.chip.cells.size)
    (hrun : (readWindow l a offset).run.run r = (.ok (some (hd, bytes)), r')) :
    bytes.size = windowLength l offset ∧ hd.Admissible l.geometry l.areaSize offset ∧
      r'.chip.cells = r.chip.cells := by
  have hchip := (Recorder.mirrors_readWindow l a offset).run_chip hrun
  rw [readWindow_run hin a offset] at hchip
  split at hchip
  · cases Option.some_ne_none _ (Except.ok.inj (Prod.mk.inj hchip).1).symm
  split at hchip
  · obtain ⟨h1, h2⟩ := Prod.mk.inj hchip
    obtain ⟨rfl, hadm⟩ := inspect_eq_ok_some h1
    have hA := Layout.size_bytes hin a
    refine ⟨?_, hadm, (congrArg Chip.cells h2).symm⟩
    have hw : windowLength l offset ≤ l.areaSize - offset := Nat.min_le_left _ _
    have hpos : 0 < windowLength l offset := by
      rename_i hw' _
      simp only [headerSize] at hw'
      omega
    simp only [ByteArray.size_extract, hA]
    omega
  · cases (Prod.mk.inj hchip).1

theorem Chip.Keeps.inside {c c' : Chip} (hk : Chip.Keeps c c') (h : l.Inside c.cells.size) :
    l.Inside c'.cells.size := by
  rw [hk.cells]; exact h

/-! ### The discipline -/

variable [Crc]

/-- The range `[start, stop)` stays clear of the active area's master record. -/
def Layout.SparesMaster (l : Layout) (cells : ByteArray) (start stop : Nat) : Prop :=
  ∀ a v, activeOf l cells = some (a, v) →
    stop ≤ (l.info a).address ∨ (l.info a).address + l.masterSize ≤ start

/-- The range `[start, stop)` stays clear of the master records of both areas. -/
def Layout.KeepsOffMasters (l : Layout) (start stop : Nat) : Prop :=
  ∀ a, stop ≤ (l.info a).address ∨ (l.info a).address + l.masterSize ≤ start

namespace Event

/-- An access the store's discipline allows on the flash it finds. -/
def Fits (l : Layout) (e : Event) : Prop :=
  match e.access with
  | .read address length => ∃ a offset, address = (l.info a).address + offset ∧
      offset + length ≤ l.areaSize ∧ l.geometry.readSize ∣ offset ∧
      l.geometry.readSize ∣ length ∧ length ≤ scratchSize
  | .write address bytes => ∃ a offset, address = (l.info a).address + offset ∧
      offset + bytes.size ≤ l.areaSize ∧ l.geometry.writeSize ∣ offset ∧
      l.geometry.writeSize ∣ bytes.size ∧ 0 < bytes.size ∧ bytes.size ≤ scratchSize ∧
      Erased (l.bytes e.before.cells a) offset (offset + bytes.size)
  | .erase start stop => ∃ a, start = (l.info a).address ∧ stop = start + l.areaSize

/-- A write or an erase that keeps off the master record of the active area. -/
def Spares (l : Layout) (e : Event) : Prop :=
  match e.access with
  | .read _ _ => True
  | .write address bytes => l.SparesMaster e.before.cells address (address + bytes.size)
  | .erase start stop => l.SparesMaster e.before.cells start stop

/-- A write that keeps the generations of the two areas one apart. -/
def Advances (l : Layout) (e : Event) : Prop :=
  match e.access with
  | .write address bytes => l.KeepsOffMasters address (address + bytes.size) ∨
      ∃ a version, address = (l.info a).address ∧
        bytes = image l.geometry masterType 0 (masterPayload version) ∧
        (masterIn l e.before.cells a.other = none ∨
          ∃ v, activeOf l e.before.cells = some (a.other, v) ∧ version = v + 1)
  | _ => True

/-- The accesses of every operation but a reset. -/
def Proper (l : Layout) (e : Event) : Prop := e.Fits l ∧ e.Spares l ∧ e.Advances l

end Event

theorem Layout.sparesMaster_of_area (hl : l.Valid) {cells : ByteArray} {a : Area}
    {offset n : Nat} (hfit : offset + n ≤ l.areaSize)
    (h : ∀ a' v, activeOf l cells = some (a', v) → a' ≠ a ∨ l.masterSize ≤ offset) :
    l.SparesMaster cells ((l.info a).address + offset) ((l.info a).address + offset + n) := by
  intro a' v hact
  have hm := hl.masterSize_le_areaSize
  -- the two areas lie one after the other, so only the same area can overlap
  rcases h a' v hact with hne | hle
  · cases a <;> cases a' <;> simp only [Layout.info, Area.index] at hne ⊢ <;>
      first | exact absurd rfl hne | omega
  · cases a <;> cases a' <;> simp only [Layout.info, Area.index] <;> omega

omit [Crc] in
theorem Layout.keepsOffMasters_of_past (hl : l.Valid) {a : Area} {offset n : Nat}
    (hfit : offset + n ≤ l.areaSize) (hpast : l.masterSize ≤ offset) :
    l.KeepsOffMasters ((l.info a).address + offset) ((l.info a).address + offset + n) := by
  intro a'
  have hm := hl.masterSize_le_areaSize
  cases a <;> cases a' <;> simp only [Layout.info, Area.index] <;> omega

theorem ne_of_activeOf_of_erased {cells : ByteArray} {a a' : Area} {v : UInt16}
    (he : Erased (l.bytes cells a) 0 l.masterSize) (hact : activeOf l cells = some (a', v)) :
    a' ≠ a := by
  rintro rfl
  have hmaster := masterIn_of_activeOf hact
  rw [masterIn_of_erased he] at hmaster
  cases hmaster

/-! ### Records on the grid -/

theorem decode_next_dvd {g : Geometry} {A : ByteArray} {offset : Nat} {e : Entry}
    (hd : decode g A offset = .ok (some e)) (ho : g.recordAlignment ∣ offset) :
    g.recordAlignment ∣ e.next := by
  obtain ⟨h, -, -, -, -, -, rfl⟩ := decode_eq_ok_some hd
  exact Nat.dvd_add ho (Nat.dvd_of_mod_eq_zero (size_mod _ _))

theorem Log.Contiguous.on_grid {g : Geometry} {A : ByteArray} {start stop : Nat}
    {es : List Entry} (h : Contiguous start es stop) :
    (∀ e ∈ es, decode g A e.offset = .ok (some e)) → g.recordAlignment ∣ start →
      (∀ e ∈ es, g.recordAlignment ∣ e.offset) ∧ g.recordAlignment ∣ stop := by
  induction h with
  | nil => exact fun _ hs => ⟨fun _ he => (nomatch he), hs⟩
  | @cons start stop e es hoffset _ _ ih =>
    intro hdec hs
    -- each record ends on the grid, where the next one starts
    have hnext := decode_next_dvd (hdec e List.mem_cons_self) (hoffset ▸ hs)
    obtain ⟨hes, hstop⟩ := ih (fun e' he' => hdec e' (List.mem_cons_of_mem _ he')) hnext
    refine ⟨fun e' he' => ?_, hstop⟩
    rcases List.mem_cons.mp he' with rfl | he'
    · exact hoffset ▸ hs
    · exact hes e' he'

theorem chain_on_grid (g : Geometry) (A : ByteArray) {offset : Nat} (h : offset ≤ A.size)
    (ho : g.recordAlignment ∣ offset) :
    (∀ e ∈ (chain g A offset).entries, g.recordAlignment ∣ e.offset) ∧
      g.recordAlignment ∣ (chain g A offset).next := by
  obtain ⟨hcont, hdec, -, -⟩ := chain_spec g A offset h
  exact hcont.on_grid (fun e he => (hdec e he).1) ho

theorem logOf_on_grid (hl : l.Valid) {cells : ByteArray} (h : l.Inside cells.size) (a : Area) :
    (∀ e ∈ (l.logOf cells a).entries, l.geometry.recordAlignment ∣ e.offset) ∧
      l.geometry.recordAlignment ∣ (l.logOf cells a).next :=
  chain_on_grid _ _ (by rw [Layout.size_bytes h]; exact hl.masterSize_le_areaSize)
    (Nat.dvd_of_mod_eq_zero (masterSize_mod _))

theorem Index.Coherent.free_on_grid (hl : l.Valid) {count : Nat} {cells : ByteArray} {i : Index}
    (h : l.Inside cells.size) (hi : Coherent l count cells i) :
    l.geometry.recordAlignment ∣ i.free :=
  hi.free ▸ (logOf_on_grid hl h i.area).2

theorem Index.Scanned.slot_on_grid (hl : l.Valid) {count : Nat} (hcount : count ≤ 256)
    {cells : ByteArray} {i : Index} (h : l.Inside cells.size) (hi : Scanned l count cells i)
    {type : UInt8} {slot : Slot} (hs : i.slot? type = some slot) :
    l.geometry.recordAlignment ∣ slot.offset := by
  rw [slot?_of_slots hcount hi.slots] at hs
  split at hs
  · obtain ⟨e, he, hoff, -⟩ := slotFor_eq_some hs
    exact hoff ▸ (logOf_on_grid hl h i.area).1 e he
  · cases hs

/-! ### Accesses that fit -/

theorem proper_read {c : Chip} {a : Area} {offset length : Nat} (hfit : offset + length ≤ l.areaSize)
    (ho : l.geometry.readSize ∣ offset) (hn : l.geometry.readSize ∣ length)
    (hlen : length ≤ scratchSize) :
    Event.Proper l ⟨c, .read ((l.info a).address + offset) length⟩ :=
  ⟨⟨a, offset, rfl, hfit, ho, hn, hlen⟩, trivial, trivial⟩

theorem proper_write (hl : l.Valid) {c : Chip} {a : Area} {offset : Nat} {bytes : ByteArray}
    (hfit : offset + bytes.size ≤ l.areaSize) (ho : l.geometry.writeSize ∣ offset)
    (hn : l.geometry.writeSize ∣ bytes.size) (hpos : 0 < bytes.size)
    (hlen : bytes.size ≤ scratchSize) (he : Erased (l.bytes c.cells a) offset (offset + bytes.size))
    (hpast : l.masterSize ≤ offset) :
    Event.Proper l ⟨c, .write ((l.info a).address + offset) bytes⟩ :=
  ⟨⟨a, offset, rfl, hfit, ho, hn, hpos, hlen, he⟩,
    l.sparesMaster_of_area hl hfit fun _ _ _ => .inr hpast,
    .inl (l.keepsOffMasters_of_past hl hfit hpast)⟩

theorem proper_writeMaster (hl : l.Valid) {c : Chip} {a : Area} {version : UInt16}
    (he : Erased (l.bytes c.cells a) 0 l.masterSize)
    (hs : ∀ a' v, activeOf l c.cells = some (a', v) → a' ≠ a)
    (hnext : masterIn l c.cells a.other = none ∨
      ∃ v, activeOf l c.cells = some (a.other, v) ∧ version = v + 1) :
    Event.Proper l ⟨c, .write ((l.info a).address + 0)
      (image l.geometry masterType 0 (masterPayload version))⟩ := by
  have hsize : (image l.geometry masterType 0 (masterPayload version)).size = l.masterSize :=
    size_image _ _ _ _
  have hm := hl.masterSize_le_areaSize
  have hpos := l.masterSize_pos
  refine ⟨⟨a, 0, rfl, by omega, Nat.dvd_zero _, ?_, by omega, ?_, ?_⟩,
    l.sparesMaster_of_area hl (by omega) fun a' v hact => .inl (hs a' v hact),
    .inr ⟨a, version, rfl, rfl, hnext⟩⟩
  · rw [hsize]
    exact hl.writeSize_dvd (Nat.dvd_of_mod_eq_zero (masterSize_mod _))
  · rw [hsize]
    exact Record.masterSize_le_sixtyFour hl.supported
  · rw [Nat.zero_add, hsize]
    exact he

theorem proper_erase (hl : l.Valid) {c : Chip} {a : Area}
    (hs : ∀ a' v, activeOf l c.cells = some (a', v) → a' ≠ a) :
    Event.Proper l ⟨c, .erase (l.info a).address ((l.info a).address + l.areaSize)⟩ := by
  refine ⟨⟨a, rfl, rfl⟩, ?_, trivial⟩
  have h : l.SparesMaster c.cells ((l.info a).address + 0) ((l.info a).address + 0 + l.areaSize) :=
    l.sparesMaster_of_area hl (Nat.le_of_eq (Nat.zero_add _)) fun a' v hact => .inl (hs a' v hact)
  simp only [Nat.add_zero] at h
  exact h

/-- The pieces of a write still to come, from `start` on, are erased and on the 64-byte grid. -/
structure PieceReady (l : Layout) (cells : ByteArray) (a : Area) (offset start stop : Nat) :
    Prop where
  inside : l.Inside cells.size
  le : start ≤ stop
  grid : start = stop ∨ start % scratchSize = 0
  erased : Erased (l.bytes cells a) (offset + start) (offset + stop)
  past : l.masterSize ≤ offset

section Pieces

variable {cells : ByteArray} {a : Area} {offset start stop : Nat}

theorem PieceReady.proper (hl : l.Valid) (h : PieceReady l cells a offset start stop)
    (ho : l.geometry.recordAlignment ∣ offset) (hstop : l.geometry.recordAlignment ∣ stop)
    (hfit : offset + stop ≤ l.areaSize) (hlt : start < stop) {c : Chip} (hc : c.cells = cells)
    {bytes : ByteArray} (hsize : bytes.size = min (stop - start) scratchSize) :
    Event.Proper l ⟨c, .write ((l.info a).address + (offset + start)) bytes⟩ := by
  have h64 := hl.supported.recordAlignment_dvd
  have hstart : l.geometry.recordAlignment ∣ start :=
    Nat.dvd_trans h64 (Nat.dvd_of_mod_eq_zero (h.grid.resolve_left (by omega)))
  have hm : l.geometry.recordAlignment ∣ bytes.size :=
    hsize ▸ dvd_min_of_dvd (Nat.dvd_sub hstop hstart) h64
  exact proper_write hl (by omega) (hl.writeSize_dvd (Nat.dvd_add ho hstart)) (hl.writeSize_dvd hm)
    (by simp only [scratchSize] at hsize; omega) (by simp only [scratchSize] at hsize ⊢; omega)
    (hc ▸ h.erased.mono (Nat.le_refl _) (by omega)) (Nat.le_trans h.past (Nat.le_add_right _ _))

omit [Crc] in
theorem PieceReady.next (h : PieceReady l cells a offset start stop) (hfit : offset + stop ≤ l.areaSize)
    (hlt : start < stop) {bytes : ByteArray} (hsize : bytes.size = min (stop - start) scratchSize) :
    PieceReady l (Chip.programCells cells ((l.info a).address + (offset + start)) bytes) a offset
      (start + bytes.size) stop := by
  have hfit' : offset + start + bytes.size ≤ l.areaSize := by
    simp only [scratchSize] at hsize; omega
  have hA := Layout.size_bytes h.inside a
  have hself := Layout.bytes_programCells_self h.inside a hfit'
    (h.erased.mono (Nat.le_refl _) (by simp only [scratchSize] at hsize; omega))
  refine ⟨by rw [Chip.size_programCells]; exact h.inside, by simp only [scratchSize] at hsize; omega,
    ?_, ?_, h.past⟩
  · -- a piece shorter than 64 bytes is the last one
    by_cases hfull : bytes.size = scratchSize
    · right
      rw [hfull, Nat.add_mod_right]
      exact h.grid.resolve_left (by omega)
    · left
      simp only [scratchSize] at hsize hfull
      omega
  · rw [hself]
    exact erased_overwrite_after (by rw [hA]; exact hfit') (h.erased.mono (by omega) (Nat.le_refl _))
      (by omega)

end Pieces

namespace Recorder

/-! ### Records -/

theorem adds_readWindow (hl : l.Valid) (a : Area) {offset : Nat}
    (ho : l.geometry.recordAlignment ∣ offset) (r : Recorder) :
    AddsF (Event.Proper l) (readWindow l a offset) r := by
  unfold readWindow
  dsimp only
  split
  · exact AddsF.pure _ r
  -- the window is the rest of the area or 64 bytes, both whole read units
  refine AddsF.bind (adds_read fun hfit => proper_read hfit (hl.readSize_dvd ho)
    (dvd_min_of_dvd (Nat.dvd_sub (hl.readSize_dvd hl.dvd_areaSize) (hl.readSize_dvd ho))
      hl.supported.readSize_dvd_sixtyFour) (Nat.min_le_right _ _)) fun bytes r' _ => ?_
  split
  · exact AddsF.pure _ r'
  split
  · exact AddsF.pure _ r'
  split
  · exact AddsF.pure _ r'
  · exact AddsF.throw _ r'

theorem adds_readPieces (hl : l.Valid) (a : Area) (offset : Nat) :
    ∀ (ps : List (Nat × Nat)) (acc : ByteArray) (r : Recorder),
      (∀ p ∈ ps, l.geometry.readSize ∣ offset + p.1 ∧ p.2 ≤ scratchSize) →
      Adds (Event.Proper l) (readPieces l a offset ps acc) r
  | [], acc, r, _ => Adds.pure _ r
  | (p, n) :: rest, acc, r, hps => by
    have hp := hps (p, n) List.mem_cons_self
    unfold readPieces
    refine Adds.bind (adds_read fun hfit => proper_read hfit hp.1 (readSize_dvd_readLength n)
      (readLength_le hl hp.2)) fun res r' _ => ?_
    rcases res with _ | bytes
    · exact Adds.pure _ r'
    · exact adds_readPieces hl a offset rest _ r' fun q hq => hps q (List.mem_cons_of_mem _ hq)

theorem adds_readAt (hl : l.Valid) (a : Area) {offset : Nat}
    (ho : l.geometry.recordAlignment ∣ offset) (capacity : Option Nat) (r : Recorder)
    (hin : l.Inside r.chip.cells.size) : Adds (Event.Proper l) (readAt l a offset capacity) r := by
  unfold readAt
  refine Adds.bind (adds_readWindow hl a ho r) fun w r' hw => ?_
  rcases w with e | _ | ⟨hd, bytes⟩
  · exact Adds.pure _ r'
  · exact Adds.pure _ r'
  obtain ⟨hsize, -, -⟩ := readWindow_some hin hw
  dsimp only
  split
  · exact Adds.pure _ r'
  refine Adds.bind (adds_readPieces hl a offset _ _ r' fun q hq => ⟨?_, ?_⟩) fun res r'' _ => ?_
  · -- the pieces past a full window start on 64-byte boundaries
    rw [hsize] at hq
    by_cases hlt : windowLength l offset < headerSize + hd.payloadSize
    · rw [Nat.min_eq_left (Nat.le_of_lt hlt)] at hq
      exact Nat.dvd_add (hl.readSize_dvd ho) (dvd_start_of_mem_pieces hq
        hl.supported.readSize_dvd_sixtyFour
        (dvd_min_of_dvd (Nat.dvd_sub (hl.readSize_dvd hl.dvd_areaSize) (hl.readSize_dvd ho))
          hl.supported.readSize_dvd_sixtyFour))
    · rw [Nat.min_eq_right (by omega), pieces_of_le (Nat.le_refl _)] at hq
      cases hq
  · exact (bounds_of_mem_pieces hq).2.1
  obtain ⟨failure, payload⟩ := res
  dsimp only
  split
  · exact Adds.pure _ _
  split
  · exact Adds.pure _ _
  · exact Adds.pure _ _

theorem adds_programPieces (hl : l.Valid) (a : Area) (offset : Nat) (B : ByteArray) (stop : Nat)
    (ho : l.geometry.recordAlignment ∣ offset) (hstop : l.geometry.recordAlignment ∣ stop)
    (hfit : offset + stop ≤ l.areaSize) (hB : stop ≤ B.size) :
    ∀ start (r : Recorder), PieceReady l r.chip.cells a offset start stop →
      AddsF (Event.Proper l) (forIn (pieces start stop) PUnit.unit fun x _ => do
        l.write a (offset + x.1) (B.extract x.1 (x.1 + x.2))
        pure (ForInStep.yield PUnit.unit)) r := by
  intro start
  fun_induction pieces start stop with
  | case1 start hlt m ih =>
    intro r hr
    have hsize : (B.extract start (start + m)).size = min (stop - start) scratchSize := by
      simp only [ByteArray.size_extract, m, scratchSize]; omega
    rw [List.forIn_cons]
    simp only [bind_assoc, pure_bind]
    refine AddsF.bind (adds_write fun _ => hr.proper hl ho hstop hfit hlt rfl hsize)
      fun _ r' hw => ?_
    -- the piece is programmed, and the rest of the target is still erased
    have hcells := cells_of_write_ok hr.inside (by rw [hsize]; simp only [scratchSize]; omega) hw
    have hnext := hr.next hfit hlt hsize
    rw [← hcells, hsize] at hnext
    exact ih r' hnext
  | case2 start hge =>
    intro r _
    exact AddsF.pure _ r

theorem adds_program (hl : l.Valid) (a : Area) {offset : Nat}
    (ho : l.geometry.recordAlignment ∣ offset) (type flags : UInt8) (data : ByteArray)
    (r : Recorder) (hin : l.Inside r.chip.cells.size)
    (he : Erased (l.bytes r.chip.cells a) offset (offset + l.recordSize data.size))
    (hpast : l.masterSize ≤ offset) :
    AddsF (Event.Proper l) (program l a offset type flags data) r := by
  unfold program
  dsimp only
  split
  · exact AddsF.throw _ r
  refine AddsF.bind (adds_programPieces hl a offset _ _ ho (recordAlignment_dvd_recordSize l _)
    (by omega) (Nat.le_of_eq (size_image _ _ _ _).symm) 0 r
    ⟨hin, Nat.zero_le _, .inr rfl, by rw [Nat.add_zero]; exact he, hpast⟩)
    fun _ r' _ => AddsF.pure _ r'

theorem adds_write_record (hl : l.Valid) (a : Area) {offset : Nat}
    (ho : l.geometry.recordAlignment ∣ offset) (type flags : UInt8) (data : ByteArray)
    (r : Recorder) (hin : l.Inside r.chip.cells.size)
    (he : Erased (l.bytes r.chip.cells a) offset (offset + l.recordSize data.size))
    (hpast : l.masterSize ≤ offset) :
    AddsF (Event.Proper l) (Record.write l a offset type flags data) r := by
  unfold Record.write
  split
  · exact AddsF.throw _ r
  · exact adds_program hl a ho type flags data r hin he hpast

theorem adds_writeMaster (hl : l.Valid) (a : Area) (version : UInt16) (r : Recorder)
    (he : Erased (l.bytes r.chip.cells a) 0 l.masterSize)
    (hs : ∀ a' v, activeOf l r.chip.cells = some (a', v) → a' ≠ a)
    (hnext : masterIn l r.chip.cells a.other = none ∨
      ∃ v, activeOf l r.chip.cells = some (a.other, v) ∧ version = v + 1) :
    AddsF (Event.Proper l) (writeMaster l a version) r := by
  have hsize : (image l.geometry masterType 0 (masterPayload version)).size = l.masterSize :=
    size_image _ _ _ _
  -- a master record takes one piece, so the image is written whole, in one write
  have hone : pieces 0 l.masterSize = [(0, l.masterSize)] := by
    have hsmall : l.masterSize ≤ scratchSize := Record.masterSize_le_sixtyFour hl.supported
    rw [pieces_of_lt l.masterSize_pos, Nat.sub_zero, Nat.min_eq_left hsmall, Nat.zero_add,
      pieces_of_le (Nat.le_refl _)]
  unfold writeMaster program
  dsimp only
  split
  · exact AddsF.throw _ r
  rw [show l.recordSize (masterPayload version).size = l.masterSize from rfl, hone]
  simp only [List.forIn_cons, List.forIn_nil, bind_assoc, pure_bind, Nat.zero_add]
  rw [← hsize, ByteArray.extract_zero_size]
  exact AddsF.bind (adds_write fun _ => proper_writeMaster hl he hs hnext) fun _ r' _ =>
    AddsF.pure _ r'

theorem adds_copyPieces (hl : l.Valid) (source : Area) (sourceOffset : Nat) (target : Area)
    (targetOffset stop : Nat) (hso : l.geometry.recordAlignment ∣ sourceOffset)
    (hto : l.geometry.recordAlignment ∣ targetOffset) (hstop : l.geometry.recordAlignment ∣ stop)
    (hfit : targetOffset + stop ≤ l.areaSize) :
    ∀ start (r : Recorder), PieceReady l r.chip.cells target targetOffset start stop →
      AddsF (Event.Proper l) (forIn (pieces start stop) PUnit.unit fun x _ => do
        let bytes ← l.read source (sourceOffset + x.1) x.2
        l.write target (targetOffset + x.1) bytes
        pure (ForInStep.yield PUnit.unit)) r := by
  intro start
  fun_induction pieces start stop with
  | case1 start hlt m ih =>
    intro r hr
    have h64 := hl.supported.recordAlignment_dvd
    have hstart : l.geometry.recordAlignment ∣ start :=
      Nat.dvd_trans h64 (Nat.dvd_of_mod_eq_zero (hr.grid.resolve_left (by omega)))
    have hm : l.geometry.recordAlignment ∣ m := dvd_min_of_dvd (Nat.dvd_sub hstop hstart) h64
    rw [List.forIn_cons]
    simp only [bind_assoc, pure_bind]
    refine AddsF.bind (adds_read fun _ => proper_read (by omega)
      (hl.readSize_dvd (Nat.dvd_add hso hstart)) (hl.readSize_dvd hm) (Nat.min_le_right _ _))
      fun bytes r' hread => ?_
    -- the piece read is the source's bytes, and reading kept the cells
    obtain ⟨hfitr, rfl, hkeep⟩ := read_ok hr.inside hread
    have hsize : ((l.bytes r.chip.cells source).extract (sourceOffset + start)
        (sourceOffset + start + m)).size = min (stop - start) scratchSize := by
      simp only [ByteArray.size_extract, Layout.size_bytes hr.inside]; omega
    have hr' : PieceReady l r'.chip.cells target targetOffset start stop := hkeep ▸ hr
    refine AddsF.bind (adds_write fun _ => hr'.proper hl hto hstop hfit hlt rfl hsize)
      fun _ r'' hw => ?_
    have hcells := cells_of_write_ok hr'.inside (by rw [hsize]; simp only [scratchSize]; omega) hw
    have hnext := hr'.next hfit hlt hsize
    rw [← hcells, hsize] at hnext
    exact ih r'' hnext
  | case2 start hge =>
    intro r _
    exact AddsF.pure _ r

theorem adds_copy (hl : l.Valid) (source : Area) {sourceOffset : Nat} (target : Area)
    {targetOffset : Nat} (hso : l.geometry.recordAlignment ∣ sourceOffset)
    (hto : l.geometry.recordAlignment ∣ targetOffset) (r : Recorder)
    (hin : l.Inside r.chip.cells.size) (hblank : Blank (l.bytes r.chip.cells target) targetOffset)
    (hpast : l.masterSize ≤ targetOffset) :
    AddsF (Event.Proper l) (copy l source sourceOffset target targetOffset) r := by
  unfold copy
  refine AddsF.bind (adds_readWindow hl source hso r) fun w r' hw => ?_
  rcases w with _ | ⟨hd, bytes⟩
  · exact AddsF.throw _ r'
  obtain ⟨-, -, hkeep⟩ := readWindow_some hin hw
  dsimp only
  split
  · exact AddsF.throw _ r'
  refine AddsF.bind (adds_copyPieces hl source sourceOffset target targetOffset _ hso hto
    (recordAlignment_dvd_recordSize l _) (by omega) 0 r'
    ⟨hkeep ▸ hin, Nat.zero_le _, .inr rfl, ?_, hpast⟩) fun _ r'' _ => AddsF.pure _ r''
  rw [hkeep, Nat.add_zero]
  exact hblank.erased _

end Recorder

/-! ### Logs and generations -/

variable [LawfulCrc]

theorem walk_on_grid (hl : l.Valid) {a : Area} {c : Chip} (hin : l.Inside c.cells.size)
    {w : Walk} (hw : ((walk l a).run c).1 = w) (hstop : w.stop ≠ some .readError) :
    (∀ e ∈ w.entries, l.geometry.recordAlignment ∣ e.offset) ∧
      l.geometry.recordAlignment ∣ w.next := by
  rcases (walkFrom_run hl a l.masterSize c hin).2 with h | ⟨-, h⟩
  · rw [← hw]
    unfold walk
    rw [h]
    exact logOf_on_grid hl hin a
  · exact absurd (hw ▸ h) hstop

namespace Recorder

theorem adds_walkFrom (hl : l.Valid) (a : Area) (offset : Nat)
    (ho : l.geometry.recordAlignment ∣ offset) (r : Recorder) (hin : l.Inside r.chip.cells.size) :
    Adds (Event.Proper l) (walkFrom l a offset) r := by
  rw [walkFrom]
  refine Adds.bind (adds_readAt hl a ho none r hin) fun fetch r' hf => ?_
  have hchip := (mirrors_readAt l a offset none).run_chip r
  rw [hf] at hchip
  obtain ⟨hk, hres⟩ := readAt_run hl hin a offset none
  rw [hchip] at hk hres
  dsimp only at hk hres
  rcases fetch with ⟨e | _ | e, delivered⟩
  · exact Adds.pure _ r'
  · exact Adds.pure _ r'
  dsimp only
  split
  · exact Adds.pure _ r'
  split
  · -- the next record starts where this one ends, on the grid
    have hdec : decode l.geometry (l.bytes r.chip.cells a) offset = .ok (some e) := by
      rcases hres with hres | ⟨-, hout⟩
      · rw [← fetch_outcome_none (Layout.size_bytes hin a), ← hres]
      · cases hout
    exact Adds.bind (adds_walkFrom hl a e.next (decode_next_dvd hdec ho) r' (hk.inside hin))
      fun _ r₂ _ => Adds.pure _ r₂
  · exact Adds.pure _ r'
termination_by l.areaSize - offset

theorem adds_walk (hl : l.Valid) (a : Area) (r : Recorder) (hin : l.Inside r.chip.cells.size) :
    Adds (Event.Proper l) (walk l a) r :=
  adds_walkFrom hl a l.masterSize (Nat.dvd_of_mod_eq_zero (masterSize_mod _)) r hin

omit [LawfulCrc] in
theorem adds_allErased (a : Area) :
    ∀ (ps : List (Nat × Nat)) (r : Recorder),
      (∀ p ∈ ps, l.geometry.readSize ∣ p.1 ∧ l.geometry.readSize ∣ p.2 ∧ p.2 ≤ scratchSize) →
      AddsF (Event.Proper l) (allErased l a ps) r
  | [], r, _ => AddsF.pure _ r
  | (p, n) :: rest, r, hps => by
    have hp := hps (p, n) List.mem_cons_self
    unfold allErased
    refine AddsF.bind (adds_read fun hfit => proper_read hfit hp.1 hp.2.1 hp.2.2)
      fun bytes r' _ => ?_
    split
    · exact adds_allErased a rest r' fun q hq => hps q (List.mem_cons_of_mem _ hq)
    · exact AddsF.pure _ r'

omit [LawfulCrc] in
theorem adds_isBlankFrom (hl : l.Valid) (a : Area) {offset : Nat}
    (ho : l.geometry.recordAlignment ∣ offset) (r : Recorder) :
    AddsF (Event.Proper l) (isBlankFrom l a offset) r :=
  adds_allErased a _ r fun p hp => by
    obtain ⟨h1, h2⟩ := dvd_of_mem_pieces hp hl.supported.readSize_dvd_sixtyFour
      (hl.readSize_dvd ho) (hl.readSize_dvd hl.dvd_areaSize)
    exact ⟨h1, h2, (bounds_of_mem_pieces hp).2.1⟩

omit [LawfulCrc] in
theorem adds_readMaster (hl : l.Valid) (a : Area) (r : Recorder)
    (hin : l.Inside r.chip.cells.size) : AddsF (Event.Proper l) (readMaster l a) r := by
  unfold readMaster
  refine AddsF.lift_bind (adds_readAt hl a (Nat.dvd_zero _) none r hin) fun fetch r' _ => ?_
  split
  · exact AddsF.pure _ r'
  · exact AddsF.pure _ r'
  · exact AddsF.pure _ r'
  · exact AddsF.throw _ r'

theorem adds_selectActive (hl : l.Valid) (r : Recorder) (hin : l.Inside r.chip.cells.size) :
    AddsF (Event.Proper l) (selectActive l) r := by
  unfold selectActive
  refine AddsF.bind (adds_readMaster hl .first r hin) fun first r' h1 => ?_
  have hk := (readMaster_run hl hin .first).1
  rw [(mirrors_readMaster l .first).run_chip h1] at hk
  exact AddsF.bind (adds_readMaster hl .second r' (hk.inside hin)) fun _ r₂ _ => AddsF.pure _ r₂

theorem adds_scan (hl : l.Valid) (count : Nat) (r : Recorder) (hin : l.Inside r.chip.cells.size) :
    AddsF (Event.Proper l) (scan l count) r := by
  unfold scan
  refine AddsF.bind (adds_selectActive hl r hin) fun active r' hs => ?_
  have hk := (selectActive_run hl hin).1
  rw [(mirrors_selectActive l).run_chip hs] at hk
  rcases active with _ | ⟨area, version⟩
  · exact AddsF.throw _ r'
  have hin' : l.Inside r'.chip.cells.size := hk.inside hin
  refine AddsF.lift_bind (adds_walk hl area r' hin') fun w r₂ hw => ?_
  have hchip := (mirrors_walk l area).run_chip r'
  rw [hw] at hchip
  have hwalk : ((walk l area).run r'.chip).1 = w := by rw [hchip]
  -- the free space is checked from the log's end, which is on the grid
  have hblank : w.stop.isNone = true →
      AddsF (Event.Proper l) (isBlankFrom l area w.next) r₂ := fun hnone =>
    adds_isBlankFrom hl area (walk_on_grid hl hin' hwalk (by
      intro h; rw [h] at hnone; cases hnone)).2 r₂
  dsimp only
  split
  · split
    · exact AddsF.bind (hblank (by assumption)) fun _ r₃ _ => AddsF.pure _ r₃
    · exact AddsF.bind (AddsF.pure _ r₂) fun _ r₃ _ => AddsF.pure _ r₃
  · exact AddsF.throw _ r₂
  · split
    · exact AddsF.bind (hblank (by assumption)) fun _ r₃ _ => AddsF.pure _ r₃
    · exact AddsF.bind (AddsF.pure _ r₂) fun _ r₃ _ => AddsF.pure _ r₃

omit [LawfulCrc] in
theorem adds_loadValue (hl : l.Valid) (a : Area) {offset : Nat}
    (ho : l.geometry.recordAlignment ∣ offset) (type : UInt8) (capacity : Option Nat)
    (r : Recorder) (hin : l.Inside r.chip.cells.size) :
    Adds (Event.Proper l) (loadValue l a offset type capacity) r :=
  Adds.bind (adds_readAt hl a ho capacity r hin) fun _ r' _ => Adds.pure _ r'

theorem adds_probeFlash (hl : l.Valid) (type : UInt8) (capacity : Nat) (r : Recorder)
    (hin : l.Inside r.chip.cells.size) :
    Adds (Event.Proper l) (Store.probeFlash l type capacity) r := by
  unfold Store.probeFlash
  refine Adds.bind (adds_selectActive hl r hin) fun active r' hs => ?_
  have hk := (selectActive_run hl hin).1
  rw [(mirrors_selectActive l).run_chip hs] at hk
  rcases active with e | _ | ⟨area, version⟩
  · exact Adds.pure _ r'
  · exact Adds.pure _ r'
  have hin' : l.Inside r'.chip.cells.size := hk.inside hin
  refine Adds.bind (adds_walk hl area r' hin') fun w r₂ hw => ?_
  have hchip := (mirrors_walk l area).run_chip r'
  rw [hw] at hchip
  have hwalk : ((walk l area).run r'.chip).1 = w := by rw [hchip]
  have hin₂ : l.Inside r₂.chip.cells.size := by
    have hk₂ := (walkFrom_run hl area l.masterSize r'.chip hin').1
    rw [show walkFrom l area l.masterSize = walk l area from rfl, hchip] at hk₂
    exact hk₂.inside hin'
  -- the value is read from a record of the log, on the grid
  have hload : w.stop ≠ some .readError → ∀ offset,
      Store.lastValueAt type w.entries = some offset →
      Adds (Event.Proper l) (loadValue l area offset type (some capacity)) r₂ :=
    fun hstop offset hlast => adds_loadValue hl area
      (lastValueAt_on_grid hlast (walk_on_grid hl hin' hwalk hstop).1) type _ r₂ hin₂
  dsimp only
  -- a walk ended by corrupt data is read up to it; any other failure is the answer
  split
  · split
    · exact Adds.pure _ r₂
    · split
      · exact Adds.pure _ r₂
      · rename_i _ e hstop hne _ offset hlast
        exact hload (by rw [hstop]; intro h; cases h; exact hne (by decide)) offset hlast
  · split
    · exact Adds.pure _ r₂
    · rename_i _ hnone _ offset hlast
      exact hload (fun h => hnone _ h) offset hlast

end Recorder

end NorStore
