import NorStore.Proofs.CallTrace

/-! # The flash discipline of a session

NOR flash can only clear bits when it programs, and erases whole blocks. A store that programs a
byte twice corrupts it, so every write must land on erased bytes; and a store that reads, writes
or erases across the units of the device, or out of its partition, asks for what the device
cannot do. This module states what every call of every session asks of the flash, read off the
recorder's log (`Call.accesses`), in absolute addresses as the device sees them:

* every write targets bytes that all read `0xFF` at that moment, so the programming stores
  exactly the bytes written, and every erase clears one whole area
  (`writes_land_on_erased_flash`);
* every read and write is of whole read or write units inside one area and fits the 64-byte
  buffer, and every erase starts and ends on erase-block boundaries, once the erase size is a
  multiple of both access units (`session_accesses_aligned`).

The same theorem collects what the store computes from what the flash says without ever going out
of range: the bytes a read delivers never outgrow the caller's buffer, whatever the device
answers (`readAt_delivered_le`), the used bytes of the statistics never exceed the area, and an
area holds its master record and one header, so the largest value is computed without
underflow.
-/

namespace NorStore

open Record Generation Index Log Store

variable {l : Layout}

/-! ### What a read delivers -/

section Delivered

variable {δ : Type} [NorFlash δ]

theorem readPieces_delivered_le (a : Area) (offset : Nat) :
    ∀ (ps : List (Nat × Nat)) (acc : ByteArray) (d : δ),
      ((readPieces l a offset ps acc).run d).1.2.size ≤
        acc.size + ps.foldr (fun piece n => piece.2 + n) 0
  | [], acc, d => Nat.le_refl _
  | (p, n) :: rest, acc, d => by
    simp only [readPieces, StateT.run_bind]
    rcases (l.read a (offset + p) (l.geometry.readLength n) : FlashM δ ByteArray).run.run d
      with ⟨_ | bytes, d'⟩
    · show acc.size ≤ _
      omega
    · have ih := readPieces_delivered_le a offset rest (acc ++ bytes.extract 0 n) d'
      show ((readPieces l a offset rest (acc ++ bytes.extract 0 n)).run d').1.2.size ≤ _
      simp only [ByteArray.size_append, ByteArray.size_extract, List.foldr_cons] at ih ⊢
      omega

theorem headerSize_le_of_ofBytes {bytes : ByteArray} {hd : Header}
    (h : Header.ofBytes? (bytes.extract 0 headerSize).toList = some hd) :
    headerSize ≤ bytes.size := by
  have hlen : 8 ≤ (bytes.extract 0 headerSize).toList.length := by
    unfold Header.ofBytes? at h
    split at h
    · rename_i heq
      rw [heq]
      simp
    · cases h
  rw [ByteArray.toList_eq_data_toList, Array.length_toList, ByteArray.size_data,
    ByteArray.size_extract] at hlen
  simp only [headerSize] at hlen ⊢
  omega

theorem readWindow_header_le {a : Area} {offset : Nat} {hd : Header} {bytes : ByteArray}
    {d d' : δ} (h : (readWindow l a offset).run.run d = (.ok (some (hd, bytes)), d')) :
    headerSize ≤ bytes.size := by
  unfold readWindow at h
  dsimp only at h
  split at h
  · cases h
  rw [FlashM.run_bind] at h
  generalize (l.read a offset _ : FlashM δ ByteArray).run.run d = q at h
  obtain ⟨_ | bytes', d₁⟩ := q
  · cases h
  dsimp only at h
  split at h
  · cases h
  split at h
  · cases h
  · rename_i hd' hparse
    split at h
    · cases h
      exact headerSize_le_of_ofBytes hparse
    · cases h

variable [Crc]

theorem readAt_delivered_le (a : Area) (offset n : Nat) (d : δ) :
    ((readAt l a offset (some n)).run d).1.delivered.size ≤ n := by
  unfold readAt
  rw [StateM.run_bind]
  generalize hw : (readWindow l a offset).run.run d = q
  obtain ⟨w, d₁⟩ := q
  rcases w with e | _ | ⟨hd, bytes⟩
  · exact Nat.zero_le _
  · exact Nat.zero_le _
  have hbytes := readWindow_header_le hw
  dsimp only
  split
  · exact Nat.zero_le _
  rename_i hcap
  have hn : hd.payloadSize ≤ n := by simpa using hcap
  rw [StateM.run_bind]
  -- the window's payload bytes and the pieces after them make up the payload
  have hpieces := readPieces_delivered_le (l := l) a offset
    (pieces (min bytes.size (headerSize + hd.payloadSize)) (headerSize + hd.payloadSize))
    (bytes.extract headerSize (min bytes.size (headerSize + hd.payloadSize))) d₁
  rw [sum_length_pieces, ByteArray.size_extract] at hpieces
  generalize (readPieces l a offset _ _).run d₁ = q at hpieces
  obtain ⟨⟨failure, payload⟩, d₂⟩ := q
  dsimp only at hpieces ⊢
  have hsize : payload.size ≤ n := by omega
  split
  · exact hsize
  split
  · exact hsize
  · exact hsize

theorem loadValue_delivered_le (a : Area) (offset : Nat) (type : UInt8) (n : Nat) (d : δ) :
    ((loadValue l a offset type (some n)).run d).1.2.size ≤ n :=
  readAt_delivered_le a offset n d

theorem readValue_delivered_le (type : UInt8) (n : Nat) (p : Store × δ) :
    ((readValue type (some n)).run p).1.2.size ≤ n := by
  unfold readValue
  rw [StateM.run_bind]
  generalize ((do checkType type; loaded : StoreM δ Index).run.run p) = q
  obtain ⟨_ | i, s₁, d₁⟩ := q
  · exact Nat.zero_le _
  dsimp only
  rw [StateM.run_bind, run_current_state]
  dsimp only
  split
  · exact Nat.zero_le _
  · rw [StateM.run_bind, run_onDevice]
    exact loadValue_delivered_le _ _ _ _ _

theorem probeFlash_delivered_le (type : UInt8) (n : Nat) (d : δ) :
    ((probeFlash l type n).run d).1.2.size ≤ n := by
  unfold probeFlash
  rw [StateM.run_bind]
  generalize ((selectActive l).run.run d) = q
  obtain ⟨_ | _ | ⟨area, version⟩, d₁⟩ := q
  · exact Nat.zero_le _
  · exact Nat.zero_le _
  dsimp only
  rw [StateM.run_bind]
  generalize (Log.walk l area).run d₁ = q
  obtain ⟨w, d₂⟩ := q
  dsimp only
  split
  · split
    · exact Nat.zero_le _
    · split
      · exact Nat.zero_le _
      · exact loadValue_delivered_le _ _ _ _ _
  · split
    · exact Nat.zero_le _
    · exact loadValue_delivered_le _ _ _ _ _

omit [Crc] in
theorem size_overwriteFront {buffer v : ByteArray} (h : v.size ≤ buffer.size) :
    (overwriteFront buffer v).size = buffer.size := by
  rw [overwriteFront_eq_append, ByteArray.size_append, ByteArray.size_extract]
  omega

theorem get_buffer_size (type : UInt8) (buffer : ByteArray) (p : Store × δ) :
    ((get type buffer).run p).1.buffer.size = buffer.size := by
  rw [run_get]
  exact size_overwriteFront (readValue_delivered_le type _ p)

theorem probe_buffer_size (type : UInt8) (buffer : ByteArray) (s : Store) (d : δ) :
    ((probe type buffer).run (s, d)).1.buffer.size = buffer.size := by
  unfold probe
  split
  · rfl
  · rw [StateM.run_bind, run_current_state]
    dsimp only
    rw [StateM.run_bind, run_onDevice]
    exact size_overwriteFront (probeFlash_delivered_le type _ d)

end Delivered

variable [Crc] [LawfulCrc]

theorem statistics_balanced {s : Store} {c : Chip} (h : s.Consistent c) {st : Statistics}
    (hst : ((statistics : StoreM Chip Statistics).run.run (s, c)).1 = .ok st) :
    st.usedBytes + st.freeBytes = st.areaSize := by
  obtain ⟨r, c', hrun, -, hin, hfrom⟩ := statistics_run h.toMounted
  rw [hrun] at hst
  cases r with
  | error e => cases hst
  | ok i =>
    obtain rfl := Except.ok.inj hst
    have hcoh := coherent_of_from h.sound (from_of_loaded rfl hfrom)
    have hfree := (hcoh.free_bounds h.valid hin).2
    dsimp only
    omega

/-! ### Addresses on the flash -/

omit [Crc] [LawfulCrc] in
theorem Layout.eraseSize_dvd_of_create {g : Geometry} {offset size : Nat}
    (h : Layout.create g offset size = .ok l) :
    l.geometry.eraseSize ∣ l.base ∧ l.geometry.eraseSize ∣ l.areaSize := by
  obtain ⟨⟨hoff, -, hsize, -⟩, rfl⟩ := Layout.create_eq_ok_iff.mp h
  refine ⟨Nat.dvd_of_mod_eq_zero hoff, ?_⟩
  obtain ⟨k, hk⟩ := Nat.dvd_of_mod_eq_zero hsize
  refine ⟨k, ?_⟩
  show size / 2 = g.eraseSize * k
  rw [hk, Nat.mul_assoc, Nat.mul_div_cancel_left _ (by decide)]

omit [Crc] [LawfulCrc] in
theorem Layout.dvd_address {A : Nat} (hb : A ∣ l.base) (ha : A ∣ l.areaSize) (a : Area) :
    A ∣ (l.info a).address :=
  Nat.dvd_add hb (Dvd.dvd.mul_left ha _)

omit [Crc] [LawfulCrc] in
theorem Layout.erased_of_bytes {cells : ByteArray} {a : Area} {offset n : Nat}
    (hfit : offset + n ≤ l.areaSize) (h : Erased (l.bytes cells a) offset (offset + n)) :
    Erased cells ((l.info a).address + offset) ((l.info a).address + offset + n) := by
  intro i hi h1 h2
  obtain ⟨j, rfl⟩ : ∃ j, i = (l.info a).address + j := ⟨i - (l.info a).address, by omega⟩
  have hj : j < (l.bytes cells a).size := by
    simp only [Layout.bytes, ByteArray.size_extract]
    omega
  have heq : (l.bytes cells a)[j] = cells[(l.info a).address + j] := ByteArray.getElem_extract hj
  rw [← heq]
  exact h j hj (by omega) (by omega)

omit [Crc] [LawfulCrc] in
theorem Chip.write_of_erased {c c' : Chip} {address : Nat} {bytes : ByteArray}
    (he : Erased c.cells address (address + bytes.size)) (hw : c.write address bytes = (true, c')) :
    c'.cells = Chip.overwriteCells c.cells address bytes := by
  unfold Chip.write at hw
  split at hw
  · rename_i hacc
    cases hw
    exact programCells_eq_overwriteCells hacc.2.2 he
  · cases hw

namespace Event

/-- An access on the device's grid, in absolute addresses, inside one area and the buffer. -/
def Aligned (l : Layout) (e : Event) : Prop :=
  match e.access with
  | .read address length => l.geometry.readSize ∣ address ∧ l.geometry.readSize ∣ length ∧
      length ≤ scratchSize ∧
      ∃ a, (l.info a).address ≤ address ∧ address + length ≤ (l.info a).address + l.areaSize
  | .write address bytes => 0 < bytes.size ∧ bytes.size ≤ scratchSize ∧
      l.geometry.writeSize ∣ address ∧ l.geometry.writeSize ∣ bytes.size ∧
      ∃ a, (l.info a).address ≤ address ∧ address + bytes.size ≤ (l.info a).address + l.areaSize
  | .erase start stop => l.geometry.eraseSize ∣ start ∧ l.geometry.eraseSize ∣ stop

variable {e : Event}

omit [Crc] [LawfulCrc] in
theorem Fits.aligned (h : e.Fits l) (hread : l.geometry.readSize ∣ l.geometry.eraseSize)
    (hwrite : l.geometry.writeSize ∣ l.geometry.eraseSize)
    (hb : l.geometry.eraseSize ∣ l.base) (ha : l.geometry.eraseSize ∣ l.areaSize) :
    e.Aligned l := by
  obtain ⟨before, access⟩ := e
  cases access with
  | read address length =>
    obtain ⟨a, offset, rfl, hfit, ho, hn, hlen⟩ := h
    exact ⟨Nat.dvd_add (l.dvd_address (hread.trans hb) (hread.trans ha) a) ho, hn, hlen, a,
      Nat.le_add_right _ _, by omega⟩
  | write address bytes =>
    obtain ⟨a, offset, rfl, hfit, ho, hn, hpos, hlen, -⟩ := h
    exact ⟨hpos, hlen, Nat.dvd_add (l.dvd_address (hwrite.trans hb) (hwrite.trans ha) a) ho, hn,
      a, Nat.le_add_right _ _, by omega⟩
  | erase start stop =>
    obtain ⟨a, rfl, rfl⟩ := h
    exact ⟨l.dvd_address hb ha a, Nat.dvd_add (l.dvd_address hb ha a) ha⟩

omit [Crc] [LawfulCrc] in
theorem Fits.erased_of_write (h : e.Fits l) {address : Nat} {bytes : ByteArray}
    (hw : e.access = .write address bytes) :
    Erased e.before.cells address (address + bytes.size) := by
  unfold Fits at h
  rw [hw] at h
  obtain ⟨a, offset, rfl, hfit, -, -, -, -, he⟩ := h
  exact Layout.erased_of_bytes hfit he

omit [Crc] [LawfulCrc] in
theorem Fits.area_of_erase (h : e.Fits l) {start stop : Nat} (hw : e.access = .erase start stop) :
    ∃ a, start = (l.info a).address ∧ stop = start + l.areaSize := by
  unfold Fits at h
  rw [hw] at h
  exact h

end Event

theorem Reachable.fits {p : Store × Chip} (hr : Reachable p) (call : Call) :
    ∀ e ∈ call.accesses p.1 p.2, e.Fits p.1.layout :=
  fun e he => ((Call.accesses_spec hr.consistent call).2 e he).1

/-! ### Every session -/

/-- Every write of a session lands on erased bytes, and every erase clears one whole area. -/
theorem writes_land_on_erased_flash {p : Store × Chip} (hr : Reachable p) (call : Call) :
    ((call.perform.run (p.1, Recorder.mk p.2 [])).1, (call.perform.run (p.1, Recorder.mk p.2 [])).2.1,
        (call.perform.run (p.1, Recorder.mk p.2 [])).2.2.chip) = call.run.run p ∧
      ∀ e ∈ call.accesses p.1 p.2,
        (∀ address bytes, e.access = .write address bytes →
          Erased e.before.cells address (address + bytes.size) ∧
          ∀ c', e.before.write address bytes = (true, c') →
            c'.cells = Chip.overwriteCells e.before.cells address bytes) ∧
        ∀ start stop, e.access = .erase start stop →
          ∃ a, start = (p.1.layout.info a).address ∧ stop = start + p.1.layout.areaSize := by
  refine ⟨Call.perform_mirrors call p.1 (Recorder.mk p.2 []), fun e he => ?_⟩
  have hfits := hr.fits call e he
  refine ⟨fun address bytes hw => ?_, fun start stop hw => hfits.area_of_erase hw⟩
  have herased := hfits.erased_of_write hw
  exact ⟨herased, fun c' hc' => Chip.write_of_erased herased hc'⟩

end NorStore

namespace NorStore

open Record Generation Index Log Store

/-- A value stored after a reset on a blank chip of two 64-byte areas. -/
theorem reset_chip_writes_land_on_erased_flash :
    let p := (Call.reset.run.run ({ layout := ⟨⟨1, 1, 64⟩, 0, 64⟩ }, Chip.erased 128)).2
    let call := Call.set 0 (ByteArray.mk #[1, 2, 3])
    Reachable p ∧
      ((call.perform.run (p.1, Recorder.mk p.2 [])).1,
          (call.perform.run (p.1, Recorder.mk p.2 [])).2.1,
          (call.perform.run (p.1, Recorder.mk p.2 [])).2.2.chip) = call.run.run p ∧
        ∀ e ∈ call.accesses p.1 p.2,
          (∀ address bytes, e.access = .write address bytes →
            Erased e.before.cells address (address + bytes.size) ∧
            ∀ c', e.before.write address bytes = (true, c') →
              c'.cells = Chip.overwriteCells e.before.cells address bytes) ∧
          ∀ start stop, e.access = .erase start stop →
            ∃ a, start = (p.1.layout.info a).address ∧ stop = start + p.1.layout.areaSize := by
  have hr : Reachable (Call.reset.run.run ({ layout := ⟨⟨1, 1, 64⟩, 0, 64⟩ }, Chip.erased 128)).2 :=
    .call .reset (.of_blank
      (show Store.create ⟨1, 1, 64⟩ 0 128 = .ok { layout := ⟨⟨1, 1, 64⟩, 0, 64⟩ } from rfl))
  -- the reset is not run: the theorem applies to whatever pair it reaches
  generalize (Call.reset.run.run ({ layout := ⟨⟨1, 1, 64⟩, 0, 64⟩ }, Chip.erased 128)).2 = q at hr ⊢
  exact ⟨hr, writes_land_on_erased_flash hr _⟩

end NorStore

namespace NorStore

open Record Generation Index Log Store

variable [Crc] [LawfulCrc]

/-- Every access of a session stays on the flash grid and inside one area; no size underflows. -/
theorem session_accesses_aligned {p : Store × Chip} (hr : Reachable p)
    (hread : p.1.layout.geometry.readSize ∣ p.1.layout.geometry.eraseSize)
    (hwrite : p.1.layout.geometry.writeSize ∣ p.1.layout.geometry.eraseSize) :
    (∀ call : Call,
      ((call.perform.run (p.1, Recorder.mk p.2 [])).1,
          (call.perform.run (p.1, Recorder.mk p.2 [])).2.1,
          (call.perform.run (p.1, Recorder.mk p.2 [])).2.2.chip) = call.run.run p ∧
        ∀ e ∈ call.accesses p.1 p.2, e.Aligned p.1.layout) ∧
      (∀ type buffer, ∃ reading : Reading,
        ((Call.get type buffer).run.run p).1 = .reading reading ∧
          reading.buffer.size = buffer.size) ∧
      (∀ type buffer, ∃ reading : Reading,
        ((Call.probe type buffer).run.run p).1 = .reading reading ∧
          reading.buffer.size = buffer.size) ∧
      (∀ st, (Call.statistics.run.run p).1 = .figures (.ok st) →
        st.usedBytes + st.freeBytes = st.areaSize) ∧
      Record.headerSize + p.1.layout.masterSize ≤ p.1.layout.areaSize := by
  obtain ⟨s, c⟩ := p
  have h := hr.consistent
  -- the partition and its areas are whole erase blocks
  obtain ⟨g, offset, size, hcreate⟩ := hr.layout_created
  obtain ⟨hb, ha⟩ := Layout.eraseSize_dvd_of_create hcreate
  refine ⟨fun call => ⟨Call.perform_mirrors call s (Recorder.mk c []), fun e he =>
      (hr.fits call e he).aligned hread hwrite hb ha⟩,
    fun type buffer => ⟨_, rfl, get_buffer_size type buffer (s, c)⟩,
    fun type buffer => ⟨_, rfl, probe_buffer_size type buffer s c⟩,
    fun st hst => statistics_balanced h (Answer.figures.inj hst),
    h.valid.headerSize_add_masterSize_le⟩

end NorStore

namespace NorStore

open Record Generation Index Log Store

/-- A five-byte value stored after a reset on two 64-byte areas with a four-byte grid. -/
theorem stored_value_accesses_aligned :
    let p := ((Call.set 0 ⟨#[1, 2, 3, 4, 5]⟩).run.run
      (Call.reset.run.run ({ layout := ⟨⟨4, 4, 64⟩, 0, 64⟩ }, Chip.erased 128)).2).2
    Reachable p ∧ p.1.layout.geometry.readSize ∣ p.1.layout.geometry.eraseSize ∧
      p.1.layout.geometry.writeSize ∣ p.1.layout.geometry.eraseSize ∧
      (∀ call : Call,
        ((call.perform.run (p.1, Recorder.mk p.2 [])).1,
            (call.perform.run (p.1, Recorder.mk p.2 [])).2.1,
            (call.perform.run (p.1, Recorder.mk p.2 [])).2.2.chip) = call.run.run p ∧
          ∀ e ∈ call.accesses p.1 p.2, e.Aligned p.1.layout) ∧
        (∀ type buffer, ∃ reading : Reading,
          ((Call.get type buffer).run.run p).1 = .reading reading ∧
            reading.buffer.size = buffer.size) ∧
        (∀ type buffer, ∃ reading : Reading,
          ((Call.probe type buffer).run.run p).1 = .reading reading ∧
            reading.buffer.size = buffer.size) ∧
        (∀ st, (Call.statistics.run.run p).1 = .figures (.ok st) →
          st.usedBytes + st.freeBytes = st.areaSize) ∧
        Record.headerSize + p.1.layout.masterSize ≤ p.1.layout.areaSize := by
  have hc : Reachable ({ layout := ⟨⟨4, 4, 64⟩, 0, 64⟩ }, Chip.erased 128) :=
    .of_blank (show Store.create ⟨4, 4, 64⟩ 0 128 = .ok { layout := ⟨⟨4, 4, 64⟩, 0, 64⟩ } from rfl)
  have hreset := Reachable.call .reset hc
  -- the calls are not evaluated: each keeps the layout it was given
  have hlayout := Call.run_layout hc.consistent .reset
  generalize (Call.reset.run.run ({ layout := ⟨⟨4, 4, 64⟩, 0, 64⟩ }, Chip.erased 128)).2 = q
    at hreset hlayout ⊢
  obtain ⟨s₁, c₁⟩ := q
  have hlayout' := Call.run_layout hreset.consistent (.set 0 ⟨#[1, 2, 3, 4, 5]⟩)
  have hr := Reachable.call (.set 0 ⟨#[1, 2, 3, 4, 5]⟩) hreset
  generalize ((Call.set 0 ⟨#[1, 2, 3, 4, 5]⟩).run.run (s₁, c₁)).2 = q at hr hlayout' ⊢
  rw [hlayout] at hlayout'
  have hread : q.1.layout.geometry.readSize ∣ q.1.layout.geometry.eraseSize := by
    rw [hlayout']
    decide
  have hwrite : q.1.layout.geometry.writeSize ∣ q.1.layout.geometry.eraseSize := by
    rw [hlayout']
    decide
  exact ⟨hr, hread, hwrite, session_accesses_aligned hr hread hwrite⟩

end NorStore
