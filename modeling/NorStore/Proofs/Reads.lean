import NorStore.Proofs.Operations

/-! # Reading values

A type's value on the flash is what the log of the active area says (`Layout.contents`). Every
read answers it the same way (`Store.readingOf`): its length and the value itself, `notFound`,
or `buffTooSmall` before anything is delivered when the caller's buffer is too short. `get` and
`itemSize` read through the loaded index, `probe` walks the log of the active area itself; both
answer `readingOf` of the contents unless a fault is set and a read was refused
(`readValue_run`, `probe_run`).
-/

namespace NorStore

open Record Generation Index Log

variable [Crc]

/-- The value each type holds on the flash: what the active area's log gives it. -/
def Layout.contents (l : Layout) (cells : ByteArray) (t : UInt8) : Option ByteArray :=
  match activeOf l cells with
  | some (a, _) => l.valueIn cells a t
  | none => none

theorem Layout.contents_of_active {l : Layout} {cells : ByteArray} {a : Area} {v : UInt16}
    (h : activeOf l cells = some (a, v)) : l.contents cells = l.valueIn cells a := by
  funext t
  unfold Layout.contents
  rw [h]

namespace Index

theorem Coherent.slot_value {l : Layout} {count : Nat} {cells : ByteArray} {i : Index}
    (hl : l.Valid) (h : l.Inside cells.size) (hi : Coherent l count cells i) (hcount : count ≤ 256)
    {type : UInt8} (ht : type.toNat < count) :
    (i.slot? type = none ∧ l.valueIn cells i.area type = none) ∨
      (∃ e sl, i.slot? type = some sl ∧ e.offset = sl.offset ∧ e.record = .live type sl.length ∧
        decode l.geometry (l.bytes cells i.area) e.offset = .ok (some e) ∧
        l.valueIn cells i.area type = some ((l.bytes cells i.area).extract
          (e.offset + headerSize) (e.offset + headerSize + sl.length))) := by
  rw [slot?_of_slots hcount hi.slots type, if_pos ht]
  unfold Layout.valueIn values
  cases hs : slotFor type (l.logOf cells i.area).entries with
  | none => exact .inl ⟨rfl, rfl⟩
  | some sl =>
    obtain ⟨e, he, hoff, hrec⟩ := slotFor_eq_some hs
    have hm : l.masterSize ≤ (l.bytes cells i.area).size := by
      rw [Layout.size_bytes h]; exact hl.masterSize_le_areaSize
    have hd := ((chain_spec l.geometry (l.bytes cells i.area) l.masterSize hm).2.1 e he).1
    exact .inr ⟨e, sl, rfl, hoff, hrec, hd, by rw [hoff]; rfl⟩

end Index

namespace Store

/-- What a read of a type holding `v` answers into a buffer of `capacity` bytes. -/
def readingOf (v : Option ByteArray) (capacity : Option Nat) : Except Error Nat × ByteArray :=
  match v with
  | none => (.error .notFound, .empty)
  | some v =>
    if capacity.any (· < v.size) then (.error (.buffTooSmall v.size), .empty) else (.ok v.size, v)

omit [Crc] in
theorem readingOf_not_fault (v : Option ByteArray) (capacity : Option Nat) (e : Error)
    (h : (readingOf v capacity).1 = .error e) : e.isFlashFault = false := by
  unfold readingOf at h
  split at h
  · cases h; rfl
  · split at h
    · cases h; rfl
    · cases h

variable {l : Layout} {c : Chip}

variable [LawfulCrc]

theorem loadValue_run (hl : l.Valid) (h : l.Inside c.cells.size) {a : Area} {e : Entry}
    {type : UInt8} {length : Nat} (hd : decode l.geometry (l.bytes c.cells a) e.offset = .ok (some e))
    (hrec : e.record = .live type length) (capacity : Option Nat) :
    Chip.Keeps c ((loadValue l a e.offset type capacity).run c).2 ∧
      (((loadValue l a e.offset type capacity).run c).1 =
          readingOf (some ((l.bytes c.cells a).extract (e.offset + headerSize)
            (e.offset + headerSize + length))) capacity ∨
        (c.failFrom ≠ none ∧ ((loadValue l a e.offset type capacity).run c).1.1 = .error .readError)) := by
  have hA := Layout.size_bytes h a
  have hend := payload_end_le hd hrec
  have hnext := (decode_next hd).2.2
  have hsize : ((l.bytes c.cells a).extract (e.offset + headerSize)
      (e.offset + headerSize + length)).size = length := by
    simp only [ByteArray.size_extract]; omega
  unfold loadValue
  rw [StateM.run_bind]
  obtain ⟨hk, hr⟩ := readAt_run hl h a e.offset capacity
  generalize (readAt l a e.offset capacity).run c = q at hk hr ⊢
  obtain ⟨f, c'⟩ := q
  dsimp only at hk hr ⊢
  refine ⟨hk, ?_⟩
  rcases hr with rfl | ⟨hf, hout⟩
  · left
    rw [fetch_of_live hA hd hrec capacity]
    simp only [readingOf, hsize]
    by_cases hc : capacity.any (· < length) = true
    · simp only [hc, if_true]
      rfl
    · have hc' : capacity.any (· < length) = false := by simpa using hc
      simp only [hc', Bool.false_eq_true, if_false, hrec, if_true]
      rfl
  · right
    refine ⟨hf, ?_⟩
    simp only [hout]
    rfl

variable {s : Store}

theorem readValue_run (hm : s.Mounted c) (hsound : s.Sound c.cells) (type : UInt8)
    (capacity : Option Nat) :
    ∃ res s' c', (readValue type capacity : StateM (Store × Chip) _).run (s, c) = (res, (s', c')) ∧
      c'.failFrom = c.failFrom ∧ s.layout.Inside c'.cells.size ∧
      ((type ≥ s.numTypes ∧ res = (.error .badValue, .empty) ∧ s' = s ∧ c' = c) ∨
        (type < s.numTypes ∧ ∃ e, s.index? = none ∧
          Loaded s.layout s.numTypes.toNat c (.error e) c' ∧ res = (.error e, .empty) ∧
          s' = { s with index? := none }) ∨
        (type < s.numTypes ∧ ∃ i c₁, ((s.index? = some i ∧ c₁ = c) ∨
            (s.index? = none ∧ Loaded s.layout s.numTypes.toNat c (.ok i) c₁)) ∧ Chip.Keeps c₁ c' ∧
          ((res = readingOf (s.layout.contents c₁.cells type) capacity ∧
              s' = { s with index? := some i }) ∨
            (c.failFrom ≠ none ∧ res.1 = .error .readError ∧ s' = { s with index? := none })))) := by
  unfold readValue
  rw [StateM.run_bind, FlashM.run_bind, run_checkType]
  by_cases ht : type ≥ s.numTypes
  · rw [if_pos ht]
    exact ⟨_, _, _, rfl, rfl, hm.inside, .inl ⟨ht, rfl, rfl, rfl⟩⟩
  rw [if_neg ht]
  dsimp only
  have htype : type < s.numTypes := UInt8.not_le.mp ht
  obtain ⟨r, c₁, hrun, hff, hin, hfrom⟩ := loaded_run hm.valid hm.inside
  rw [hrun]
  cases r with
  | error e =>
    have hload : s.index? = none ∧ Loaded s.layout s.numTypes.toNat c (.error e) c₁ := by
      rcases hfrom with ⟨i, -, hr, -⟩ | h
      · cases hr
      · exact h
    exact ⟨_, _, _, rfl, hff, hin, .inr (.inl ⟨htype, e, hload.1, hload.2, rfl, rfl⟩)⟩
  | ok i =>
    dsimp only [Except.toOption]
    have hfrom' := from_of_loaded rfl hfrom
    have hcoh := coherent_of_from hsound hfrom'
    have hcontents := Layout.contents_of_active hcoh.active
    rw [StateM.run_bind, run_current_state]
    dsimp only
    rcases hcoh.slot_value hm.valid hin (Nat.le_of_lt (UInt8.toNat_lt _))
      (UInt8.lt_iff_toNat_lt.mp htype) with ⟨hnone, hval⟩ | ⟨e, sl, hsl, hoff, hrec, hd, hval⟩
    · -- no slot: the type holds no value
      rw [hnone]
      dsimp only
      rw [StateM.run_bind, StateM.run_pure]
      dsimp only
      rw [StateM.run_bind, run_forgetOnFault]
      refine ⟨_, _, _, rfl, hff, hin, .inr (.inr ⟨htype, i, c₁, hfrom', Chip.Keeps.refl _,
        .inl ⟨?_, rfl⟩⟩)⟩
      rw [hcontents, hval]
      rfl
    · -- the slot's record is read from the flash
      rw [hsl]
      dsimp only
      rw [StateM.run_bind, run_onDevice]
      obtain ⟨hk, hres⟩ := loadValue_run hm.valid hin hd hrec capacity
      rw [hoff] at hk hres
      generalize (loadValue s.layout i.area sl.offset type capacity).run c₁ = q at hk hres ⊢
      obtain ⟨res, c₂⟩ := q
      dsimp only at hk hres ⊢
      rw [StateM.run_bind, run_forgetOnFault]
      rcases hres with rfl | ⟨hdue, hres⟩
      · refine ⟨_, _, _, rfl, hk.failFrom.trans hff, hk.cells ▸ hin,
          .inr (.inr ⟨htype, i, c₁, hfrom', hk, .inl ⟨?_, ?_⟩⟩)⟩
        · rw [hcontents, hval, hoff]
        · cases hreading : (readingOf (some ((s.layout.bytes c₁.cells i.area).extract
              (sl.offset + headerSize) (sl.offset + headerSize + sl.length))) capacity).1 with
          | error e' =>
            have := readingOf_not_fault _ _ e' hreading
            simp only [this]
            rfl
          | ok n => rfl
      · obtain ⟨res1, res2⟩ := res
        dsimp only at hres
        subst hres
        refine ⟨_, _, _, rfl, hk.failFrom.trans hff, hk.cells ▸ hin,
          .inr (.inr ⟨htype, i, c₁, hfrom', hk, .inr ⟨hff ▸ hdue, rfl, rfl⟩⟩)⟩

/-! ### Into the caller's buffer -/

omit [LawfulCrc] in
theorem run_get {δ : Type} [NorFlash δ] (type : UInt8) (buffer : ByteArray) (p : Store × δ) :
    (get type buffer : StateM (Store × δ) Reading).run p =
      (⟨((readValue type (some buffer.size)).run p).1.1,
        overwriteFront buffer ((readValue type (some buffer.size)).run p).1.2⟩,
        ((readValue type (some buffer.size)).run p).2) := rfl

omit [LawfulCrc] in
theorem run_itemSize {δ : Type} [NorFlash δ] (type : UInt8) (p : Store × δ) :
    (itemSize type : StoreM δ Nat).run.run p =
      (((readValue type none).run p).1.1, ((readValue type none).run p).2) := rfl

omit [Crc] [LawfulCrc] in
theorem overwriteFront_empty (buffer : ByteArray) : overwriteFront buffer .empty = buffer := by
  unfold overwriteFront
  rw [show ByteArray.copySlice .empty 0 buffer 0 ByteArray.empty.size =
    Chip.overwriteCells buffer 0 .empty from rfl, Chip.overwriteCells_eq_append]
  simp

omit [Crc] [LawfulCrc] in
theorem overwriteFront_eq_append (buffer v : ByteArray) :
    overwriteFront buffer v = v ++ buffer.extract v.size buffer.size := by
  unfold overwriteFront
  rw [show ByteArray.copySlice v 0 buffer 0 v.size = Chip.overwriteCells buffer 0 v from rfl,
    Chip.overwriteCells_eq_append]
  simp

/-! ### Reading straight off the flash -/

theorem lookup_run (hl : l.Valid) (h : l.Inside c.cells.size) (a : Area) (type : UInt8)
    (capacity : Nat) :
    Chip.Keeps c ((match lastValueAt type (l.logOf c.cells a).entries with
        | none => pure (.error .notFound, .empty)
        | some offset => loadValue l a offset type (some capacity) :
          StateM Chip (Except Error Nat × ByteArray)).run c).2 ∧
      (((match lastValueAt type (l.logOf c.cells a).entries with
          | none => pure (.error .notFound, .empty)
          | some offset => loadValue l a offset type (some capacity) :
            StateM Chip (Except Error Nat × ByteArray)).run c).1 =
          readingOf (l.valueIn c.cells a type) (some capacity) ∨
        (c.failFrom ≠ none ∧ ((match lastValueAt type (l.logOf c.cells a).entries with
          | none => pure (.error .notFound, .empty)
          | some offset => loadValue l a offset type (some capacity) :
            StateM Chip (Except Error Nat × ByteArray)).run c).1.1 = .error .readError)) := by
  rw [lastValueAt_eq]
  unfold Layout.valueIn values
  cases hs : slotFor type (l.logOf c.cells a).entries with
  | none => exact ⟨Chip.Keeps.refl c, .inl rfl⟩
  | some sl =>
    obtain ⟨e, he, hoff, hrec⟩ := slotFor_eq_some hs
    have hm : l.masterSize ≤ (l.bytes c.cells a).size := by
      rw [Layout.size_bytes h]; exact hl.masterSize_le_areaSize
    have hd := ((chain_spec l.geometry (l.bytes c.cells a) l.masterSize hm).2.1 e he).1
    have := loadValue_run hl h hd hrec (some capacity)
    rw [hoff] at this
    exact this

theorem probeFlash_run (hl : l.Valid) (h : l.Inside c.cells.size) (type : UInt8) (capacity : Nat) :
    Chip.Keeps c ((probeFlash l type capacity).run c).2 ∧
      (((probeFlash l type capacity).run c).1 = readingOf (l.contents c.cells type) (some capacity) ∨
        (c.failFrom ≠ none ∧ ((probeFlash l type capacity).run c).1.1 = .error .readError)) := by
  unfold probeFlash
  rw [StateM.run_bind]
  obtain ⟨hk, hr⟩ := selectActive_run hl h
  generalize (selectActive l).run.run c = q at hk hr ⊢
  obtain ⟨r, c₁⟩ := q
  dsimp only at hk hr ⊢
  rcases hr with rfl | ⟨hdue, rfl⟩
  · unfold Layout.contents
    cases hact : activeOf l c.cells with
    | none => exact ⟨hk, .inl rfl⟩
    | some p =>
      obtain ⟨area, version⟩ := p
      dsimp only
      rw [StateM.run_bind]
      have h₁ : l.Inside c₁.cells.size := hk.cells ▸ h
      obtain ⟨hk₂, hw⟩ := walkFrom_run hl area l.masterSize c₁ h₁
      generalize hq : (walkFrom l area l.masterSize).run c₁ = q at hk₂ hw
      obtain ⟨w, c₂⟩ := q
      rw [show (walk l area : StateM Chip Walk).run c₁ = (w, c₂) from hq]
      dsimp only at hk₂ hw ⊢
      rw [hk.cells] at hw
      have h₂ : l.Inside c₂.cells.size := (hk.trans hk₂).cells ▸ h
      rcases hw with rfl | ⟨hdue, hstop⟩
      · -- the walk read the log; a corrupt record only ends it
        have hm : l.masterSize ≤ (l.bytes c.cells area).size := by
          rw [Layout.size_bytes h]; exact hl.masterSize_le_areaSize
        have hlog : chain l.geometry (l.bytes c.cells area) l.masterSize = l.logOf c₂.cells area := by
          unfold Layout.logOf; rw [(hk.trans hk₂).cells]
        obtain ⟨hk₃, hr₃⟩ := lookup_run hl h₂ area type capacity
        rw [← hlog] at hk₃ hr₃
        unfold Layout.valueIn at hr₃
        rw [← hlog, (hk.trans hk₂).cells] at hr₃
        rcases (chain_spec l.geometry (l.bytes c.cells area) l.masterSize hm).2.2.2 with
          hstop | hstop <;> rw [hstop] <;> dsimp only
        · exact ⟨(hk.trans hk₂).trans hk₃, hr₃.imp_right fun h => ⟨(hk.trans hk₂).failFrom ▸ h.1, h.2⟩⟩
        · rw [if_neg (fun h => h rfl)]
          exact ⟨(hk.trans hk₂).trans hk₃, hr₃.imp_right fun h => ⟨(hk.trans hk₂).failFrom ▸ h.1, h.2⟩⟩
      · -- a refused read ends the walk with a read error
        rw [hstop]
        dsimp only
        rw [if_pos (by decide)]
        exact ⟨hk.trans hk₂, .inr ⟨hk.failFrom ▸ hdue, rfl⟩⟩
  · exact ⟨hk, .inr ⟨hdue, rfl⟩⟩

theorem probe_run (hl : s.layout.Valid) (h : s.layout.Inside c.cells.size) (type : UInt8)
    (buffer : ByteArray) :
    ∃ res c', (probe type buffer : StateM (Store × Chip) Reading).run (s, c) =
        (⟨res.1, overwriteFront buffer res.2⟩, (s, c')) ∧ Chip.Keeps c c' ∧
      ((type ≥ masterType ∧ res = (.error .badValue, .empty)) ∨
        (type < masterType ∧
          (res = readingOf (s.layout.contents c.cells type) (some buffer.size) ∨
            (c.failFrom ≠ none ∧ res.1 = .error .readError)))) := by
  unfold probe
  by_cases ht : type ≥ masterType
  · refine ⟨(.error .badValue, .empty), c, ?_, Chip.Keeps.refl c, .inl ⟨ht, rfl⟩⟩
    rw [if_pos ht, overwriteFront_empty]
    rfl
  · rw [if_neg ht, StateM.run_bind, run_current_state]
    dsimp only
    rw [StateM.run_bind, run_onDevice]
    obtain ⟨hk, hres⟩ := probeFlash_run hl h type buffer.size
    generalize (probeFlash s.layout type buffer.size).run c = q at hk hres ⊢
    obtain ⟨res, c'⟩ := q
    exact ⟨res, c', rfl, hk, .inr ⟨UInt8.not_le.mp ht, hres⟩⟩

theorem statistics_run (hm : s.Mounted c) :
    ∃ r c', (statistics : StoreM Chip Statistics).run.run (s, c) =
        (r.map fun i => ⟨i.area, i.version, s.layout.areaSize, i.free, s.layout.areaSize - i.free,
          i.liveCount⟩, ({ s with index? := r.toOption }, c')) ∧
      c'.failFrom = c.failFrom ∧ s.layout.Inside c'.cells.size ∧
      ((∃ i, s.index? = some i ∧ r = .ok i ∧ c' = c) ∨
        (s.index? = none ∧ Loaded s.layout s.numTypes.toNat c r c')) := by
  unfold statistics
  rw [FlashM.run_bind]
  obtain ⟨r, c', hrun, hff, hin, hfrom⟩ := loaded_run hm.valid hm.inside
  rw [hrun]
  refine ⟨r, c', ?_, hff, hin, hfrom⟩
  cases r with
  | error e => rfl
  | ok i => rfl

end Store

end NorStore
