import NorStore.Proofs.UsedRoom

/-! # How the store uses the room of its area

With no faults, the room the active area's log takes is what statistics answer as used bytes,
and each call that writes uses it as follows (`SpaceLaw`). A value, or the deletion of a value,
that fits where the log ends is appended there, and the area stays active (`Appends`). One that
does not fit makes a compaction into the other area, which then takes the room of the master
record and of the values it keeps (`Compacts`). A value is refused for lack of room exactly when
it does not fit in an area together with the values of the other types, and then nothing is
written. A deletion of a type that holds no value writes nothing. Every session from a
successful reset keeps to this law (`space_accounting`).

The chip-level runs of an append and of a compaction on a live chip come first; the store's
calls on a store that refines a view run them from the coherent index of the flash.
-/

namespace NorStore

open Record Log Generation Index

variable [Crc]

/-- The call appends the record `B` where the log of the active area `a` ends. -/
def Appends (l : Layout) (call : Call) (p : Store × Chip) (a : Area) (g : UInt16)
    (B : ByteArray) : Prop :=
  (call.run.run p).1 = .done (.ok ()) ∧
    activeOf l (call.run.run p).2.2.cells = some (a, g) ∧
    l.bytes (call.run.run p).2.2.cells a =
      Chip.overwriteCells (l.bytes p.2.cells a) (l.usedRoom p.2.cells a) B ∧
    l.bytes (call.run.run p).2.2.cells a.other = l.bytes p.2.cells a.other ∧
    l.usedRoom (call.run.run p).2.2.cells a = l.usedRoom p.2.cells a + B.size

/-- The call compacts the active area `a` into the other one with the next generation. -/
def Compacts (l : Layout) (call : Call) (p : Store × Chip) (a : Area) (g : UInt16) (V' : View) :
    Prop :=
  (call.run.run p).1 = .done (.ok ()) ∧
    activeOf l (call.run.run p).2.2.cells = some (a.other, g + 1) ∧
    l.usedRoom (call.run.run p).2.2.cells a.other = l.masterSize + V'.room l fun _ => true

/-- How the calls from `p`, holding the view `V` in area `a`, use the room of the area. -/
structure SpaceLaw (l : Layout) (p : Store × Chip) (V : View) (a : Area) (g : UInt16) : Prop where
  /-- Statistics answer as used bytes the room the active area's log takes. -/
  statistics : ∃ st, (Call.statistics.run.run p).1 = .figures (.ok st) ∧
    st.usedBytes = l.usedRoom p.2.cells a
  /-- A value whose record fits where the log ends is appended there. -/
  setInPlace : ∀ t v, t < V.numTypes → v.size ≤ l.maxItemSize →
    l.usedRoom p.2.cells a + l.recordSize v.size ≤ l.areaSize →
    Appends l (.set t v) p a g (image l.geometry t 0 v)
  /-- A value whose record does not fit is refused for room or written by a compaction. -/
  setFull : ∀ t v, t < V.numTypes → v.size ≤ l.maxItemSize →
    l.areaSize < l.usedRoom p.2.cells a + l.recordSize v.size →
    ((Call.set t v).run.run p).1 = .done (.error .flashAreaTooSmall) ∨
      Compacts l (.set t v) p a g (V.compacted.write t (some v))
  /-- A value is refused for room exactly when its record does not fit in an area together with
  the master record and the records of the other types' values. -/
  setTooSmall : ∀ t v, t < V.numTypes → v.size ≤ l.maxItemSize →
    (((Call.set t v).run.run p).1 = .done (.error .flashAreaTooSmall) ↔
      l.areaSize < l.masterSize + l.recordSize v.size + V.room l (t != ·))
  /-- A value refused for room asks for no write and no erase. -/
  tooSmallQuiet : ∀ t v, t < V.numTypes → v.size ≤ l.maxItemSize →
    ((Call.set t v).run.run p).1 = .done (.error .flashAreaTooSmall) →
    Recorder.changes ((Call.set t v).accesses p.1 p.2) = []
  /-- The deletion of a value, whose record fits where the log ends, is appended there. -/
  removeInPlace : ∀ t, t < V.numTypes → V.values t ≠ none →
    l.usedRoom p.2.cells a + l.recordSize 0 ≤ l.areaSize →
    Appends l (.remove t) p a g (image l.geometry t deleteFlag .empty)
  /-- The deletion of a value, whose record does not fit, is made by a compaction. -/
  removeFull : ∀ t, t < V.numTypes → V.values t ≠ none →
    l.areaSize < l.usedRoom p.2.cells a + l.recordSize 0 →
    Compacts l (.remove t) p a g (V.compacted.write t none)
  /-- Deleting a type that holds no value succeeds and asks for no write and no erase. -/
  removeAbsent : ∀ t, t < V.numTypes → V.values t = none →
    ((Call.remove t).run.run p).1 = .done (.ok ()) ∧
      Recorder.changes ((Call.remove t).accesses p.1 p.2) = []
  /-- A garbage collection is a compaction. -/
  compact : Compacts l .compact p a g V.compacted

variable {l : Layout} {c : Chip}

namespace Index

variable {count : Nat} {i : Index}

theorem append_run_live (hl : l.Valid) (h : l.Inside c.cells.size) (hlive : c.failFrom = none)
    (hi : Coherent l count c.cells i) {type : UInt8} (flags : UInt8) {data : ByteArray}
    (htype : type < masterType) (hlen : data.size ≤ 0xFFFF)
    (hfit : i.free + l.recordSize data.size ≤ l.areaSize) :
    ∃ i' c', (append l i type flags data).run.run c = (.ok i', c') ∧
      i'.area = i.area ∧ i'.version = i.version ∧ i'.free = i.free + l.recordSize data.size ∧
      Coherent l count c'.cells i' ∧ c'.failFrom = c.failFrom ∧ l.Inside c'.cells.size ∧
      l.bytes c'.cells i.area =
        Chip.overwriteCells (l.bytes c.cells i.area) i.free (image l.geometry type flags data) ∧
      l.bytes c'.cells i.area.other = l.bytes c.cells i.area.other := by
  have hok : ¬ (type ≥ masterType ∨ data.size > 0xFFFF) := by
    intro h
    rcases h with h | h
    · exact absurd htype (UInt8.not_lt.mpr h)
    · omega
  obtain ⟨hff, hin, hres⟩ := append_run_of_fits hl h hi htype hlen hfit
  -- on a live chip the whole record is written
  obtain ⟨j, c', -, hcut, hprog, hcells, -⟩ := program_run h i.area type flags hfit
  have hj : j = l.recordSize data.size := hcut.resolve_right fun hc => hc.2 hlive
  subst hj
  rw [if_pos rfl] at hprog
  have hrun : (append l i type flags data).run.run c =
      (.ok { i with free := i.free + l.recordSize data.size
                    slots := i.slots.setIfInBounds type.toNat
                      (if flags &&& deleteFlag != 0 then none else some ⟨i.free, data.size⟩) },
        c') := by
    unfold append
    rw [if_neg (by omega), FlashM.run_bind, write_eq, if_neg hok, hprog]
    rfl
  have hsize : (image l.geometry type flags data).size = l.recordSize data.size :=
    size_image l.geometry type flags data
  have hfit' : i.free + (image l.geometry type flags data).size ≤ l.areaSize := by
    rw [hsize]
    exact hfit
  rw [hrun] at hres hff hin
  cases hres with
  | done harea hcoherent hother hvalues =>
    refine ⟨_, c', hrun, rfl, rfl, rfl, hcoherent, hff, hin, ?_, hother⟩
    -- the record's bytes are where the log ended
    rw [hcells, ← hsize, ByteArray.extract_zero_size]
    exact bytes_program_self h i.area hfit' hi.blank

theorem compact_run_live (hl : l.Valid) (hcount : count ≤ masterType.toNat)
    (h : l.Inside c.cells.size) (hlive : c.failFrom = none) (hi : Scanned l count c.cells i)
    {pending : Option Pending} (hp : ∀ p ∈ pending, p.type.toNat < count ∧ p.data.size ≤ 0xFFFF)
    (hfits : compactedSize l (i.liveRecords.filter fun p => pending.all (·.type != p.2))
      (pending.filter (!·.isDeletion)) ≤ l.areaSize) :
    ∃ i' c', (compact l i pending).run.run c = (.ok i', c') ∧
      i'.area = i.area.other ∧ i'.version = i.version + 1 ∧
      i'.free = compactedSize l (i.liveRecords.filter fun p => pending.all (·.type != p.2))
        (pending.filter (!·.isDeletion)) ∧
      Coherent l count c'.cells i' ∧ c'.failFrom = c.failFrom ∧ l.Inside c'.cells.size ∧
      l.bytes c'.cells i.area = l.bytes c.cells i.area := by
  have hcount' : count ≤ 256 := Nat.le_trans hcount (by decide)
  have hp' : ∀ p ∈ pending, p.type < masterType ∧ p.data.size ≤ 0xFFFF := fun p hp'' =>
    ⟨UInt8.lt_iff_toNat_lt.mpr (by have := (hp p hp'').1; omega), (hp p hp'').2⟩
  obtain ⟨hff, hin, hres⟩ := compact_run hl h hcount' hi pending hp'
  -- the recorder's run answers as the chip's
  obtain ⟨r', hrun, -, -⟩ := Recorder.compact_issues_of_fits hl hcount (r := ⟨c, []⟩) h hlive hi
    hp hfits
  obtain ⟨r'', hrun', -⟩ := (Recorder.mirrors_compact l i pending).run_eq ⟨c, []⟩
  rw [hrun] at hrun'
  dsimp only at hrun'
  generalize (compact l i pending).run.run c = q at hrun' hff hin hres ⊢
  obtain ⟨res, c'⟩ := q
  simp only at hrun'
  obtain ⟨rfl, -⟩ := hrun'
  cases hres with
  | done harea hcoherent hsource hvalues =>
    exact ⟨_, c', rfl, rfl, rfl, rfl, hcoherent, hff, hin, hsource⟩

theorem compact_run_tooSmall {δ : Type} [NorFlash δ] {d : δ} {pending : Option Pending}
    (hbig : l.areaSize < compactedSize l (i.liveRecords.filter fun p => pending.all (·.type != p.2))
      (pending.filter (!·.isDeletion))) :
    (compact l i pending).run.run d = (.error .flashAreaTooSmall, d) := by
  unfold compact
  dsimp only
  rw [if_pos hbig]
  rfl

omit [Crc] in
theorem compactedSize_some {live : List (Slot × UInt8)} {p : Pending} (hdel : p.isDeletion = false) :
    compactedSize l live ((some p).filter (!·.isDeletion)) =
      l.masterSize + copiesSize l live + l.recordSize p.data.size := by
  simp only [Option.filter, hdel, Bool.not_false, if_true]
  rfl

omit [Crc] in
theorem compactedSize_none {live : List (Slot × UInt8)} {pending : Option Pending}
    (hdel : ∀ p ∈ pending, p.isDeletion = true) :
    compactedSize l live (pending.filter (!·.isDeletion)) = l.masterSize + copiesSize l live := by
  cases pending with
  | none => rfl
  | some p =>
    simp only [Option.filter, hdel p rfl, Bool.not_true]
    rfl

end Index

namespace Store

variable {s : Store} {V : View}

/-! ### Calls from a store that refines a view -/

variable [LawfulCrc]

theorem Refines.loaded_eq (h : Refines l s c V) :
    ∃ i c₁, (loaded : StoreM Chip Index).run.run (s, c) = (.ok i, ({ s with index? := some i }, c₁)) ∧
      Chip.Keeps c c₁ ∧ Coherent s.layout s.numTypes.toNat c.cells i := by
  obtain ⟨r, c₁, hrun, -, -, hfrom⟩ := loaded_run h.valid h.inside
  rcases hfrom with ⟨i, hs, rfl, rfl⟩ | ⟨-, hload⟩
  · exact ⟨i, _, hrun, Chip.Keeps.refl _, h.sound i hs⟩
  · obtain ⟨i, rfl, hk, hcoh⟩ := hload.of_clean h.clean h.live
    exact ⟨i, c₁, hrun, hk, hcoh⟩

theorem Refines.set_eq (h : Refines l s c V) {t : UInt8} {v : ByteArray} (ht : t < s.numTypes)
    (hv : v.size ≤ s.layout.maxItemSize) :
    ∃ i c₁, Chip.Keeps c c₁ ∧ Coherent s.layout s.numTypes.toNat c.cells i ∧
      (Store.set t v : StoreM Chip Unit).run.run (s, c) =
        (((append s.layout i t 0 v).run.run c₁).1.map fun _ => (),
          (s.committed i ((append s.layout i t 0 v).run.run c₁).1,
            ((append s.layout i t 0 v).run.run c₁).2)) := by
  obtain ⟨i, c₁, hrun, hk, hcoh⟩ := h.loaded_eq
  refine ⟨i, c₁, hk, hcoh, ?_⟩
  unfold Store.set
  rw [FlashM.run_bind, run_checkType, if_neg (UInt8.not_le.mpr ht)]
  dsimp only
  rw [FlashM.run_bind, run_current]
  dsimp only
  rw [if_neg (Nat.not_lt.mpr hv), FlashM.run_bind, hrun]
  dsimp only
  rw [run_commit]

theorem Refines.remove_eq (h : Refines l s c V) {t : UInt8} (ht : t < s.numTypes) :
    ∃ i c₁, Chip.Keeps c c₁ ∧ Coherent s.layout s.numTypes.toNat c.cells i ∧
      (Store.remove t : StoreM Chip Unit).run.run (s, c) =
        if (i.slot? t).isNone then (.ok (), ({ s with index? := some i }, c₁))
        else (((append s.layout i t deleteFlag .empty).run.run c₁).1.map fun _ => (),
          (s.committed i ((append s.layout i t deleteFlag .empty).run.run c₁).1,
            ((append s.layout i t deleteFlag .empty).run.run c₁).2)) := by
  obtain ⟨i, c₁, hrun, hk, hcoh⟩ := h.loaded_eq
  refine ⟨i, c₁, hk, hcoh, ?_⟩
  unfold Store.remove
  rw [FlashM.run_bind, run_checkType, if_neg (UInt8.not_le.mpr ht)]
  dsimp only
  rw [FlashM.run_bind, hrun]
  dsimp only
  split
  · rfl
  · rw [FlashM.run_bind, run_current]
    dsimp only
    rw [run_commit]

theorem Refines.compact_eq (h : Refines l s c V) :
    ∃ i c₁, Chip.Keeps c c₁ ∧ Coherent s.layout s.numTypes.toNat c.cells i ∧
      (Store.compact : StoreM Chip Unit).run.run (s, c) =
        (((Index.compact s.layout i none).run.run c₁).1.map fun _ => (),
          (s.committed i ((Index.compact s.layout i none).run.run c₁).1,
            ((Index.compact s.layout i none).run.run c₁).2)) := by
  obtain ⟨i, c₁, hrun, hk, hcoh⟩ := h.loaded_eq
  refine ⟨i, c₁, hk, hcoh, ?_⟩
  unfold Store.compact
  rw [FlashM.run_bind, hrun]
  dsimp only
  rw [FlashM.run_bind, run_current]
  dsimp only
  rw [run_commit]

/-! ### The law, call by call -/

variable {a : Area} {g : UInt16}

omit [LawfulCrc] in
theorem area_of_coherent {count : Nat} {cells : ByteArray} {i : Index}
    (hcoh : Coherent l count cells i) (hact : activeOf l cells = some (a, g)) :
    i.area = a ∧ i.version = g := by
  have h := hcoh.active
  rw [hact] at h
  simp only [Option.some.injEq, Prod.mk.injEq] at h
  exact ⟨h.1.symm, h.2.symm⟩

omit [LawfulCrc] in
theorem Refines.bounds (h : Refines l s c V) {t : UInt8} {v : ByteArray} (ht : t < V.numTypes)
    (hv : v.size ≤ l.maxItemSize) : t < s.numTypes ∧ t < masterType ∧ v.size ≤ 0xFFFF := by
  have hts : t < s.numTypes := h.numTypes ▸ ht
  refine ⟨hts, UInt8.lt_of_lt_of_le hts h.types, ?_⟩
  simp only [Layout.maxItemSize] at hv
  omega

omit [LawfulCrc] in
theorem Refines.room_eq (h : Refines l s c V) {i : Index}
    (hcoh : Coherent s.layout s.numTypes.toNat c.cells i) (keep : UInt8 → Bool) :
    V.room s.layout keep = copiesSize s.layout (i.liveRecords.filter fun p => keep p.2) := by
  rw [hcoh.copiesSize_filter_liveRecords h.valid h.inside (Nat.le_of_lt (UInt8.toNat_lt _)) keep,
    h.valueIn hcoh]
  unfold View.room
  rw [h.numTypes]

theorem Refines.statistics_usedBytes (h : Refines l s c V) (hact : activeOf l c.cells = some (a, g)) :
    ∃ st, (Call.statistics.run.run (s, c)).1 = .figures (.ok st) ∧
      st.usedBytes = l.usedRoom c.cells a := by
  obtain rfl := h.layout
  obtain ⟨i, c₁, hrun, -, hcoh⟩ := h.loaded_eq
  obtain ⟨rfl, -⟩ := area_of_coherent hcoh hact
  refine ⟨⟨i.area, i.version, s.layout.areaSize, i.free, s.layout.areaSize - i.free, i.liveCount⟩,
    ?_, hcoh.free_eq_usedRoom h.valid h.inside⟩
  rw [Call.run_statistics]
  unfold statistics
  rw [FlashM.run_bind, hrun]
  rfl

omit [LawfulCrc] in
theorem Refines.appends_of_committed (h : Refines l s c V) (hact : activeOf l c.cells = some (a, g))
    {call : Call} {c₁ : Chip} (hk : Chip.Keeps c c₁) {i : Index}
    (hcoh : Coherent s.layout s.numTypes.toNat c.cells i) {type : UInt8} (flags : UInt8)
    {data : ByteArray} (htype : type < masterType) (hlen : data.size ≤ 0xFFFF)
    (hfit : l.usedRoom c.cells a + l.recordSize data.size ≤ l.areaSize)
    (hrun : call.run.run (s, c) =
      (.done (((append s.layout i type flags data).run.run c₁).1.map fun _ => ()),
        (s.committed i ((append s.layout i type flags data).run.run c₁).1,
          ((append s.layout i type flags data).run.run c₁).2))) :
    Appends l call (s, c) a g (image l.geometry type flags data) := by
  obtain rfl := h.layout
  obtain ⟨rfl, rfl⟩ := area_of_coherent hcoh hact
  have hfree := hcoh.free_eq_usedRoom h.valid h.inside
  obtain ⟨i', c', hrun', harea, hversion, hfree', hcoh', -, hin', hbytes, hother⟩ :=
    append_run_live h.valid (hk.inside h.inside) (hk.failFrom.trans h.live) (hk.cells ▸ hcoh)
      flags htype hlen (hfree ▸ hfit)
  have hsize : (image s.layout.geometry type flags data).size = s.layout.recordSize data.size :=
    size_image _ _ _ _
  unfold Appends
  rw [hrun, hrun']
  dsimp only
  refine ⟨rfl, ?_, ?_, ?_, ?_⟩
  · rw [hcoh'.active, harea, hversion]
  · rw [hbytes, hk.cells, hfree]
  · rw [hother, hk.cells]
  · rw [hsize, ← hfree, ← harea, ← hcoh'.free_eq_usedRoom h.valid hin']
    exact hfree'

omit [LawfulCrc] in
theorem compacts_of_committed {call : Call} {s : Store} {c₁ c' : Chip} {i i' : Index}
    {pending : Option Pending} {V' : View}
    (hrun : call.run.run (s, c) =
      (.done (((Index.compact l i pending).run.run c₁).1.map fun _ => ()),
        (s.committed i ((Index.compact l i pending).run.run c₁).1,
          ((Index.compact l i pending).run.run c₁).2)))
    (hrun' : (Index.compact l i pending).run.run c₁ = (.ok i', c'))
    (hact : activeOf l c'.cells = some (i.area.other, i.version + 1))
    (hused : l.usedRoom c'.cells i.area.other = l.masterSize + V'.room l fun _ => true) :
    Compacts l call (s, c) i.area i.version V' := by
  unfold Compacts
  rw [hrun, hrun']
  exact ⟨rfl, hact, hused⟩

theorem Refines.set_appends (h : Refines l s c V) (hact : activeOf l c.cells = some (a, g))
    {t : UInt8} {v : ByteArray} (ht : t < V.numTypes) (hv : v.size ≤ l.maxItemSize)
    (hfit : l.usedRoom c.cells a + l.recordSize v.size ≤ l.areaSize) :
    Appends l (.set t v) (s, c) a g (image l.geometry t 0 v) := by
  obtain rfl := h.layout
  obtain ⟨hts, htype, hlen⟩ := h.bounds ht hv
  obtain ⟨i, c₁, hk, hcoh, hrun⟩ := h.set_eq hts hv
  exact h.appends_of_committed hact hk hcoh 0 htype hlen hfit (by rw [Call.run_set, hrun])

theorem Refines.room_le (h : Refines l s c V) (hact : activeOf l c.cells = some (a, g))
    (keep : UInt8 → Bool) : l.masterSize + V.room l keep ≤ l.usedRoom c.cells a := by
  obtain rfl := h.layout
  obtain ⟨i, c₁, -, -, hcoh⟩ := h.loaded_eq
  obtain ⟨rfl, -⟩ := area_of_coherent hcoh hact
  have hlog := copiesSize_liveRecords_le h.valid h.inside hcoh.toScanned
  have hfilter := copiesSize_filter_le (l := s.layout) (fun p => keep p.2) i.liveRecords
  rw [hcoh.log] at hlog
  rw [h.room_eq hcoh, ← hcoh.free_eq_usedRoom h.valid h.inside]
  exact Nat.le_trans (Nat.add_le_add_left hfilter _) hlog

omit [LawfulCrc] in
theorem Refines.slot?_eq_none_iff (h : Refines l s c V) {i : Index}
    (hcoh : Coherent s.layout s.numTypes.toNat c.cells i) {t : UInt8} (ht : t < V.numTypes) :
    i.slot? t = none ↔ V.values t = none := by
  rw [← h.valueIn hcoh]
  rcases hcoh.slot_value h.valid h.inside (Nat.le_of_lt (UInt8.toNat_lt _))
      (by rw [h.numTypes]; exact UInt8.lt_iff_toNat_lt.mp ht) with
    ⟨hs, hv⟩ | ⟨e, sl, hs, -, -, -, hv⟩
  · exact ⟨fun _ => hv, fun _ => hs⟩
  · rw [hs, hv]
    exact ⟨fun h' => (nomatch h'), fun h' => nomatch h'⟩

theorem Refines.set_full_cases (h : Refines l s c V) (hact : activeOf l c.cells = some (a, g))
    {t : UInt8} {v : ByteArray} (ht : t < V.numTypes) (hv : v.size ≤ l.maxItemSize)
    (hfull : l.areaSize < l.usedRoom c.cells a + l.recordSize v.size) :
    (l.areaSize < l.masterSize + l.recordSize v.size + V.room l (t != ·) ∧
        ((Call.set t v).run.run (s, c)).1 = .done (.error .flashAreaTooSmall) ∧
        Chip.Keeps c ((Call.set t v).run.run (s, c)).2.2) ∨
      (l.masterSize + l.recordSize v.size + V.room l (t != ·) ≤ l.areaSize ∧
        Compacts l (.set t v) (s, c) a g (V.compacted.write t (some v))) := by
  obtain rfl := h.layout
  obtain ⟨hts, htype, hlen⟩ := h.bounds ht hv
  obtain ⟨i, c₁, hk, hcoh, hrun⟩ := h.set_eq hts hv
  obtain ⟨rfl, rfl⟩ := area_of_coherent hcoh hact
  rw [← hcoh.free_eq_usedRoom h.valid h.inside] at hfull
  rw [append_of_full hfull] at hrun
  have hdel : (⟨t, 0, v⟩ : Pending).isDeletion = false := by
    simp [Pending.isDeletion, deleteFlag]
  -- the compaction needs the room of the other types' values and of the record
  have hsize : compactedSize s.layout
      (i.liveRecords.filter fun p => (some (⟨t, 0, v⟩ : Pending)).all (·.type != p.2))
      ((some (⟨t, 0, v⟩ : Pending)).filter (!·.isDeletion)) =
        s.layout.masterSize + s.layout.recordSize v.size + V.room s.layout (t != ·) := by
    rw [compactedSize_some hdel, h.room_eq hcoh, Nat.add_right_comm]
    rfl
  by_cases hfits : s.layout.masterSize + s.layout.recordSize v.size + V.room s.layout (t != ·) ≤
      s.layout.areaSize
  · right
    refine ⟨hfits, ?_⟩
    obtain ⟨i', c', hrun', harea, hversion, hfree', hcoh', -, hin', -⟩ :=
      compact_run_live h.valid (UInt8.le_iff_toNat_le.mp h.types) (hk.inside h.inside)
        (hk.failFrom.trans h.live) (hk.cells ▸ hcoh).toScanned
        (fun p hp => by cases hp; exact ⟨UInt8.lt_iff_toNat_lt.mp hts, hlen⟩) (hsize ▸ hfits)
    refine compacts_of_committed (by rw [Call.run_set, hrun]) hrun' ?_ ?_
    · rw [hcoh'.active, harea, hversion]
    · rw [← harea, ← hcoh'.free_eq_usedRoom h.valid hin', hfree', hsize,
        View.room_write V.compacted (show t < V.compacted.numTypes from ht), View.room_compacted]
      simp only [Layout.valueRoom, Option.map_some, Option.getD_some]
      omega
  · left
    have hbig := Nat.lt_of_not_le hfits
    rw [Call.run_set, hrun, compact_run_tooSmall (hsize ▸ hbig)]
    exact ⟨hbig, rfl, hk⟩

theorem Refines.set_tooSmall_iff (h : Refines l s c V) (hact : activeOf l c.cells = some (a, g))
    {t : UInt8} {v : ByteArray} (ht : t < V.numTypes) (hv : v.size ≤ l.maxItemSize) :
    ((Call.set t v).run.run (s, c)).1 = .done (.error .flashAreaTooSmall) ↔
      l.areaSize < l.masterSize + l.recordSize v.size + V.room l (t != ·) := by
  by_cases hfit : l.usedRoom c.cells a + l.recordSize v.size ≤ l.areaSize
  · -- in place it succeeds, and the record fits with the other types' values
    rw [(h.set_appends hact ht hv hfit).1]
    have hle := h.room_le hact (t != ·)
    exact ⟨fun h' => (nomatch h'), fun hlt => absurd hfit (by omega)⟩
  · rcases h.set_full_cases hact ht hv (Nat.lt_of_not_le hfit) with ⟨hbig, hans, -⟩ | ⟨hle, hok, -⟩
    · exact ⟨fun _ => hbig, fun _ => hans⟩
    · rw [hok]
      exact ⟨fun h' => (nomatch h'), fun hlt => absurd hle (Nat.not_le.mpr hlt)⟩

theorem Refines.changes_eq_nil (h : Refines l s c V) {call : Call}
    (hk : Chip.Keeps c (call.run.run (s, c)).2.2) : Recorder.changes (call.accesses s c) = [] := by
  obtain ⟨hchain, hfits⟩ := Call.accesses_spec h.toConsistent call
  obtain rfl := h.layout
  exact hchain.changes_eq_nil (fun e he => (hfits e he).1) h.live h.inside hk.writes hk.erases

theorem Refines.set_tooSmall_quiet (h : Refines l s c V) (hact : activeOf l c.cells = some (a, g))
    {t : UInt8} {v : ByteArray} (ht : t < V.numTypes) (hv : v.size ≤ l.maxItemSize)
    (hans : ((Call.set t v).run.run (s, c)).1 = .done (.error .flashAreaTooSmall)) :
    Recorder.changes ((Call.set t v).accesses s c) = [] := by
  have hfull : l.areaSize < l.usedRoom c.cells a + l.recordSize v.size := by
    refine Nat.lt_of_not_le fun hfit => ?_
    rw [(h.set_appends hact ht hv hfit).1] at hans
    cases hans
  rcases h.set_full_cases hact ht hv hfull with ⟨-, -, hk⟩ | ⟨-, hok, -⟩
  · exact h.changes_eq_nil hk
  · rw [hok] at hans
    cases hans

omit [LawfulCrc] in
theorem Refines.compact_deleting (h : Refines l s c V) {c₁ : Chip} (hk : Chip.Keeps c c₁)
    {i : Index} (hcoh : Coherent s.layout s.numTypes.toNat c.cells i) (pending : Option Pending)
    (hp : ∀ p ∈ pending, p.type < s.numTypes ∧ p.isDeletion = true ∧ p.data.size ≤ 0xFFFF) :
    ∃ i' c', (Index.compact s.layout i pending).run.run c₁ = (.ok i', c') ∧
      activeOf s.layout c'.cells = some (i.area.other, i.version + 1) ∧
      s.layout.usedRoom c'.cells i.area.other =
        s.layout.masterSize + V.room s.layout fun k => pending.all (·.type != k) := by
  have hdel : ∀ p ∈ pending, p.isDeletion = true := fun p hp' => (hp p hp').2.1
  have hcoh₁ : Coherent s.layout s.numTypes.toNat c₁.cells i := hk.cells ▸ hcoh
  obtain ⟨i', c', hrun, harea, hversion, hfree, hcoh', -, hin', -⟩ :=
    compact_run_live h.valid (UInt8.le_iff_toNat_le.mp h.types) (hk.inside h.inside)
      (hk.failFrom.trans h.live) hcoh₁.toScanned
      (fun p hp' => ⟨UInt8.lt_iff_toNat_lt.mp (hp p hp').1, (hp p hp').2.2⟩)
      (compactedSize_le_areaSize h.valid (hk.inside h.inside) hcoh₁.toScanned hdel)
  refine ⟨i', c', hrun, ?_, ?_⟩
  · rw [hcoh'.active, harea, hversion]
  · rw [← harea, ← hcoh'.free_eq_usedRoom h.valid hin', hfree, compactedSize_none hdel,
      h.room_eq hcoh]

theorem Refines.remove_appends (h : Refines l s c V) (hact : activeOf l c.cells = some (a, g))
    {t : UInt8} (ht : t < V.numTypes) (hV : V.values t ≠ none)
    (hfit : l.usedRoom c.cells a + l.recordSize 0 ≤ l.areaSize) :
    Appends l (.remove t) (s, c) a g (image l.geometry t deleteFlag .empty) := by
  obtain rfl := h.layout
  have hts : t < s.numTypes := h.numTypes ▸ ht
  obtain ⟨i, c₁, hk, hcoh, hrun⟩ := h.remove_eq hts
  have hs : i.slot? t ≠ none := fun hs => hV ((h.slot?_eq_none_iff hcoh ht).mp hs)
  rw [if_neg (by simpa using hs)] at hrun
  exact h.appends_of_committed hact hk hcoh deleteFlag (UInt8.lt_of_lt_of_le hts h.types)
    (show ByteArray.empty.size ≤ 0xFFFF by decide) hfit (by rw [Call.run_remove, hrun])

theorem Refines.remove_compacts (h : Refines l s c V) (hact : activeOf l c.cells = some (a, g))
    {t : UInt8} (ht : t < V.numTypes) (hV : V.values t ≠ none)
    (hfull : l.areaSize < l.usedRoom c.cells a + l.recordSize 0) :
    Compacts l (.remove t) (s, c) a g (V.compacted.write t none) := by
  obtain rfl := h.layout
  have hts : t < s.numTypes := h.numTypes ▸ ht
  obtain ⟨i, c₁, hk, hcoh, hrun⟩ := h.remove_eq hts
  obtain ⟨rfl, rfl⟩ := area_of_coherent hcoh hact
  have hs : i.slot? t ≠ none := fun hs => hV ((h.slot?_eq_none_iff hcoh ht).mp hs)
  have hfull' : s.layout.areaSize < i.free + s.layout.recordSize ByteArray.empty.size := by
    rw [hcoh.free_eq_usedRoom h.valid h.inside]
    exact hfull
  rw [if_neg (by simpa using hs), append_of_full hfull'] at hrun
  obtain ⟨i', c', hrun', hact', hused⟩ := h.compact_deleting hk hcoh
    (some ⟨t, deleteFlag, .empty⟩)
    (fun p hp => by cases hp; exact ⟨hts, by simp [Pending.isDeletion, deleteFlag], by simp⟩)
  refine compacts_of_committed (by rw [Call.run_remove, hrun]) hrun' hact' ?_
  rw [hused, View.room_write V.compacted (show t < V.compacted.numTypes from ht),
    View.room_compacted]
  rfl

theorem Refines.remove_absent (h : Refines l s c V) {t : UInt8} (ht : t < V.numTypes)
    (hV : V.values t = none) :
    ((Call.remove t).run.run (s, c)).1 = .done (.ok ()) ∧
      Recorder.changes ((Call.remove t).accesses s c) = [] := by
  have hts : t < s.numTypes := h.numTypes ▸ ht
  obtain ⟨i, c₁, hk, hcoh, hrun⟩ := h.remove_eq hts
  have hs : i.slot? t = none := (h.slot?_eq_none_iff hcoh ht).mpr hV
  rw [if_pos (by simp [hs])] at hrun
  have hrun' : (Call.remove t).run.run (s, c) = (.done (.ok ()), ({ s with index? := some i }, c₁)) := by
    rw [Call.run_remove, hrun]
  refine ⟨by rw [hrun'], h.changes_eq_nil ?_⟩
  rw [hrun']
  exact hk

theorem Refines.compact_compacts (h : Refines l s c V) (hact : activeOf l c.cells = some (a, g)) :
    Compacts l .compact (s, c) a g V.compacted := by
  obtain rfl := h.layout
  obtain ⟨i, c₁, hk, hcoh, hrun⟩ := h.compact_eq
  obtain ⟨rfl, rfl⟩ := area_of_coherent hcoh hact
  obtain ⟨i', c', hrun', hact', hused⟩ := h.compact_deleting hk hcoh none
    (fun _ hp => (Option.not_mem_none _ hp).elim)
  refine compacts_of_committed (by rw [Call.run_compact, hrun]) hrun' hact' ?_
  rw [hused, View.room_compacted]
  rfl

theorem Refines.spaceLaw (h : Refines l s c V) (hact : activeOf l c.cells = some (a, g)) :
    SpaceLaw l (s, c) V a g where
  statistics := h.statistics_usedBytes hact
  setInPlace _ _ ht hv hfit := h.set_appends hact ht hv hfit
  setFull _ _ ht hv hfull :=
    (h.set_full_cases hact ht hv hfull).imp (fun hsmall => hsmall.2.1) (fun hbig => hbig.2)
  setTooSmall _ _ ht hv := h.set_tooSmall_iff hact ht hv
  tooSmallQuiet _ _ ht hv hans := h.set_tooSmall_quiet hact ht hv hans
  removeInPlace _ ht hV hfit := h.remove_appends hact ht hV hfit
  removeFull _ ht hV hfull := h.remove_compacts hact ht hV hfull
  removeAbsent _ ht hV := h.remove_absent ht hV
  compact := h.compact_compacts hact

theorem Refines.spaceLaw_runs (h : Refines l s c V) (calls : List Call) :
    ∃ V' a g, Refines l ((calls.mapM Call.run).run (s, c)).2.1 ((calls.mapM Call.run).run (s, c)).2.2 V' ∧
      activeOf l ((calls.mapM Call.run).run (s, c)).2.2.cells = some (a, g) ∧
      SpaceLaw l ((calls.mapM Call.run).run (s, c)).2 V' a g := by
  induction calls generalizing s c V with
  | nil =>
    obtain ⟨a, g, hact, -⟩ := h.clean
    rw [h.layout] at hact
    exact ⟨V, a, g, h, hact, h.spaceLaw hact⟩
  | cons call calls ih =>
    -- the refinement carries over each call, whatever it answers
    rw [run_mapM_cons]
    obtain ⟨V', -, h'⟩ := h.simulates call
    exact ih h'

end Store

variable [LawfulCrc]

open Store in
/-- With no faults, every session after a reset keeps to the space law. -/
theorem space_accounting {s : Store} {c : Chip} (hm : s.Mounted c) (hlive : c.failFrom = none)
    (calls : List Call) :
    (Call.reset.run.run (s, c)).1 = .done (.ok ()) ∧
      ∃ V a g,
        Refines s.layout ((calls.mapM Call.run).run (Call.reset.run.run (s, c)).2).2.1
          ((calls.mapM Call.run).run (Call.reset.run.run (s, c)).2).2.2 V ∧
        activeOf s.layout ((calls.mapM Call.run).run (Call.reset.run.run (s, c)).2).2.2.cells =
          some (a, g) ∧
        SpaceLaw s.layout ((calls.mapM Call.run).run (Call.reset.run.run (s, c)).2).2 V a g := by
  obtain ⟨hok, h⟩ := refines_after_reset hm hlive
  exact ⟨hok, h.spaceLaw_runs calls⟩

end NorStore

namespace NorStore

open Record Log Generation Index

/-- A value of type 0 stored on a blank chip of two 64-byte areas. -/
theorem blank_chip_space_accounting :
    Store.Mounted { layout := ⟨⟨1, 1, 64⟩, 0, 64⟩ } (Chip.erased 128) ∧
      (Chip.erased 128).failFrom = none ∧
      (Call.reset.run.run ({ layout := ⟨⟨1, 1, 64⟩, 0, 64⟩ }, Chip.erased 128)).1 = .done (.ok ()) ∧
      ∃ V a g,
        Store.Refines ⟨⟨1, 1, 64⟩, 0, 64⟩
          ((([.set 0 ⟨#[0xAA]⟩] : List Call).mapM Call.run).run
            (Call.reset.run.run ({ layout := ⟨⟨1, 1, 64⟩, 0, 64⟩ }, Chip.erased 128)).2).2.1
          ((([.set 0 ⟨#[0xAA]⟩] : List Call).mapM Call.run).run
            (Call.reset.run.run ({ layout := ⟨⟨1, 1, 64⟩, 0, 64⟩ }, Chip.erased 128)).2).2.2 V ∧
        activeOf ⟨⟨1, 1, 64⟩, 0, 64⟩
          ((([.set 0 ⟨#[0xAA]⟩] : List Call).mapM Call.run).run
            (Call.reset.run.run ({ layout := ⟨⟨1, 1, 64⟩, 0, 64⟩ }, Chip.erased 128)).2).2.2.cells =
          some (a, g) ∧
        SpaceLaw ⟨⟨1, 1, 64⟩, 0, 64⟩
          ((([.set 0 ⟨#[0xAA]⟩] : List Call).mapM Call.run).run
            (Call.reset.run.run ({ layout := ⟨⟨1, 1, 64⟩, 0, 64⟩ }, Chip.erased 128)).2).2 V a g := by
  have hm : Store.Mounted { layout := ⟨⟨1, 1, 64⟩, 0, 64⟩ } (Chip.erased 128) :=
    ⟨Layout.valid_of_create (show Layout.create ⟨1, 1, 64⟩ 0 128 = .ok ⟨⟨1, 1, 64⟩, 0, 64⟩ from rfl),
      Nat.le_of_eq (size_replicate_erased 128).symm, by decide⟩
  exact ⟨hm, rfl, space_accounting hm rfl _⟩

end NorStore
