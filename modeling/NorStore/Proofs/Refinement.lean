import NorStore.Proofs.Recovery

/-! # The store as a map from types to values

On a flash with no faults and no changes from outside, the store behaves as a map from types to
values together with a number of types (`View`). `View.Step` says what each call may answer and
how it changes the map: a write of a type below `numTypes` stores its value or deletes it, a read
answers the type's value, and `init`, `deinit`, `statistics` and making the store again change
nothing. The one place where the store is more than a map is a compaction: it copies only the
types below `numTypes`, so every compaction (asked for, or made by a write that finds the
active area full) drops the values of the types at or above it.

The store refines this view (`Refines`): the flash is clean, its contents are the view's values,
and the store's number of types is the view's. Each call keeps the relation and answers as
`View.Step` allows (`Refines.simulates`), so a whole session from a reset runs as `View.Runs`
says (`fault_free_session_refines_view`).
-/

namespace NorStore

open Record Generation Index Log

/-- The store as its interface shows it: the value each type holds, and the number of types. -/
structure View where
  values : UInt8 → Option ByteArray
  numTypes : UInt8

namespace View

/-- The view with `t` holding `v` and every other type as before. -/
def write (V : View) (t : UInt8) (v : Option ByteArray) : View :=
  ⟨fun t' => if t' = t then v else V.values t', V.numTypes⟩

/-- The view after a compaction: the types at or above `numTypes` hold no value. -/
def compacted (V : View) : View :=
  ⟨fun t => if t < V.numTypes then V.values t else none, V.numTypes⟩

/-- What a read of a type holding `v` answers into `buffer`, and the buffer after it. -/
def readInto (v : Option ByteArray) (buffer : ByteArray) : Reading :=
  match v with
  | none => ⟨.error .notFound, buffer⟩
  | some v =>
    if buffer.size < v.size then ⟨.error (.buffTooSmall v.size), buffer⟩
    else ⟨.ok v.size, v ++ buffer.extract v.size buffer.size⟩

/-- What asking the length of a type holding `v` answers. -/
def lengthOf (v : Option ByteArray) : Except Error Nat :=
  match v with
  | none => .error .notFound
  | some v => .ok v.size

/-- The answers a call may give from the view `V`, with the view after it. -/
inductive Step (max : Nat) : View → Call → Answer → View → Prop
  | init {V : View} : Step max V .init (.done (.ok ())) V
  | deinit {V : View} : Step max V .deinit (.done (.ok ())) V
  | reset {V : View} : Step max V .reset (.done (.ok ())) ⟨fun _ => none, V.numTypes⟩
  | compact {V : View} : Step max V .compact (.done (.ok ())) V.compacted
  | setNumTypes {V : View} {n : UInt8} (h : n ≤ masterType) :
      Step max V (.setNumTypes n) (.done (.ok ())) ⟨V.values, n⟩
  | setNumTypesBad {V : View} {n : UInt8} (h : masterType < n) :
      Step max V (.setNumTypes n) (.done (.error .badValue)) V
  | setBad {V : View} {t : UInt8} {v : ByteArray} (h : V.numTypes ≤ t ∨ max < v.size) :
      Step max V (.set t v) (.done (.error .badValue)) V
  /-- A value is stored, in place or by a compaction that drops the types at or above
  `numTypes`, or it does not fit and nothing changes. -/
  | set {V : View} {t : UInt8} {v : ByteArray} (ht : t < V.numTypes) (hv : v.size ≤ max) :
      Step max V (.set t v) (.done (.ok ())) (V.write t (some v))
  | setCompacting {V : View} {t : UInt8} {v : ByteArray} (ht : t < V.numTypes)
      (hv : v.size ≤ max) : Step max V (.set t v) (.done (.ok ())) (V.compacted.write t (some v))
  | setTooSmall {V : View} {t : UInt8} {v : ByteArray} (ht : t < V.numTypes)
      (hv : v.size ≤ max) : Step max V (.set t v) (.done (.error .flashAreaTooSmall)) V
  | removeBad {V : View} {t : UInt8} (h : V.numTypes ≤ t) :
      Step max V (.remove t) (.done (.error .badValue)) V
  | remove {V : View} {t : UInt8} (ht : t < V.numTypes) :
      Step max V (.remove t) (.done (.ok ())) (V.write t none)
  | removeCompacting {V : View} {t : UInt8} (ht : t < V.numTypes) :
      Step max V (.remove t) (.done (.ok ())) (V.compacted.write t none)
  | getBad {V : View} {t : UInt8} {b : ByteArray} (h : V.numTypes ≤ t) :
      Step max V (.get t b) (.reading ⟨.error .badValue, b⟩) V
  | get {V : View} {t : UInt8} {b : ByteArray} (ht : t < V.numTypes) :
      Step max V (.get t b) (.reading (readInto (V.values t) b)) V
  | itemSizeBad {V : View} {t : UInt8} (h : V.numTypes ≤ t) :
      Step max V (.itemSize t) (.size (.error .badValue)) V
  | itemSize {V : View} {t : UInt8} (ht : t < V.numTypes) :
      Step max V (.itemSize t) (.size (lengthOf (V.values t))) V
  | probeBad {V : View} {t : UInt8} {b : ByteArray} (h : masterType ≤ t) :
      Step max V (.probe t b) (.reading ⟨.error .badValue, b⟩) V
  | probe {V : View} {t : UInt8} {b : ByteArray} (ht : t < masterType) :
      Step max V (.probe t b) (.reading (readInto (V.values t) b)) V
  | statistics {V : View} {figures : Statistics} :
      Step max V .statistics (.figures (.ok figures)) V
  | recreate {V : View} : Step max V .recreate (.done (.ok ())) ⟨V.values, 16⟩

/-- A session of calls from the view `V` that answers `answers`, each call as `Step` allows. -/
inductive Runs (max : Nat) : View → List Call → List Answer → Prop
  | nil {V : View} : Runs max V [] []
  | cons {V V' : View} {call : Call} {answer : Answer} {calls : List Call}
      {answers : List Answer} (hstep : Step max V call answer V') (hrest : Runs max V' calls answers) :
      Runs max V (call :: calls) (answer :: answers)

theorem apply_eq_write (V : View) (p : Pending) :
    p.apply V.values = (V.write p.type (if p.isDeletion then none else some p.data)).values := by
  funext t
  unfold Pending.apply write
  dsimp only
  by_cases ht : t = p.type
  · rw [if_pos ht.symm, if_pos ht]
  · rw [if_neg (Ne.symm ht), if_neg ht]

theorem restrictValues_eq_compacted (V : View) :
    restrictValues V.numTypes.toNat V.values = V.compacted.values := by
  funext t
  unfold restrictValues compacted
  dsimp only
  by_cases ht : t < V.numTypes
  · rw [if_pos (UInt8.lt_iff_toNat_lt.mp ht), if_pos ht]
  · rw [if_neg (fun h => ht (UInt8.lt_iff_toNat_lt.mpr h)), if_neg ht]

theorem write_none_of_none {V : View} {t : UInt8} (h : V.values t = none) : V.write t none = V := by
  unfold write
  congr
  funext t'
  by_cases ht : t' = t
  · rw [if_pos ht, ht, h]
  · rw [if_neg ht]

theorem readingOf_into (v : Option ByteArray) (buffer : ByteArray) :
    (⟨(Store.readingOf v (some buffer.size)).1,
        overwriteFront buffer (Store.readingOf v (some buffer.size)).2⟩ : Reading) =
      readInto v buffer := by
  cases v with
  | none => simp [Store.readingOf, readInto, Store.overwriteFront_empty]
  | some v =>
    unfold Store.readingOf readInto
    by_cases hlt : buffer.size < v.size
    · simp [hlt, Store.overwriteFront_empty]
    · simp only [Option.any_some, decide_eq_true_eq, hlt, if_false]
      rw [Store.overwriteFront_eq_append]

theorem readingOf_length (v : Option ByteArray) : (Store.readingOf v none).1 = lengthOf v := by
  cases v <;> rfl

end View

variable [Crc]

/-- An area is active, and its log reads without error up to erased flash. -/
def Clean (l : Layout) (cells : ByteArray) : Prop :=
  ∃ a v, activeOf l cells = some (a, v) ∧ (l.logOf cells a).stop = none ∧
    Blank (l.bytes cells a) (l.logOf cells a).next

variable {l : Layout} {count : Nat} {cells : ByteArray}

theorem Index.Coherent.toClean {i : Index} (h : Coherent l count cells i) : Clean l cells :=
  ⟨i.area, i.version, h.active, h.clean, h.free ▸ h.blank⟩

theorem Index.scanOf_of_clean (h : Clean l cells) (count : Nat) :
    ∃ i, scanOf l count cells = .ok (i, true) := by
  obtain ⟨a, v, hact, hstop, hblank⟩ := h
  refine ⟨⟨a, v, (l.logOf cells a).next, slotsOf count (l.logOf cells a).entries⟩, ?_⟩
  unfold scanOf
  rw [hact]
  dsimp only
  rw [hstop]
  simp [hblank]

namespace Store

variable {c c' : Chip}

theorem Loaded.of_clean (hclean : Clean l c.cells) (hlive : c.failFrom = none)
    {r : Except Error Index} (h : Loaded l count c r c') :
    ∃ i, r = .ok i ∧ Chip.Keeps c c' ∧ Coherent l count c.cells i := by
  obtain ⟨i, hscan⟩ := scanOf_of_clean hclean count
  cases h with
  | refused hdue hk => exact absurd hlive hdue
  | noMaster hnone hk =>
    obtain ⟨a, v, hact, -⟩ := hclean
    rw [hact] at hnone
    cases hnone
  | clean hscan' hk => exact ⟨_, rfl, hk, (scanned_of_scanOf hscan').2.2 rfl⟩
  | recovered hscan' hk hcompact =>
    rw [hscan] at hscan'
    cases hscan'

variable {s s' : Store}

theorem Committed.of_clean (h : s.Consistent c) (hlive : c.failFrom = none)
    (hclean : Clean s.layout c.cells) {step : Index → Chip → Except Error Index → Chip → Prop}
    {r : Except Error Unit} (hc : Committed s c step r s' c') :
    ∃ i c₁ r₀, Coherent s.layout s.numTypes.toNat c₁.cells i ∧ c₁.cells = c.cells ∧
      c₁.failFrom = none ∧ step i c₁ r₀ c' ∧ r = r₀.map (fun _ => ()) ∧ s' = s.committed i r₀ := by
  cases hc with
  | loadFailed hnone hload =>
    obtain ⟨i, hi, -⟩ := hload.of_clean hclean hlive
    cases hi
  | @ran i c₁ r₀ _ hfrom hstep _ _ =>
    rcases hfrom with ⟨hs, rfl⟩ | ⟨-, hload⟩
    · exact ⟨i, c₁, r₀, h.sound i hs, rfl, hlive, hstep, rfl, rfl⟩
    · obtain ⟨i', hi', hk, hcoh⟩ := hload.of_clean hclean hlive
      cases hi'
      exact ⟨i, c₁, r₀, hk.cells ▸ hcoh, hk.cells, hk.failFrom.trans hlive, hstep, rfl, rfl⟩

/-- The store on its chip refines the view `V`, with no fault set and the flash clean. -/
structure Refines (l : Layout) (s : Store) (c : Chip) (V : View) : Prop
    extends s.Consistent c where
  layout : s.layout = l
  live : c.failFrom = none
  clean : Clean s.layout c.cells
  numTypes : s.numTypes = V.numTypes
  values : s.layout.contents c.cells = V.values

variable {V V' : View}

theorem Refines.valueIn (h : Refines l s c V) {i : Index}
    (hcoh : Coherent s.layout s.numTypes.toNat c.cells i) :
    s.layout.valueIn c.cells i.area = V.values := by
  rw [← h.values, Layout.contents_of_active hcoh.active]

theorem Refines.of_cells (h : Refines l s c V) (hcells : c'.cells = c.cells)
    (hlive : c'.failFrom = none) {i : Index} (hcoh : Coherent s.layout s.numTypes.toNat c.cells i) :
    Refines l { s with index? := some i } c' V := by
  refine ⟨⟨⟨h.valid, hcells ▸ h.inside, h.types⟩, fun j hj => ?_⟩, h.layout, hlive,
    hcells ▸ h.clean, h.numTypes, hcells ▸ h.values⟩
  obtain rfl := Option.some.inj hj
  exact hcells ▸ hcoh

theorem Refines.unload (h : Refines l s c V) (hlayout : s'.layout = s.layout)
    (htypes : s'.numTypes ≤ masterType) (hnone : s'.index? = none) (hnum : s'.numTypes = V'.numTypes)
    (hvalues : V'.values = V.values) : Refines l s' c V' :=
  ⟨⟨⟨hlayout ▸ h.valid, hlayout ▸ h.inside, htypes⟩, sound_of_none hnone _⟩, hlayout.trans h.layout,
    h.live, hlayout ▸ h.clean, hnum, hlayout ▸ hvalues ▸ h.values⟩

theorem Refines.reindex (h : Refines l s c V) {i : Index}
    (hcoh : Coherent s.layout s.numTypes.toNat c'.cells i) (hin : s.layout.Inside c'.cells.size)
    (hlive : c'.failFrom = none) (hvalues : s.layout.valueIn c'.cells i.area = V'.values)
    (hnum : V'.numTypes = V.numTypes) : Refines l { s with index? := some i } c' V' := by
  refine ⟨⟨⟨h.valid, hin, h.types⟩, fun j hj => ?_⟩, h.layout, hlive, hcoh.toClean,
    h.numTypes.trans hnum.symm, by rw [Layout.contents_of_active hcoh.active, hvalues]⟩
  obtain rfl := Option.some.inj hj
  exact hcoh

theorem Refines.from_loaded (h : Refines l s c V) {i : Index} {c₁ : Chip}
    (hfrom : (s.index? = some i ∧ c₁ = c) ∨
      (s.index? = none ∧ Loaded s.layout s.numTypes.toNat c (.ok i) c₁)) :
    c₁.cells = c.cells ∧ c₁.failFrom = none ∧ Coherent s.layout s.numTypes.toNat c.cells i := by
  rcases hfrom with ⟨hs, rfl⟩ | ⟨-, hload⟩
  · exact ⟨rfl, h.live, h.sound i hs⟩
  · obtain ⟨i', hi', hk, hcoh⟩ := hload.of_clean h.clean h.live
    cases hi'
    exact ⟨hk.cells, hk.failFrom.trans h.live, hcoh⟩

theorem refines_after_reset (hm : s.Mounted c) (hlive : c.failFrom = none) :
    (Call.reset.run.run (s, c)).1 = .done (.ok ()) ∧
      Refines s.layout (Call.reset.run.run (s, c)).2.1 (Call.reset.run.run (s, c)).2.2
        ⟨fun _ => none, s.numTypes⟩ := by
  rw [Call.run_reset]
  obtain ⟨r, c', hrun, hff, hin, hres⟩ := reset_run hm
  rw [hrun]
  cases hres with
  | done hcoherent hempty =>
    refine ⟨rfl, ⟨⟨hm.valid, hin, hm.types⟩, fun j hj => ?_⟩, rfl, hff.trans hlive,
      hcoherent.toClean, rfl, ?_⟩
    · obtain rfl := Option.some.inj hj
      exact hcoherent
    · funext t
      rw [Layout.contents_of_active hcoherent.active]
      exact hempty t
  | keptBoth hdue => exact absurd hlive hdue
  | keptSecond hdue => exact absurd hlive hdue
  | erasedBoth hdue => exact absurd hlive hdue

end Store

/-- The call answers as `V` allows and leaves a store refining the view after it. -/
def Call.Simulates (l : Layout) (call : Call) (s : Store) (c : Chip) (V : View) : Prop :=
  ∃ V', View.Step l.maxItemSize V call (call.run.run (s, c)).1 V' ∧
    Store.Refines l (call.run.run (s, c)).2.1 (call.run.run (s, c)).2.2 V'

namespace Store

variable {s : Store} {c : Chip} {V : View}

variable [LawfulCrc]

theorem Refines.simulates_init (h : Refines l s c V) : Call.init.Simulates l s c V := by
  unfold Call.Simulates
  rw [Call.run_init, run_init]
  obtain ⟨r, c', hrun, -, -, hload⟩ := load_run h.valid h.inside
  rw [hrun]
  obtain ⟨i, rfl, hk, hcoh⟩ := hload.of_clean h.clean h.live
  exact ⟨V, .init, h.of_cells hk.cells (hk.failFrom.trans h.live) hcoh⟩

omit [LawfulCrc] in
theorem Refines.simulates_deinit (h : Refines l s c V) : Call.deinit.Simulates l s c V :=
  ⟨V, .deinit, h.unload rfl h.types rfl h.numTypes rfl⟩

omit [LawfulCrc] in
theorem Refines.simulates_reset (h : Refines l s c V) : Call.reset.Simulates l s c V := by
  obtain ⟨hok, h'⟩ := refines_after_reset h.toMounted h.live
  refine ⟨_, ?_, h.layout ▸ h.numTypes ▸ h'⟩
  rw [hok]
  exact .reset

theorem Refines.simulates_compact (h : Refines l s c V) : Call.compact.Simulates l s c V := by
  unfold Call.Simulates
  rw [Call.run_compact]
  obtain ⟨r, s', c', hrun, hff, hin, hc⟩ := compact_run h.toMounted h.sound
  rw [hrun]
  obtain ⟨i, c₁, r₀, hcoh, hcells, hlive, hstep, rfl, rfl⟩ :=
    hc.of_clean h.toConsistent h.live h.clean
  cases hstep with
  | tooSmall hbig =>
    exact ((Nat.not_le.mpr hbig) (compactedSize_le_areaSize h.valid (hcells ▸ h.inside)
      hcoh.toScanned (fun _ hp => nomatch hp))).elim
  | done harea hcoherent hsource hvalues =>
    refine ⟨V.compacted, .compact, h.reindex hcoherent hin (hff.trans h.live) ?_ rfl⟩
    rw [hvalues, hcells, h.valueIn (hcells ▸ hcoh), compactedValues, h.numTypes,
      View.restrictValues_eq_compacted]
  | cut hfault hdue => exact absurd hlive hdue

omit [LawfulCrc] in
theorem Refines.simulates_setNumTypes (h : Refines l s c V) (n : UInt8) :
    (Call.setNumTypes n).Simulates l s c V := by
  unfold Call.Simulates
  simp only [Call.run, Store.setNumTypes]
  by_cases hn : n > masterType
  · simp only [if_pos hn]
    exact ⟨V, .setNumTypesBad hn, h⟩
  · simp only [if_neg hn]
    exact ⟨⟨V.values, n⟩, .setNumTypes (UInt8.not_lt.mp hn),
      h.unload rfl (UInt8.not_lt.mp hn) rfl rfl rfl⟩

omit [LawfulCrc] in
theorem Refines.simulates_recreate (h : Refines l s c V) : Call.recreate.Simulates l s c V :=
  ⟨⟨V.values, 16⟩, .recreate, h.unload rfl (show (16 : UInt8) ≤ masterType by decide) rfl rfl rfl⟩

theorem Refines.simulates_set (h : Refines l s c V) (type : UInt8) (value : ByteArray) :
    (Call.set type value).Simulates l s c V := by
  unfold Call.Simulates
  rw [Call.run_set]
  obtain ⟨r, s', c', hrun, hff, hin, hres⟩ := set_run h.toMounted h.sound type value
  rw [hrun]
  rcases hres with ⟨hbad, rfl, rfl, rfl⟩ | ⟨ht, hv, hc⟩
  · exact ⟨V, .setBad (h.layout ▸ h.numTypes ▸ hbad), h⟩
  have ht' : type < V.numTypes := h.numTypes ▸ ht
  have hv' : value.size ≤ l.maxItemSize := h.layout ▸ hv
  obtain ⟨i, c₁, r₀, hcoh, hcells, hlive, hstep, rfl, rfl⟩ :=
    hc.of_clean h.toConsistent h.live h.clean
  have hV := h.valueIn (hcells ▸ hcoh)
  have hdel : (⟨type, 0, value⟩ : Pending).isDeletion = false := by
    simp [Pending.isDeletion, deleteFlag]
  -- the value is appended in place, or a compaction carries it
  cases hstep with
  | inPlace hfit happended =>
    cases happended with
    | done harea hcoherent hother hvalues =>
      refine ⟨V.write type (some value), .set ht' hv',
        h.reindex hcoherent hin (hff.trans h.live) ?_ rfl⟩
      rw [harea, hvalues, hcells, hV, View.apply_eq_write, hdel]
      rfl
    | torn hdue => exact absurd hlive hdue
  | compacted hfull hcompacted =>
    cases hcompacted with
    | tooSmall hbig =>
      exact ⟨V, .setTooSmall ht' hv', h.of_cells hcells hlive (hcells ▸ hcoh)⟩
    | done harea hcoherent hsource hvalues =>
      refine ⟨V.compacted.write type (some value), .setCompacting ht' hv',
        h.reindex hcoherent hin (hff.trans h.live) ?_ rfl⟩
      rw [hvalues, hcells, hV, compactedValues, h.numTypes, View.restrictValues_eq_compacted,
        View.apply_eq_write, hdel]
      rfl
    | cut hfault hdue => exact absurd hlive hdue

theorem Refines.simulates_remove (h : Refines l s c V) (type : UInt8) :
    (Call.remove type).Simulates l s c V := by
  unfold Call.Simulates
  rw [Call.run_remove]
  obtain ⟨r, s', c', hrun, hff, hin, hres⟩ := remove_run h.toMounted h.sound type
  rw [hrun]
  rcases hres with ⟨hbad, rfl, rfl, rfl⟩ | ⟨ht, hc⟩
  · exact ⟨V, .removeBad (h.numTypes ▸ hbad), h⟩
  have ht' : type < V.numTypes := h.numTypes ▸ ht
  obtain ⟨i, c₁, r₀, hcoh, hcells, hlive, hstep, rfl, rfl⟩ :=
    hc.of_clean h.toConsistent h.live h.clean
  have hV := h.valueIn (hcells ▸ hcoh)
  have hdel : (⟨type, deleteFlag, .empty⟩ : Pending).isDeletion = true := by
    simp [Pending.isDeletion, deleteFlag]
  rcases hstep with ⟨hnone, rfl, rfl⟩ | ⟨-, hadded⟩
  · -- the type holds no value: nothing is written
    have hvalue : V.values type = none := by
      rcases (hcells ▸ hcoh).slot_value h.valid h.inside (Nat.le_of_lt (UInt8.toNat_lt _))
        (UInt8.lt_iff_toNat_lt.mp ht) with ⟨-, hval⟩ | ⟨e, sl, hsl, -⟩
      · rw [← hV]
        exact hval
      · rw [hsl] at hnone
        cases hnone
    refine ⟨V.write type none, .remove ht', ?_⟩
    rw [View.write_none_of_none hvalue]
    exact h.of_cells hcells hlive (hcells ▸ hcoh)
  · -- a deletion record is appended in place, or a compaction drops the value
    cases hadded with
    | inPlace hfit happended =>
      cases happended with
      | done harea hcoherent hother hvalues =>
        refine ⟨V.write type none, .remove ht', h.reindex hcoherent hin (hff.trans h.live) ?_ rfl⟩
        rw [harea, hvalues, hcells, hV, View.apply_eq_write, hdel]
        rfl
      | torn hdue => exact absurd hlive hdue
    | compacted hfull hcompacted =>
      cases hcompacted with
      | tooSmall hbig =>
        exact ((Nat.not_le.mpr hbig) (compactedSize_le_areaSize h.valid (hcells ▸ h.inside)
          hcoh.toScanned (fun p hp => by cases hp; exact hdel))).elim
      | done harea hcoherent hsource hvalues =>
        refine ⟨V.compacted.write type none, .removeCompacting ht',
          h.reindex hcoherent hin (hff.trans h.live) ?_ rfl⟩
        rw [hvalues, hcells, hV, compactedValues, h.numTypes, View.restrictValues_eq_compacted,
          View.apply_eq_write, hdel]
        rfl
      | cut hfault hdue => exact absurd hlive hdue

theorem Refines.simulates_get (h : Refines l s c V) (type : UInt8) (buffer : ByteArray) :
    (Call.get type buffer).Simulates l s c V := by
  unfold Call.Simulates
  rw [Call.run_get, Store.run_get]
  obtain ⟨res, s', c', hrun, hff, hin, hres⟩ :=
    readValue_run h.toMounted h.sound type (some buffer.size)
  rw [hrun]
  rcases hres with ⟨hbad, rfl, rfl, rfl⟩ | ⟨-, e, -, hload, -, -⟩ |
    ⟨ht, i, c₁, hfrom, hk, ⟨rfl, rfl⟩ | ⟨hdue, -⟩⟩
  · refine ⟨V, ?_, h⟩
    rw [overwriteFront_empty]
    exact .getBad (h.numTypes ▸ hbad)
  · obtain ⟨i, hi, -⟩ := hload.of_clean h.clean h.live
    cases hi
  · obtain ⟨hcells, hlive, hcoh⟩ := h.from_loaded hfrom
    refine ⟨V, ?_, h.of_cells (hk.cells.trans hcells) (hk.failFrom.trans hlive) hcoh⟩
    rw [hcells, h.values, View.readingOf_into]
    exact .get (h.numTypes ▸ ht)
  · exact absurd h.live hdue

theorem Refines.simulates_itemSize (h : Refines l s c V) (type : UInt8) :
    (Call.itemSize type).Simulates l s c V := by
  unfold Call.Simulates
  rw [Call.run_itemSize, Store.run_itemSize]
  obtain ⟨res, s', c', hrun, hff, hin, hres⟩ := readValue_run h.toMounted h.sound type none
  rw [hrun]
  rcases hres with ⟨hbad, rfl, rfl, rfl⟩ | ⟨-, e, -, hload, -, -⟩ |
    ⟨ht, i, c₁, hfrom, hk, ⟨rfl, rfl⟩ | ⟨hdue, -⟩⟩
  · exact ⟨V, .itemSizeBad (h.numTypes ▸ hbad), h⟩
  · obtain ⟨i, hi, -⟩ := hload.of_clean h.clean h.live
    cases hi
  · obtain ⟨hcells, hlive, hcoh⟩ := h.from_loaded hfrom
    refine ⟨V, ?_, h.of_cells (hk.cells.trans hcells) (hk.failFrom.trans hlive) hcoh⟩
    rw [hcells, h.values, View.readingOf_length]
    exact .itemSize (h.numTypes ▸ ht)
  · exact absurd h.live hdue

omit [LawfulCrc] in
theorem Refines.of_keeps (h : Refines l s c V) (hk : Chip.Keeps c c') : Refines l s c' V :=
  ⟨⟨⟨h.valid, hk.cells ▸ h.inside, h.types⟩, hk.cells ▸ h.sound⟩, h.layout,
    hk.failFrom.trans h.live, hk.cells ▸ h.clean, h.numTypes, hk.cells ▸ h.values⟩

theorem Refines.simulates_probe (h : Refines l s c V) (type : UInt8) (buffer : ByteArray) :
    (Call.probe type buffer).Simulates l s c V := by
  unfold Call.Simulates
  rw [Call.run_probe]
  obtain ⟨res, c', hrun, hk, hres⟩ := probe_run h.valid h.inside type buffer
  rw [hrun]
  rcases hres with ⟨hbad, rfl⟩ | ⟨ht, rfl | ⟨hdue, -⟩⟩
  · refine ⟨V, ?_, h.of_keeps hk⟩
    rw [overwriteFront_empty]
    exact .probeBad hbad
  · refine ⟨V, ?_, h.of_keeps hk⟩
    rw [h.values, View.readingOf_into]
    exact .probe ht
  · exact absurd h.live hdue

theorem Refines.simulates_statistics (h : Refines l s c V) : Call.statistics.Simulates l s c V := by
  unfold Call.Simulates
  rw [Call.run_statistics]
  obtain ⟨r, c', hrun, -, -, hfrom⟩ := statistics_run h.toMounted
  rw [hrun]
  rcases hfrom with ⟨i, hs, rfl, rfl⟩ | ⟨-, hload⟩
  · exact ⟨V, .statistics, h.of_cells rfl h.live (h.sound i hs)⟩
  · obtain ⟨i, rfl, hk, hcoh⟩ := hload.of_clean h.clean h.live
    exact ⟨V, .statistics, h.of_cells hk.cells (hk.failFrom.trans h.live) hcoh⟩

theorem Refines.simulates (h : Refines l s c V) (call : Call) : call.Simulates l s c V := by
  cases call with
  | init => exact h.simulates_init
  | deinit => exact h.simulates_deinit
  | reset => exact h.simulates_reset
  | compact => exact h.simulates_compact
  | setNumTypes n => exact h.simulates_setNumTypes n
  | set type value => exact h.simulates_set type value
  | remove type => exact h.simulates_remove type
  | get type buffer => exact h.simulates_get type buffer
  | itemSize type => exact h.simulates_itemSize type
  | probe type buffer => exact h.simulates_probe type buffer
  | statistics => exact h.simulates_statistics
  | recreate => exact h.simulates_recreate

omit [LawfulCrc] in
theorem run_mapM_cons (call : Call) (calls : List Call) (p : Store × Chip) :
    ((call :: calls).mapM Call.run).run p =
      ((call.run.run p).1 :: ((calls.mapM Call.run).run (call.run.run p).2).1,
        ((calls.mapM Call.run).run (call.run.run p).2).2) := by
  rw [List.mapM_cons]
  rfl

theorem Refines.runs (h : Refines l s c V) (calls : List Call) :
    View.Runs l.maxItemSize V calls ((calls.mapM Call.run).run (s, c)).1 := by
  induction calls generalizing s c V with
  | nil => exact .nil
  | cons call calls ih =>
    rw [run_mapM_cons]
    obtain ⟨V', hstep, h'⟩ := h.simulates call
    exact .cons hstep (ih h')

end Store

variable [LawfulCrc]

open Store in
/-- With no faults, every session after a reset runs as `View.Runs` allows. -/
theorem fault_free_session_refines_view {s : Store} {c : Chip} (hm : s.Mounted c)
    (hlive : c.failFrom = none) (calls : List Call) :
    (Call.reset.run.run (s, c)).1 = .done (.ok ()) ∧
      View.Runs s.maxItemSize ⟨fun _ => none, s.numTypes⟩ calls
        ((calls.mapM Call.run).run (Call.reset.run.run (s, c)).2).1 := by
  obtain ⟨hok, h⟩ := refines_after_reset hm hlive
  exact ⟨hok, h.runs calls⟩

end NorStore

namespace NorStore

open Record Generation Index Log

/-- A value of type 0 stored and read back on a blank chip of two 64-byte areas. -/
theorem blank_chip_session_refines_view :
    Store.Mounted { layout := ⟨⟨1, 1, 64⟩, 0, 64⟩ } (Chip.erased 128) ∧
      (Chip.erased 128).failFrom = none ∧
      (Call.reset.run.run ({ layout := ⟨⟨1, 1, 64⟩, 0, 64⟩ }, Chip.erased 128)).1 = .done (.ok ()) ∧
      View.Runs ({ layout := ⟨⟨1, 1, 64⟩, 0, 64⟩ } : Store).maxItemSize ⟨fun _ => none, 16⟩
        [.set 0 ⟨#[0xAA]⟩, .get 0 ⟨#[0]⟩]
        ((([.set 0 ⟨#[0xAA]⟩, .get 0 ⟨#[0]⟩] : List Call).mapM Call.run).run
          (Call.reset.run.run ({ layout := ⟨⟨1, 1, 64⟩, 0, 64⟩ }, Chip.erased 128)).2).1 := by
  have hm : Store.Mounted { layout := ⟨⟨1, 1, 64⟩, 0, 64⟩ } (Chip.erased 128) :=
    ⟨Layout.valid_of_create (show Layout.create ⟨1, 1, 64⟩ 0 128 = .ok ⟨⟨1, 1, 64⟩, 0, 64⟩ from rfl),
      Nat.le_of_eq (size_replicate_erased 128).symm, by decide⟩
  exact ⟨hm, rfl, fault_free_session_refines_view hm rfl _⟩

end NorStore

namespace NorStore

open Record Generation Index Log

open Store in
/-- A value of a type at or above the number of types does not survive a compaction. -/
theorem compaction_drops_type_above_numTypes :
    ((([.set 10 ⟨#[0xAA]⟩, .setNumTypes 4, .compact, .probe 10 ⟨#[0]⟩] : List Call).mapM
        Call.run).run (Call.reset.run.run ({ layout := ⟨⟨1, 1, 64⟩, 0, 64⟩ }, Chip.erased 128)).2).1.getLast? =
      some (.reading ⟨.error .notFound, ⟨#[0]⟩⟩) := by
  have hm : Store.Mounted { layout := ⟨⟨1, 1, 64⟩, 0, 64⟩ } (Chip.erased 128) :=
    ⟨Layout.valid_of_create (show Layout.create ⟨1, 1, 64⟩ 0 128 = .ok ⟨⟨1, 1, 64⟩, 0, 64⟩ from rfl),
      Nat.le_of_eq (size_replicate_erased 128).symm, by decide⟩
  obtain ⟨-, h⟩ := refines_after_reset hm rfl
  have hruns := h.runs [.set 10 ⟨#[0xAA]⟩, .setNumTypes 4, .compact, .probe 10 ⟨#[0]⟩]
  rw [Prod.eta] at hruns
  generalize ((([.set 10 ⟨#[0xAA]⟩, .setNumTypes 4, .compact, .probe 10 ⟨#[0]⟩] : List Call).mapM
    Call.run).run (Call.reset.run.run ({ layout := ⟨⟨1, 1, 64⟩, 0, 64⟩ }, Chip.erased 128)).2).1 =
    answers at hruns ⊢
  -- whatever the write answered, the number of types is then 4 and the compaction drops type 10
  cases hruns with | cons _ hruns =>
  cases hruns with | cons hnum hruns =>
  cases hruns with | cons hcompact hruns =>
  cases hruns with | cons hprobe hruns =>
  cases hruns
  cases hnum with
  | setNumTypesBad hbad => exact absurd hbad (by decide)
  | setNumTypes hn =>
    cases hcompact with
    | compact =>
      cases hprobe with
      | probeBad hbad => exact absurd hbad (by decide)
      | probe ht => rfl

end NorStore
