import NorStore.Proofs.Refinement
import NorStore.Proofs.TornRecord

/-! # Power loss

A power loss cuts a call short at one of its accesses of the flash: from there on the chip
refuses every access, until it is powered again before the next call (`Call.runCut`). The store
is built so that a call cut short takes its whole effect or none. A compaction writes the master
record of the new generation last, in one access, so up to that write the old area stays active
and untouched. A record appended in place goes after the end of the log, so every record before
it stays. And the next load compacts away whatever a cut left after the log's end.

The exception is the checksum. A record cut short in place keeps its header, and with it the
checksum of the whole value; loading tells a torn record from a whole one by that checksum alone,
so a torn payload that happens to match it is read as the type's value (`View.Cut.torn`).

`Store.Recoverable` is what the store keeps through cuts: an area is active and the flash holds
the view's values, though the active area may end in a torn record. Each call keeps it and
answers as the view allows (`Store.Recoverable.recovers`), so a session from a reset whose calls
other than resets may each be cut short runs as `View.CutRuns` says
(`power_loss_session_refines_view`).
-/

namespace NorStore

open Record Generation Index Log

namespace View

/-- What a call may answer after cuts: a `Step` from the view, or from the view compacted. -/
def Resumes (max : Nat) (V : View) (call : Call) (answer : Answer) (V' : View) : Prop :=
  Step max V call answer V' ∨ Step max V.compacted call answer V'

theorem Resumes.of_start {max : Nat} {V W V' : View} {call : Call} {answer : Answer}
    (hW : W = V ∨ W = V.compacted) (h : Step max W call answer V') :
    Resumes max V call answer V' := by
  rcases hW with rfl | rfl
  · exact .inl h
  · exact .inr h

variable [Crc]

/-- The views a call cut short may leave: unchanged, compacted, or with a torn value. -/
inductive Cut (l : Layout) (V : View) : Call → View → Prop
  | kept {call : Call} : Cut l V call V
  | recovered {call : Call} : Cut l V call V.compacted
  -- a value stored in place whose record was cut after `j` bytes, a multiple of 64, and whose
  -- torn payload still matches the checksum in its header
  | torn {t : UInt8} {v : ByteArray} {j : Nat} {W : View} (hW : W = V ∨ W = V.compacted)
      (hj : 0 < j) (hjs : j < l.recordSize v.size) (hcut : j % scratchSize = 0)
      (hcrc : (Header.ofPayload t 0 v).Matches (tornPayload v j)) :
      Cut l V (.set t v) (W.write t (some (tornPayload v j)))

theorem Cut.of_start {l : Layout} {V W : View} {call : Call} (hW : W = V ∨ W = V.compacted) :
    Cut l V call W := by
  rcases hW with rfl | rfl
  · exact .kept
  · exact .recovered

/-- A session in which a call paired with `some n` is cut short after `n` more accesses. -/
inductive CutRuns (l : Layout) : View → List (Call × Option Nat) → List Answer → Prop
  | nil {V : View} : CutRuns l V [] []
  | cons {V V' : View} {call : Call} {cut : Option Nat} {answer : Answer}
      {steps : List (Call × Option Nat)} {answers : List Answer}
      (hstep : Resumes l.maxItemSize V call answer V' ∨
        (cut.isSome ∧ (∃ e, answer.error? = some e ∧ e.isFlashFault = true) ∧ Cut l V call V'))
      (hrest : CutRuns l V' steps answers) :
      CutRuns l V ((call, cut) :: steps) (answer :: answers)

end View

namespace Call

variable [Crc]

/-- Runs a call; with `some n`, a power loss cuts it short after `n` more accesses. -/
def runCut (call : Call) : Option Nat → StateM (Store × Chip) Answer
  | none => call.run
  | some n => do
    modify fun p => (p.1, p.2.failAfter n)
    let answer ← call.run
    modify fun p => (p.1, p.2.clearFaults)
    return answer

theorem runCut_none (call : Call) (p : Store × Chip) : (call.runCut none).run p = call.run.run p :=
  rfl

theorem runCut_some (call : Call) (n : Nat) (p : Store × Chip) :
    (call.runCut (some n)).run p =
      ((call.run.run (p.1, p.2.failAfter n)).1, ((call.run.run (p.1, p.2.failAfter n)).2.1,
        (call.run.run (p.1, p.2.failAfter n)).2.2.clearFaults)) := rfl

theorem run_mapM_runCut_cons (step : Call × Option Nat) (steps : List (Call × Option Nat))
    (p : Store × Chip) :
    ((step :: steps).mapM fun (st : Call × Option Nat) => st.1.runCut st.2).run p =
      (((step.1.runCut step.2).run p).1 ::
          ((steps.mapM fun (st : Call × Option Nat) => st.1.runCut st.2).run
            ((step.1.runCut step.2).run p).2).1,
        ((steps.mapM fun (st : Call × Option Nat) => st.1.runCut st.2).run
          ((step.1.runCut step.2).run p).2).2) := by
  rw [List.mapM_cons]
  rfl

end Call

namespace Store

variable {l : Layout} {s s' : Store} {c c' c₁ : Chip} {V W : View}

variable [Crc]

/-- The store holds the view `V` so that a power loss cannot break it; a torn tail is allowed. -/
structure Recoverable (l : Layout) (s : Store) (c : Chip) (V : View) : Prop
    extends s.Consistent c where
  layout : s.layout = l
  active : activeOf s.layout c.cells ≠ none
  numTypes : s.numTypes = V.numTypes
  values : s.layout.contents c.cells = V.values

theorem active_ne_none_of_coherent {count : Nat} {cells : ByteArray} {i : Index}
    (hcoh : Coherent l count cells i) : activeOf l cells ≠ none := by
  rw [hcoh.active]
  exact Option.some_ne_none _

theorem Refines.recoverable (h : Refines l s c V) : Recoverable l s c V := by
  obtain ⟨a, v, hact, -, -⟩ := h.clean
  exact ⟨h.toConsistent, h.layout, by rw [hact]; exact Option.some_ne_none _, h.numTypes, h.values⟩

theorem Recoverable.of_cells (h : Recoverable l s c V) (hcells : c'.cells = c.cells) :
    Recoverable l s c' V :=
  ⟨h.toConsistent.of_cells hcells, h.layout, hcells ▸ h.active, h.numTypes, hcells ▸ h.values⟩

theorem Recoverable.valueIn (h : Recoverable l s c V) {i : Index}
    (hcoh : Coherent s.layout s.numTypes.toNat c.cells i) :
    s.layout.valueIn c.cells i.area = V.values := by
  rw [← Layout.contents_of_active hcoh.active, h.values]

theorem Recoverable.forget (h : Recoverable l s c V) (hin : s.layout.Inside c'.cells.size)
    (hact : activeOf s.layout c'.cells ≠ none) (hvalues : s.layout.contents c'.cells = W.values)
    (hnum : W.numTypes = V.numTypes) : Recoverable l { s with index? := none } c' W := by
  have hlayout : ({ s with index? := none } : Store).layout = s.layout := rfl
  have hc : Consistent { s with index? := none } c' := .of_none h.toMounted hlayout h.types rfl hin
  exact ⟨hc, h.layout, hact, h.numTypes.trans hnum.symm, hvalues⟩

theorem Recoverable.reindex (h : Recoverable l s c V) {i : Index}
    (hcoh : Coherent s.layout s.numTypes.toNat c'.cells i) (hin : s.layout.Inside c'.cells.size)
    (hvalues : s.layout.valueIn c'.cells i.area = W.values) (hnum : W.numTypes = V.numTypes) :
    Recoverable l { s with index? := some i } c' W := by
  refine ⟨⟨⟨h.valid, hin, h.types⟩, fun j hj => ?_⟩, h.layout, active_ne_none_of_coherent hcoh,
    h.numTypes.trans hnum.symm, ?_⟩
  · obtain rfl := Option.some.inj hj
    exact hcoh
  · rw [Layout.contents_of_active hcoh.active, hvalues]

theorem Recoverable.unload (h : Recoverable l s c V) (hlayout : s'.layout = s.layout)
    (htypes : s'.numTypes ≤ masterType) (hnone : s'.index? = none)
    (hnum : s'.numTypes = W.numTypes) (hvalues : W.values = V.values) : Recoverable l s' c W :=
  ⟨.of_none h.toMounted hlayout htypes hnone h.inside, hlayout.trans h.layout, hlayout ▸ h.active,
    hnum, hlayout ▸ hvalues ▸ h.values⟩

omit [Crc] in
theorem numTypes_of_start (hW : W = V ∨ W = V.compacted) : W.numTypes = V.numTypes := by
  rcases hW with rfl | rfl <;> rfl

theorem Recoverable.restrict_start (h : Recoverable l s c V) (hW : W = V ∨ W = V.compacted) :
    restrictValues s.numTypes.toNat W.values = W.compacted.values := by
  rw [h.numTypes, ← numTypes_of_start hW, View.restrictValues_eq_compacted]

/-! ### Loading after a cut -/

theorem Loaded.recovers (hl : l.Valid) (h : l.Inside c.cells.size) {count : Nat}
    (hact : activeOf l c.cells ≠ none) {r : Except Error Index} (hload : Loaded l count c r c') :
    (∃ e, r = .error e ∧ e.isFlashFault = true ∧ c.failFrom ≠ none ∧
        activeOf l c'.cells ≠ none ∧ l.contents c'.cells = l.contents c.cells) ∨
      (∃ i, r = .ok i ∧ Coherent l count c'.cells i ∧
        (l.contents c'.cells = l.contents c.cells ∨
          l.contents c'.cells = restrictValues count (l.contents c.cells))) := by
  cases hload with
  | refused hdue hk =>
    exact .inl ⟨_, rfl, rfl, hdue, by rw [hk.cells]; exact hact, by rw [hk.cells]⟩
  | noMaster hnone hk => exact absurd hnone hact
  | clean hscan hk =>
    refine .inr ⟨_, rfl, ?_, .inl (by rw [hk.cells])⟩
    rw [hk.cells]
    exact (scanned_of_scanOf hscan).2.2 rfl
  | recovered hscan hk hcompact =>
    obtain ⟨hscanned, -, -⟩ := scanned_of_scanOf hscan
    have hold := Layout.contents_of_active hscanned.active
    -- the recovery compaction always fits; a due fault may cut it
    cases hcompact with
    | tooSmall hbig =>
      exact ((Nat.not_le.mpr hbig) (compactedSize_le_areaSize hl h hscanned
        (fun _ hp => nomatch hp))).elim
    | done harea hcoherent hsource hvalues =>
      refine .inr ⟨_, rfl, hcoherent, .inr ?_⟩
      rw [Layout.contents_of_active hcoherent.active, hvalues, hold, hk.cells]
      rfl
    | cut hfault hdue hactive hsource htarget =>
      refine .inl ⟨_, rfl, hfault, hk.failFrom ▸ hdue, ?_, ?_⟩
      · rw [hactive]
        exact Option.some_ne_none _
      · rw [Layout.contents_of_active hactive, Layout.valueIn_congr hsource, hold, hk.cells]

theorem Recoverable.loaded_ok (h : Recoverable l s c V) {i : Index}
    (hload : Loaded s.layout s.numTypes.toNat c (.ok i) c') :
    Coherent s.layout s.numTypes.toNat c'.cells i ∧
      ∃ W, (W = V ∨ W = V.compacted) ∧ s.layout.valueIn c'.cells i.area = W.values := by
  rcases Loaded.recovers h.valid h.inside h.active hload with ⟨e, he, -⟩ | ⟨i', hi, hcoh, hsame⟩
  · cases he
  cases hi
  refine ⟨hcoh, ?_⟩
  rw [← Layout.contents_of_active hcoh.active]
  rcases hsame with hsame | hrestrict
  · exact ⟨V, .inl rfl, by rw [hsame, h.values]⟩
  · exact ⟨V.compacted, .inr rfl, by rw [hrestrict, h.values, h.restrict_start (.inl rfl)]⟩

theorem Recoverable.from_loaded (h : Recoverable l s c V) {i : Index}
    (hfrom : (s.index? = some i ∧ c₁ = c) ∨
      (s.index? = none ∧ Loaded s.layout s.numTypes.toNat c (.ok i) c₁)) :
    Coherent s.layout s.numTypes.toNat c₁.cells i ∧
      ∃ W, (W = V ∨ W = V.compacted) ∧ s.layout.valueIn c₁.cells i.area = W.values := by
  rcases hfrom with ⟨hs, rfl⟩ | ⟨-, hload⟩
  · exact ⟨h.sound i hs, V, .inl rfl, h.valueIn (h.sound i hs)⟩
  · exact h.loaded_ok hload

theorem Recoverable.forget_kept (h : Recoverable l s c V) {i : Index}
    (hcoh : Coherent s.layout s.numTypes.toNat c₁.cells i) (hW : W = V ∨ W = V.compacted)
    (hval : s.layout.valueIn c₁.cells i.area = W.values) (hin : s.layout.Inside c'.cells.size)
    (hactive : activeOf s.layout c'.cells = activeOf s.layout c₁.cells)
    (hsame : s.layout.contents c'.cells = s.layout.contents c₁.cells) :
    Recoverable l { s with index? := none } c' W := by
  refine h.forget hin ?_ ?_ (numTypes_of_start hW)
  · rw [hactive]
    exact active_ne_none_of_coherent hcoh
  · rw [hsame, Layout.contents_of_active hcoh.active, hval]

/-! ### What a view allows of a call -/

/-- What the view `V` allows a call to answer and leave, with a fault `due` or not. -/
def Admits (l : Layout) (V : View) (call : Call) (due : Option Nat) (answer : Answer)
    (s' : Store) (c' : Chip) : Prop :=
  ∃ V', (V.Resumes l.maxItemSize call answer V' ∨
      (due ≠ none ∧ (∃ e, answer.error? = some e ∧ e.isFlashFault = true) ∧ View.Cut l V call V')) ∧
    Recoverable l s' c' V'

theorem Admits.resumes {call : Call} {due : Option Nat} {answer : Answer} {V' : View}
    (hW : W = V ∨ W = V.compacted) (hstep : View.Step l.maxItemSize W call answer V')
    (h : Recoverable l s' c' V') : Admits l V call due answer s' c' :=
  ⟨V', .inl (.of_start hW hstep), h⟩

theorem Admits.cut {call : Call} {due : Option Nat} {answer : Answer} {e : Error} {V' : View}
    (hdue : due ≠ none) (he : answer.error? = some e) (hf : e.isFlashFault = true)
    (hcut : View.Cut l V call V') (h : Recoverable l s' c' V') : Admits l V call due answer s' c' :=
  ⟨V', .inr ⟨hdue, ⟨e, he, hf⟩, hcut⟩, h⟩

theorem Recoverable.load_failed (h : Recoverable l s c V) {e : Error}
    (hload : Loaded s.layout s.numTypes.toNat c (.error e) c') (hin : s.layout.Inside c'.cells.size)
    {call : Call} {answer : Answer} (he : answer.error? = some e) :
    Admits l V call c.failFrom answer { s with index? := none } c' := by
  rcases Loaded.recovers h.valid h.inside h.active hload with
    ⟨e', he', hf, hdue, hact, hcontents⟩ | ⟨i, hi, -⟩
  · cases he'
    exact .cut hdue he hf .kept (h.forget hin hact (hcontents.trans h.values) rfl)
  · cases hi

omit [Crc] in
theorem committed_fault (s : Store) (i : Index) {e : Error} (he : e.isFlashFault = true) :
    s.committed i (.error e) = { s with index? := none } := by
  simp only [committed, if_pos he]

omit [Crc] in
theorem committed_not_fault (s : Store) (i : Index) {e : Error} (he : e.isFlashFault = false) :
    s.committed i (.error e) = { s with index? := some i } := by
  simp only [committed, he, Bool.false_eq_true, if_false]

theorem Recoverable.admits_committed (h : Recoverable l s c V) {call : Call}
    {step : Index → Chip → Except Error Index → Chip → Prop} {r : Except Error Unit}
    (hc : Committed s c step r s' c') (hin : s.layout.Inside c'.cells.size)
    (hstep : ∀ i c₁ r₀ W, Coherent s.layout s.numTypes.toNat c₁.cells i →
      (W = V ∨ W = V.compacted) → s.layout.valueIn c₁.cells i.area = W.values →
      s.layout.Inside c₁.cells.size → step i c₁ r₀ c' →
      Admits l V call c₁.failFrom (.done (r₀.map fun _ => ())) (s.committed i r₀) c') :
    Admits l V call c.failFrom (.done r) s' c' := by
  cases hc with
  | loadFailed hnone hload => exact h.load_failed hload hin (Answer.error?_done.mpr rfl)
  | ran hfrom hran hff hin₁ =>
    obtain ⟨hcoh, W, hW, hval⟩ := h.from_loaded hfrom
    rw [← hff]
    exact hstep _ _ _ W hcoh hW hval hin₁ hran

/-! ### The device steps -/

theorem Recoverable.admits_compaction_cut (h : Recoverable l s c V) {i : Index} {call : Call}
    {e : Error} (hW : W = V ∨ W = V.compacted)
    (hval : s.layout.valueIn c₁.cells i.area = W.values) (hin : s.layout.Inside c'.cells.size)
    (hfault : e.isFlashFault = true) (hdue : c₁.failFrom ≠ none)
    (hactive : activeOf s.layout c'.cells = some (i.area, i.version))
    (hsource : s.layout.bytes c'.cells i.area = s.layout.bytes c₁.cells i.area) :
    Admits l V call c₁.failFrom (.done ((Except.error e : Except Error Index).map fun _ => ()))
      (s.committed i (.error e)) c' := by
  rw [committed_fault s i hfault]
  refine .cut hdue (Answer.error?_done.mpr rfl) hfault (.of_start hW)
    (h.forget hin ?_ ?_ (numTypes_of_start hW))
  · rw [hactive]
    exact Option.some_ne_none _
  · rw [Layout.contents_of_active hactive, Layout.valueIn_congr hsource, hval]

theorem Recoverable.compact_step (h : Recoverable l s c V) {i : Index} {r₀ : Except Error Index}
    (hcoh : Coherent s.layout s.numTypes.toNat c₁.cells i) (hW : W = V ∨ W = V.compacted)
    (hval : s.layout.valueIn c₁.cells i.area = W.values) (hin₁ : s.layout.Inside c₁.cells.size)
    (hin : s.layout.Inside c'.cells.size)
    (hstep : Compacted s.layout s.numTypes.toNat c₁ i none r₀ c') :
    Admits l V .compact c₁.failFrom (.done (r₀.map fun _ => ())) (s.committed i r₀) c' := by
  have hnum := numTypes_of_start hW
  cases hstep with
  | tooSmall hbig =>
    exact ((Nat.not_le.mpr hbig) (compactedSize_le_areaSize h.valid hin₁ hcoh.toScanned
      (fun _ hp => nomatch hp))).elim
  | done harea hcoherent hsource hvalues =>
    refine .resumes hW .compact (h.reindex hcoherent hin ?_ hnum)
    rw [hvalues, hval]
    exact h.restrict_start hW
  | cut hfault hdue hactive hsource htarget =>
    exact h.admits_compaction_cut hW hval hin hfault hdue hactive hsource

theorem Recoverable.set_step (h : Recoverable l s c V) {type : UInt8} {value : ByteArray}
    (ht : type < s.numTypes) (hv : value.size ≤ s.layout.maxItemSize) {i : Index}
    {r₀ : Except Error Index} (hcoh : Coherent s.layout s.numTypes.toNat c₁.cells i)
    (hW : W = V ∨ W = V.compacted) (hval : s.layout.valueIn c₁.cells i.area = W.values)
    (hin₁ : s.layout.Inside c₁.cells.size) (hin : s.layout.Inside c'.cells.size)
    (hstep : Added s.layout s.numTypes.toNat c₁ i ⟨type, 0, value⟩ r₀ c') :
    Admits l V (.set type value) c₁.failFrom (.done (r₀.map fun _ => ())) (s.committed i r₀) c' := by
  have hl := h.layout
  subst hl
  have hnum := numTypes_of_start hW
  have ht' : type < W.numTypes := hnum ▸ h.numTypes ▸ ht
  have htype : type < masterType := UInt8.lt_of_lt_of_le ht h.types
  have hlen : value.size ≤ 0xFFFF := by
    simp only [Layout.maxItemSize] at hv
    omega
  have hkeep (d : ByteArray) : (⟨type, 0, d⟩ : Pending).isDeletion = false := by
    simp [Pending.isDeletion, deleteFlag]
  cases hstep with
  | inPlace hfit happended =>
    cases happended with
    | done harea hcoherent hother hvalues =>
      refine .resumes hW (.set ht' hv) (h.reindex hcoherent hin ?_ hnum)
      rw [harea, hvalues, hval, View.apply_eq_write, hkeep]
      rfl
    | torn hdue hj hcut hbytes hother =>
      -- the record was cut where the log ended: the log keeps its values, or reads it whole
      rw [committed_fault s i rfl]
      obtain ⟨hactive, hcontents⟩ :=
        torn_contents h.valid hin₁ hcoh hfit htype hlen hj hcut hbytes hother
      rcases hcontents with hsame | ⟨hpos, hcrc, htorn⟩
      · exact .cut hdue (Answer.error?_done.mpr rfl) rfl (.of_start hW)
          (h.forget_kept hcoh hW hval hin hactive hsame)
      · have hact : activeOf s.layout c'.cells ≠ none := by
          rw [hactive]
          exact active_ne_none_of_coherent hcoh
        refine .cut hdue (Answer.error?_done.mpr rfl) rfl (.torn hW hpos hj hcut hcrc)
          (h.forget hin hact ?_ hnum)
        dsimp only at htorn
        rw [htorn, Layout.contents_of_active hcoh.active, hval, View.apply_eq_write, hkeep]
        rfl
  | compacted hfull hcompacted =>
    cases hcompacted with
    | tooSmall hbig =>
      rw [committed_not_fault s i rfl]
      exact .resumes hW (.setTooSmall ht' hv) (h.reindex hcoh hin₁ hval hnum)
    | done harea hcoherent hsource hvalues =>
      refine .resumes hW (.setCompacting ht' hv) (h.reindex hcoherent hin ?_ hnum)
      rw [hvalues, hval, compactedValues, h.restrict_start hW, View.apply_eq_write, hkeep]
      rfl
    | cut hfault hdue hactive hsource htarget =>
      exact h.admits_compaction_cut hW hval hin hfault hdue hactive hsource

theorem Recoverable.remove_step (h : Recoverable l s c V) {type : UInt8} (ht : type < s.numTypes)
    {i : Index} {r₀ : Except Error Index} (hcoh : Coherent s.layout s.numTypes.toNat c₁.cells i)
    (hW : W = V ∨ W = V.compacted) (hval : s.layout.valueIn c₁.cells i.area = W.values)
    (hin₁ : s.layout.Inside c₁.cells.size) (hin : s.layout.Inside c'.cells.size)
    (hstep : ((i.slot? type).isNone ∧ r₀ = .ok i ∧ c' = c₁) ∨
      ((i.slot? type).isSome ∧
        Added s.layout s.numTypes.toNat c₁ i ⟨type, deleteFlag, .empty⟩ r₀ c')) :
    Admits l V (.remove type) c₁.failFrom (.done (r₀.map fun _ => ())) (s.committed i r₀) c' := by
  have hl := h.layout
  subst hl
  have hnum := numTypes_of_start hW
  have ht' : type < W.numTypes := hnum ▸ h.numTypes ▸ ht
  have htype : type < masterType := UInt8.lt_of_lt_of_le ht h.types
  have hdel : (⟨type, deleteFlag, .empty⟩ : Pending).isDeletion = true := by
    simp [Pending.isDeletion, deleteFlag]
  rcases hstep with ⟨hnone, rfl, rfl⟩ | ⟨-, hadded⟩
  · -- the type holds no value: nothing is written
    have hvalue : W.values type = none := by
      rcases hcoh.slot_value h.valid hin₁ (Nat.le_of_lt (UInt8.toNat_lt _))
        (UInt8.lt_iff_toNat_lt.mp ht) with ⟨-, hvalue⟩ | ⟨e, sl, hsl, -⟩
      · rw [← hval]
        exact hvalue
      · rw [hsl] at hnone
        cases hnone
    refine .resumes hW (.remove ht') ?_
    rw [View.write_none_of_none hvalue]
    exact h.reindex hcoh hin₁ hval hnum
  cases hadded with
  | inPlace hfit happended =>
    cases happended with
    | done harea hcoherent hother hvalues =>
      refine .resumes hW (.remove ht') (h.reindex hcoherent hin ?_ hnum)
      rw [harea, hvalues, hval, View.apply_eq_write, hdel]
      rfl
    | torn hdue hj hcut hbytes hother =>
      have hj0 : _ = 0 := eq_zero_of_lt_size_empty h.valid.supported hj hcut
      rw [committed_fault s i rfl]
      obtain ⟨hactive, hcontents⟩ :=
        torn_contents h.valid hin₁ hcoh hfit htype (by simp) hj hcut hbytes hother
      have hsame : s.layout.contents c'.cells = s.layout.contents c₁.cells :=
        hcontents.resolve_right fun htorn => absurd hj0 (Nat.pos_iff_ne_zero.mp htorn.1)
      exact .cut hdue (Answer.error?_done.mpr rfl) rfl (.of_start hW)
        (h.forget_kept hcoh hW hval hin hactive hsame)
  | compacted hfull hcompacted =>
    cases hcompacted with
    | tooSmall hbig =>
      exact ((Nat.not_le.mpr hbig) (compactedSize_le_areaSize h.valid hin₁ hcoh.toScanned
        (fun p hp => by cases hp; exact hdel))).elim
    | done harea hcoherent hsource hvalues =>
      refine .resumes hW (.removeCompacting ht') (h.reindex hcoherent hin ?_ hnum)
      rw [hvalues, hval, compactedValues, h.restrict_start hW, View.apply_eq_write, hdel]
      rfl
    | cut hfault hdue hactive hsource htarget =>
      exact h.admits_compaction_cut hW hval hin hfault hdue hactive hsource

end Store

variable [Crc]

/-- The call keeps the fault setting and answers as the view `V` allows. -/
def Call.Recovers (l : Layout) (call : Call) (s : Store) (c : Chip) (V : View) : Prop :=
  (call.run.run (s, c)).2.2.failFrom = c.failFrom ∧
    Store.Admits l V call c.failFrom (call.run.run (s, c)).1 (call.run.run (s, c)).2.1
      (call.run.run (s, c)).2.2

namespace Store

variable {l : Layout} {s : Store} {c : Chip} {V : View}

/-! ### The calls -/

variable [LawfulCrc]

theorem Recoverable.recovers_init (h : Recoverable l s c V) : Call.init.Recovers l s c V := by
  unfold Call.Recovers
  rw [Call.run_init, run_init]
  obtain ⟨r, c', hrun, hff, hin, hload⟩ := load_run h.valid h.inside
  rw [hrun]
  refine ⟨hff, ?_⟩
  cases r with
  | error e => exact h.load_failed hload hin (Answer.error?_done.mpr rfl)
  | ok i =>
    obtain ⟨hcoh, W, hW, hval⟩ := h.loaded_ok hload
    exact .resumes hW .init (h.reindex hcoh hin hval (numTypes_of_start hW))

omit [LawfulCrc] in
theorem Recoverable.recovers_deinit (h : Recoverable l s c V) : Call.deinit.Recovers l s c V :=
  ⟨rfl, .resumes (.inl rfl) .deinit (h.unload rfl h.types rfl h.numTypes rfl)⟩

omit [LawfulCrc] in
theorem Recoverable.recovers_reset (h : Recoverable l s c V) (hlive : c.failFrom = none) :
    Call.reset.Recovers l s c V := by
  obtain ⟨hok, h'⟩ := refines_after_reset h.toMounted hlive
  refine ⟨h'.live.trans hlive.symm, .resumes (.inl rfl) ?_ (h.layout ▸ h.numTypes ▸ h'.recoverable)⟩
  rw [hok]
  exact .reset

theorem Recoverable.recovers_compact (h : Recoverable l s c V) : Call.compact.Recovers l s c V := by
  unfold Call.Recovers
  rw [Call.run_compact]
  obtain ⟨r, s', c', hrun, hff, hin, hc⟩ := compact_run h.toMounted h.sound
  rw [hrun]
  exact ⟨hff, h.admits_committed hc hin fun _ _ _ _ hcoh hW hval hin₁ hstep =>
    h.compact_step hcoh hW hval hin₁ hin hstep⟩

omit [LawfulCrc] in
theorem Recoverable.recovers_setNumTypes (h : Recoverable l s c V) (n : UInt8) :
    (Call.setNumTypes n).Recovers l s c V := by
  unfold Call.Recovers
  simp only [Call.run, Store.setNumTypes]
  by_cases hn : n > masterType
  · simp only [if_pos hn]
    exact ⟨rfl, .resumes (.inl rfl) (.setNumTypesBad hn) h⟩
  · simp only [if_neg hn]
    exact ⟨rfl, .resumes (.inl rfl) (.setNumTypes (UInt8.not_lt.mp hn))
      (h.unload rfl (UInt8.not_lt.mp hn) rfl rfl rfl)⟩

omit [LawfulCrc] in
theorem Recoverable.recovers_recreate (h : Recoverable l s c V) : Call.recreate.Recovers l s c V :=
  ⟨rfl, .resumes (.inl rfl) .recreate
    (h.unload rfl (show (16 : UInt8) ≤ masterType by decide) rfl rfl rfl)⟩

theorem Recoverable.recovers_set (h : Recoverable l s c V) (type : UInt8) (value : ByteArray) :
    (Call.set type value).Recovers l s c V := by
  unfold Call.Recovers
  rw [Call.run_set]
  obtain ⟨r, s', c', hrun, hff, hin, hres⟩ := set_run h.toMounted h.sound type value
  rw [hrun]
  refine ⟨hff, ?_⟩
  rcases hres with ⟨hbad, rfl, rfl, rfl⟩ | ⟨ht, hv, hc⟩
  · exact .resumes (.inl rfl) (.setBad (h.layout ▸ h.numTypes ▸ hbad)) h
  · exact h.admits_committed hc hin fun _ _ _ _ hcoh hW hval hin₁ hstep =>
      h.set_step ht hv hcoh hW hval hin₁ hin hstep

theorem Recoverable.recovers_remove (h : Recoverable l s c V) (type : UInt8) :
    (Call.remove type).Recovers l s c V := by
  unfold Call.Recovers
  rw [Call.run_remove]
  obtain ⟨r, s', c', hrun, hff, hin, hres⟩ := remove_run h.toMounted h.sound type
  rw [hrun]
  refine ⟨hff, ?_⟩
  rcases hres with ⟨hbad, rfl, rfl, rfl⟩ | ⟨ht, hc⟩
  · exact .resumes (.inl rfl) (.removeBad (h.numTypes ▸ hbad)) h
  · exact h.admits_committed hc hin fun _ _ _ _ hcoh hW hval hin₁ hstep =>
      h.remove_step ht hcoh hW hval hin₁ hin hstep

theorem Recoverable.readValue_outcome (h : Recoverable l s c V) (type : UInt8)
    (capacity : Option Nat) :
    ∃ res s' c', (readValue type capacity : StateM (Store × Chip) _).run (s, c) = (res, (s', c')) ∧
      c'.failFrom = c.failFrom ∧
      ((V.numTypes ≤ type ∧ res = (.error .badValue, .empty) ∧ Recoverable l s' c' V) ∨
        (c.failFrom ≠ none ∧ (∃ e, res.1 = .error e ∧ e.isFlashFault = true) ∧
          ∃ W, (W = V ∨ W = V.compacted) ∧ Recoverable l s' c' W) ∨
        (type < V.numTypes ∧ ∃ W, (W = V ∨ W = V.compacted) ∧
          res = readingOf (W.values type) capacity ∧ Recoverable l s' c' W)) := by
  obtain ⟨res, s', c', hrun, hff, hin, hres⟩ := readValue_run h.toMounted h.sound type capacity
  refine ⟨res, s', c', hrun, hff, ?_⟩
  rcases hres with ⟨hbad, rfl, rfl, rfl⟩ | ⟨-, e, -, hload, rfl, rfl⟩ |
    ⟨ht, i, c₁, hfrom, hk, ⟨rfl, rfl⟩ | ⟨hdue, hread, rfl⟩⟩
  · exact .inl ⟨h.numTypes ▸ hbad, rfl, h⟩
  · -- the load was refused
    rcases Loaded.recovers h.valid h.inside h.active hload with
      ⟨e', he', hf, hdue, hact, hcontents⟩ | ⟨i, hi, -⟩
    · cases he'
      exact .inr (.inl ⟨hdue, ⟨_, rfl, hf⟩, V, .inl rfl,
        h.forget hin hact (hcontents.trans h.values) rfl⟩)
    · cases hi
  · -- the value was read from the loaded index
    obtain ⟨hcoh, W, hW, hval⟩ := h.from_loaded hfrom
    refine .inr (.inr ⟨h.numTypes ▸ ht, W, hW, ?_, ?_⟩)
    · rw [Layout.contents_of_active hcoh.active, hval]
    · exact h.reindex (hk.cells ▸ hcoh) hin (hk.cells ▸ hval) (numTypes_of_start hW)
  · -- a read of the record was refused
    obtain ⟨hcoh, W, hW, hval⟩ := h.from_loaded hfrom
    exact .inr (.inl ⟨hdue, ⟨_, hread, rfl⟩, W, hW,
      h.forget_kept hcoh hW hval hin (by rw [hk.cells]) (by rw [hk.cells])⟩)

theorem Recoverable.recovers_get (h : Recoverable l s c V) (type : UInt8) (buffer : ByteArray) :
    (Call.get type buffer).Recovers l s c V := by
  unfold Call.Recovers
  rw [Call.run_get, Store.run_get]
  obtain ⟨res, s', c', hrun, hff, hres⟩ := h.readValue_outcome type (some buffer.size)
  rw [hrun]
  refine ⟨hff, ?_⟩
  rcases hres with ⟨hbad, rfl, h'⟩ | ⟨hdue, ⟨e, he, hf⟩, W, hW, h'⟩ | ⟨ht, W, hW, rfl, h'⟩
  · refine .resumes (.inl rfl) ?_ h'
    rw [overwriteFront_empty]
    exact .getBad hbad
  · exact .cut hdue (Answer.error?_reading.mpr he) hf (.of_start hW) h'
  · refine .resumes hW ?_ h'
    rw [View.readingOf_into]
    exact .get (numTypes_of_start hW ▸ ht)

theorem Recoverable.recovers_itemSize (h : Recoverable l s c V) (type : UInt8) :
    (Call.itemSize type).Recovers l s c V := by
  unfold Call.Recovers
  rw [Call.run_itemSize, Store.run_itemSize]
  obtain ⟨res, s', c', hrun, hff, hres⟩ := h.readValue_outcome type none
  rw [hrun]
  refine ⟨hff, ?_⟩
  rcases hres with ⟨hbad, rfl, h'⟩ | ⟨hdue, ⟨e, he, hf⟩, W, hW, h'⟩ | ⟨ht, W, hW, rfl, h'⟩
  · exact .resumes (.inl rfl) (.itemSizeBad hbad) h'
  · exact .cut hdue (Answer.error?_size.mpr he) hf (.of_start hW) h'
  · refine .resumes hW ?_ h'
    rw [View.readingOf_length]
    exact .itemSize (numTypes_of_start hW ▸ ht)

theorem Recoverable.recovers_probe (h : Recoverable l s c V) (type : UInt8) (buffer : ByteArray) :
    (Call.probe type buffer).Recovers l s c V := by
  unfold Call.Recovers
  rw [Call.run_probe]
  obtain ⟨res, c', hrun, hk, hres⟩ := probe_run h.valid h.inside type buffer
  rw [hrun]
  refine ⟨hk.failFrom, ?_⟩
  rcases hres with ⟨hbad, rfl⟩ | ⟨ht, rfl | ⟨hdue, hread⟩⟩
  · refine .resumes (.inl rfl) ?_ (h.of_cells hk.cells)
    rw [overwriteFront_empty]
    exact .probeBad hbad
  · refine .resumes (.inl rfl) ?_ (h.of_cells hk.cells)
    rw [h.values, View.readingOf_into]
    exact .probe ht
  · exact .cut hdue (Answer.error?_reading.mpr hread) rfl .kept (h.of_cells hk.cells)

theorem Recoverable.recovers_statistics (h : Recoverable l s c V) :
    Call.statistics.Recovers l s c V := by
  unfold Call.Recovers
  rw [Call.run_statistics]
  obtain ⟨r, c', hrun, hff, hin, hfrom⟩ := statistics_run h.toMounted
  rw [hrun]
  refine ⟨hff, ?_⟩
  rcases hfrom with ⟨i, hs, rfl, rfl⟩ | ⟨-, hload⟩
  · have hcoh := h.sound i hs
    exact .resumes (.inl rfl) .statistics (h.reindex hcoh h.inside (h.valueIn hcoh) rfl)
  · cases r with
    | error e => exact h.load_failed hload hin (Answer.error?_figures.mpr rfl)
    | ok i =>
      obtain ⟨hcoh, W, hW, hval⟩ := h.loaded_ok hload
      exact .resumes hW .statistics (h.reindex hcoh hin hval (numTypes_of_start hW))

theorem Recoverable.recovers (h : Recoverable l s c V) (call : Call)
    (hreset : call = .reset → c.failFrom = none) : call.Recovers l s c V := by
  cases call with
  | init => exact h.recovers_init
  | deinit => exact h.recovers_deinit
  | reset => exact h.recovers_reset (hreset rfl)
  | compact => exact h.recovers_compact
  | setNumTypes n => exact h.recovers_setNumTypes n
  | set type value => exact h.recovers_set type value
  | remove type => exact h.recovers_remove type
  | get type buffer => exact h.recovers_get type buffer
  | itemSize type => exact h.recovers_itemSize type
  | probe type buffer => exact h.recovers_probe type buffer
  | statistics => exact h.recovers_statistics
  | recreate => exact h.recovers_recreate

theorem Recoverable.cutRuns (h : Recoverable l s c V) (hlive : c.failFrom = none)
    (steps : List (Call × Option Nat)) (hreset : ∀ n, (Call.reset, some n) ∉ steps) :
    View.CutRuns l V steps
      ((steps.mapM fun (step : Call × Option Nat) => step.1.runCut step.2).run (s, c)).1 := by
  induction steps generalizing s c V with
  | nil => exact .nil
  | cons step steps ih =>
    obtain ⟨call, cut⟩ := step
    have hrest : ∀ n, (Call.reset, some n) ∉ steps := fun n hn =>
      hreset n (List.mem_cons_of_mem _ hn)
    rw [Call.run_mapM_runCut_cons]
    cases cut with
    | none =>
      -- no fault is due, so the call cannot have been refused an access
      obtain ⟨hff, V', hstep, h'⟩ := h.recovers call fun _ => hlive
      exact .cons (.inl (hstep.resolve_right fun hcut => hcut.1 hlive))
        (ih h' (hff.trans hlive) hrest)
    | some n =>
      have hcall : call ≠ .reset := by
        rintro rfl
        exact hreset n (List.mem_cons_self ..)
      have hcut : Recoverable l s (c.failAfter n) V := h.of_cells rfl
      obtain ⟨-, V', hstep, h'⟩ := hcut.recovers call fun hc => absurd hc hcall
      exact .cons (hstep.imp_right fun hcut => ⟨rfl, hcut.2⟩)
        (ih (h'.of_cells rfl) rfl hrest)

end Store

variable [LawfulCrc]

open Store in
/-- A session whose calls may be cut short by a power loss runs as `View.CutRuns` allows. -/
theorem power_loss_session_refines_view {s : Store} {c : Chip} (hm : s.Mounted c)
    (hlive : c.failFrom = none) (steps : List (Call × Option Nat))
    (hreset : ∀ n, (Call.reset, some n) ∉ steps) :
    (Call.reset.run.run (s, c)).1 = .done (.ok ()) ∧
      View.CutRuns s.layout ⟨fun _ => none, s.numTypes⟩ steps
        ((steps.mapM fun (step : Call × Option Nat) => step.1.runCut step.2).run
          (Call.reset.run.run (s, c)).2).1 := by
  obtain ⟨hok, h⟩ := refines_after_reset hm hlive
  exact ⟨hok, h.recoverable.cutRuns h.live steps hreset⟩

end NorStore

namespace NorStore

open Record Generation Index Log

/-- A store of a value cut short after one access, then a read of its type. -/
theorem blank_chip_cut_session_refines_view :
    Store.Mounted { layout := ⟨⟨1, 1, 64⟩, 0, 64⟩ } (Chip.erased 128) ∧
      (Chip.erased 128).failFrom = none ∧
      (∀ n, (Call.reset, some n) ∉
        ([(.set 0 ⟨#[0xAA]⟩, some 1), (.get 0 ⟨#[0]⟩, none)] : List (Call × Option Nat))) ∧
      (Call.reset.run.run ({ layout := ⟨⟨1, 1, 64⟩, 0, 64⟩ }, Chip.erased 128)).1 = .done (.ok ()) ∧
      View.CutRuns ⟨⟨1, 1, 64⟩, 0, 64⟩ ⟨fun _ => none, 16⟩
        [(.set 0 ⟨#[0xAA]⟩, some 1), (.get 0 ⟨#[0]⟩, none)]
        ((([(.set 0 ⟨#[0xAA]⟩, some 1), (.get 0 ⟨#[0]⟩, none)] : List (Call × Option Nat)).mapM
          fun (step : Call × Option Nat) => step.1.runCut step.2).run
            (Call.reset.run.run ({ layout := ⟨⟨1, 1, 64⟩, 0, 64⟩ }, Chip.erased 128)).2).1 := by
  have hm : Store.Mounted { layout := ⟨⟨1, 1, 64⟩, 0, 64⟩ } (Chip.erased 128) :=
    ⟨Layout.valid_of_create (show Layout.create ⟨1, 1, 64⟩ 0 128 = .ok ⟨⟨1, 1, 64⟩, 0, 64⟩ from rfl),
      Nat.le_of_eq (size_replicate_erased 128).symm, by decide⟩
  have hreset : ∀ n, (Call.reset, some n) ∉
      ([(.set 0 ⟨#[0xAA]⟩, some 1), (.get 0 ⟨#[0]⟩, none)] : List (Call × Option Nat)) := by
    simp
  exact ⟨hm, rfl, hreset, power_loss_session_refines_view hm rfl _ hreset⟩

end NorStore
