import NorStore.Proofs.Session

/-! # Loading after a cut

With no fault set, loading fails only when neither area holds a valid master record; otherwise
it answers an index coherent with the flash, and every type below `numTypes` holds the value the
flash gave it before, whether the active area was clean or had to be compacted first
(`load_of_live`).

A reset erases the first area, then the second, then writes the first master record. Cut at
the second erase, it leaves the first area erased and the second as it was; if the first area
was the active one, the second may still hold the complete older generation an earlier
compaction left there, and loading brings that generation back (`Formatted.contents`,
`init_after_cut_reset`).
-/

namespace NorStore

open Record Generation Index Log

variable {l : Layout}

variable [Crc]

theorem Layout.valueIn_congr {cells cells' : ByteArray} {a : Area}
    (h : l.bytes cells' a = l.bytes cells a) : l.valueIn cells' a = l.valueIn cells a := by
  unfold Layout.valueIn Layout.logOf
  rw [h]

theorem masterIn_congr {cells cells' : ByteArray} {a : Area}
    (h : l.bytes cells' a = l.bytes cells a) : masterIn l cells' a = masterIn l cells a := by
  unfold masterIn
  rw [h]

theorem masterIn_of_bytes_erased {cells : ByteArray} {a : Area}
    (h : l.bytes cells a = ByteArray.mk (Array.replicate l.areaSize 0xFF)) :
    masterIn l cells a = none :=
  masterIn_of_erased (by rw [h]; exact fun _ hi _ _ => getElem_replicate_erased hi)

theorem activeOf_ne_none {cells : ByteArray} {a : Area} {v : UInt16}
    (h : masterIn l cells a = some v) : activeOf l cells ≠ none := by
  unfold activeOf
  cases hf : masterIn l cells .first with
  | some f =>
    cases masterIn l cells .second with
    | some s =>
      simp only [pick]
      split <;> simp
    | none => simp [pick]
  | none =>
    cases a with
    | first =>
      rw [hf] at h
      cases h
    | second =>
      rw [h]
      simp [pick]

theorem Layout.contents_of_none {cells : ByteArray} (h : activeOf l cells = none) (t : UInt8) :
    l.contents cells t = none := by
  unfold Layout.contents
  rw [h]

namespace Store

variable {c c' : Chip} {count : Nat} {r : Except Error Nat}

theorem Formatted.contents (h : Formatted l count c r c') :
    (∀ t, l.contents c'.cells t = none) ∨ l.contents c'.cells = l.contents c.cells ∨
      ((∃ v, activeOf l c.cells = some (.first, v)) ∧
        l.contents c'.cells = l.valueIn c.cells .second) := by
  cases h with
  | done hcoherent hempty =>
    left
    intro t
    rw [Layout.contents_of_active hcoherent.active]
    exact hempty t
  | keptBoth hdue hcells =>
    right; left
    rw [hcells]
  | keptSecond hdue hfirst hsecond =>
    -- the first area is erased, so the second is active if it holds a master record
    have hnone := masterIn_of_bytes_erased hfirst
    cases hact : activeOf l c'.cells with
    | none => exact .inl (Layout.contents_of_none hact)
    | some p =>
      obtain ⟨a, v⟩ := p
      rcases pick_eq_some hact with ⟨rfl, hv⟩ | ⟨rfl, hv⟩
      · rw [hnone] at hv
        cases hv
      have hcontents : l.contents c'.cells = l.valueIn c.cells .second := by
        rw [Layout.contents_of_active hact, Layout.valueIn_congr hsecond]
      rw [masterIn_congr hsecond] at hv
      cases hold : activeOf l c.cells with
      | none => exact absurd hold (activeOf_ne_none hv)
      | some q =>
        obtain ⟨b, w⟩ := q
        cases b with
        | first => exact .inr (.inr ⟨⟨w, rfl⟩, hcontents⟩)
        | second =>
          right; left
          rw [hcontents, Layout.contents_of_active hold]
  | erasedBoth hdue hfirst hsecond =>
    left
    apply Layout.contents_of_none
    unfold activeOf
    rw [masterIn_of_bytes_erased hfirst, masterIn_of_bytes_erased hsecond]
    rfl

variable {s : Store}

variable [LawfulCrc]

theorem load_of_live (hm : s.Mounted c) (hlive : c.failFrom = none) :
    ∃ r c', (load : StoreM Chip Index).run.run (s, c) = (r, ({ s with index? := r.toOption }, c')) ∧
      c'.failFrom = none ∧ s.layout.Inside c'.cells.size ∧
      ((activeOf s.layout c.cells = none ∧ r = .error .dataCorrupt) ∨
        (∃ i, r = .ok i ∧ Coherent s.layout s.numTypes.toNat c'.cells i ∧
          ∀ t : UInt8, t < s.numTypes → s.layout.contents c'.cells t = s.layout.contents c.cells t)) := by
  obtain ⟨r, c', hrun, hff, hin, hload⟩ := load_run hm.valid hm.inside
  refine ⟨r, c', hrun, hff.trans hlive, hin, ?_⟩
  cases hload with
  | refused hdue hk => exact absurd hlive hdue
  | noMaster hnone hk => exact .inl ⟨hnone, rfl⟩
  | clean hscan hk =>
    refine .inr ⟨_, rfl, ?_, fun t _ => by rw [hk.cells]⟩
    rw [hk.cells]
    exact (scanned_of_scanOf hscan).2.2 rfl
  | recovered hscan hk hcompact =>
    obtain ⟨hscanned, -, -⟩ := scanned_of_scanOf hscan
    -- the recovery compaction always fits, and no fault can cut it
    cases hcompact with
    | tooSmall hbig =>
      exact ((Nat.not_le.mpr hbig) (compactedSize_le_areaSize hm.valid (hk.cells ▸ hm.inside)
        (hk.cells ▸ hscanned) (fun _ hp => nomatch hp))).elim
    | done harea hcoherent hsource hvalues =>
      refine .inr ⟨_, rfl, hcoherent, fun t ht => ?_⟩
      rw [Layout.contents_of_active hcoherent.active, hvalues,
        Layout.contents_of_active hscanned.active, hk.cells]
      simp [compactedValues, restrictValues, UInt8.lt_iff_toNat_lt.mp ht]
    | cut hfault hdue hactive hsource htarget => exact absurd (hk.failFrom.trans hlive) hdue

omit [LawfulCrc] in
theorem reset_formatted (hm : s.Mounted c) :
    (Call.reset.run.run (s, c)).2.1.layout = s.layout ∧
      (Call.reset.run.run (s, c)).2.1.numTypes = s.numTypes ∧
      s.layout.Inside (Call.reset.run.run (s, c)).2.2.cells.size ∧
      ∃ r, Formatted s.layout s.numTypes.toNat c r (Call.reset.run.run (s, c)).2.2 := by
  obtain ⟨r, c', hrun, -, hin, hres⟩ := reset_run hm
  rw [Call.run_reset, hrun]
  exact ⟨rfl, rfl, hin, r, hres⟩

theorem init_of_live (hm : s.Mounted c) (hlive : c.failFrom = none) :
    (Call.init.run.run (s, c)).1 = .done (.error .dataCorrupt) ∨
      ((Call.init.run.run (s, c)).1 = .done (.ok ()) ∧
        ∀ t < s.numTypes,
          s.layout.contents (Call.init.run.run (s, c)).2.2.cells t = s.layout.contents c.cells t) := by
  rw [Call.run_init, run_init]
  obtain ⟨r, c', hrun, -, -, hres⟩ := load_of_live hm hlive
  rw [hrun]
  rcases hres with ⟨-, rfl⟩ | ⟨i, rfl, -, hsame⟩
  · exact .inl rfl
  · exact .inr ⟨rfl, hsame⟩

end Store

variable [LawfulCrc]

open Store in
/-- Loading after a reset cut short finds no values, the old values, or the other area's values. -/
theorem init_after_cut_reset {s : Store} {c : Chip} (hm : s.Mounted c) (n : Nat) :
    let cut := (Call.reset.run.run (s, c.failAfter n)).2
    let after := Call.init.run.run (cut.1, cut.2.clearFaults)
    after.1 = .done (.error .dataCorrupt) ∨
      (after.1 = .done (.ok ()) ∧ ∀ t < s.numTypes, s.layout.contents after.2.2.cells t = none) ∨
      (after.1 = .done (.ok ()) ∧
        ∀ t < s.numTypes, s.layout.contents after.2.2.cells t = s.layout.contents c.cells t) ∨
      (after.1 = .done (.ok ()) ∧ (∃ v, activeOf s.layout c.cells = some (.first, v)) ∧
        ∀ t < s.numTypes,
          s.layout.contents after.2.2.cells t = s.layout.valueIn c.cells .second t) := by
  dsimp only
  obtain ⟨hlayout, htypes, hin, r, hres⟩ :=
    reset_formatted (s := s) (c := c.failAfter n) ⟨hm.valid, hm.inside, hm.types⟩
  generalize (Call.reset.run.run (s, c.failAfter n)).2 = cut at hlayout htypes hin hres ⊢
  obtain ⟨s₁, c₁⟩ := cut
  dsimp only at hlayout htypes hin hres ⊢
  have hmount : s₁.Mounted c₁.clearFaults := ⟨hlayout ▸ hm.valid, hlayout ▸ hin, htypes ▸ hm.types⟩
  rcases init_of_live hmount rfl with hcorrupt | ⟨hok, hsame⟩
  · exact .inl hcorrupt
  rw [hlayout, htypes] at hsame
  -- what the load keeps is what the cut reset left
  rcases hres.contents with hnone | hkept | ⟨hfirst, hsecond⟩
  · exact .inr (.inl ⟨hok, fun t ht => (hsame t ht).trans (hnone t)⟩)
  · exact .inr (.inr (.inl ⟨hok, fun t ht => (hsame t ht).trans (congrFun hkept t)⟩))
  · exact .inr (.inr (.inr ⟨hok, hfirst, fun t ht => (hsame t ht).trans (congrFun hsecond t)⟩))

end NorStore

namespace NorStore

open Record Generation Index Log

/-- A store whose first area holds generation 2 and `0xA2`, the second generation 1 and `0xA1`. -/
def twoGenerations : Store × Chip :=
  ((Call.set 0 ⟨#[0xA2]⟩).run.run (Call.compact.run.run (Call.compact.run.run
    ((Call.set 0 ⟨#[0xA1]⟩).run.run
      (Call.reset.run.run ({ layout := ⟨⟨4, 4, 16⟩, 0, 48⟩ }, Chip.erased 96)).2).2).2).2).2

/-- A reset of `twoGenerations` cut after erasing the first area brings back the older value. -/
theorem two_generation_cut_reset :
    twoGenerations.1.Mounted twoGenerations.2 ∧
      masterIn twoGenerations.1.layout twoGenerations.2.cells .first = some 2 ∧
      masterIn twoGenerations.1.layout twoGenerations.2.cells .second = some 1 ∧
      twoGenerations.1.layout.contents twoGenerations.2.cells 0 = some ⟨#[0xA2]⟩ ∧
      let cut := (Call.reset.run.run (twoGenerations.1, twoGenerations.2.failAfter 1)).2
      let after := Call.init.run.run (cut.1, cut.2.clearFaults)
      (after.1 = .done (.ok ()) ∧
        twoGenerations.1.layout.contents after.2.2.cells 0 = some ⟨#[0xA1]⟩) ∧
      (after.1 = .done (.error .dataCorrupt) ∨
        (after.1 = .done (.ok ()) ∧ ∀ t < twoGenerations.1.numTypes,
          twoGenerations.1.layout.contents after.2.2.cells t = none) ∨
        (after.1 = .done (.ok ()) ∧ ∀ t < twoGenerations.1.numTypes,
          twoGenerations.1.layout.contents after.2.2.cells t =
            twoGenerations.1.layout.contents twoGenerations.2.cells t) ∨
        (after.1 = .done (.ok ()) ∧
          (∃ v, activeOf twoGenerations.1.layout twoGenerations.2.cells = some (.first, v)) ∧
          ∀ t < twoGenerations.1.numTypes, twoGenerations.1.layout.contents after.2.2.cells t =
            twoGenerations.1.layout.valueIn twoGenerations.2.cells .second t)) := by
  have hc : Reachable ({ layout := ⟨⟨4, 4, 16⟩, 0, 48⟩ }, Chip.erased 96) :=
    .of_blank (show Store.create ⟨4, 4, 16⟩ 0 96 = .ok { layout := ⟨⟨4, 4, 16⟩, 0, 48⟩ } from rfl)
  have hr : Reachable twoGenerations := .call _ (.call _ (.call _ (.call _ (.call .reset hc))))
  have hm := hr.consistent.toMounted
  obtain ⟨hfirst, hsecond, hnew, hload, hold⟩ :
      masterIn twoGenerations.1.layout twoGenerations.2.cells .first = some 2 ∧
      masterIn twoGenerations.1.layout twoGenerations.2.cells .second = some 1 ∧
      twoGenerations.1.layout.contents twoGenerations.2.cells 0 = some ⟨#[0xA2]⟩ ∧
      ((Store.init : StoreM Chip Unit).run.run
        ((Call.reset.run.run (twoGenerations.1, twoGenerations.2.failAfter 1)).2.1,
          (Call.reset.run.run (twoGenerations.1, twoGenerations.2.failAfter 1)).2.2.clearFaults)).1 =
        .ok () ∧
      twoGenerations.1.layout.contents (Call.init.run.run
        ((Call.reset.run.run (twoGenerations.1, twoGenerations.2.failAfter 1)).2.1,
          (Call.reset.run.run (twoGenerations.1, twoGenerations.2.failAfter 1)).2.2.clearFaults)).2.2.cells 0 =
        some ⟨#[0xA1]⟩ := by
    decide +kernel
  refine ⟨hm, hfirst, hsecond, hnew, ⟨?_, hold⟩, init_after_cut_reset hm 1⟩
  rw [Call.run_init, hload]

end NorStore
