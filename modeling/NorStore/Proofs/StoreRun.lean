import NorStore.Proofs.Room

/-! # Running store operations

A store operation runs on the pair of the store and its device. This module unfolds the
combinators the operations are built from, on any device, and then follows `load` on a chip:
its outcome is one of the ways `Loaded` lists, and the store afterwards holds the index it
answers, or none when it failed.
-/

namespace NorStore

open Record Generation

namespace Store

section Combinators

variable {δ α : Type}

@[simp] theorem run_current (s : Store) (d : δ) :
    ((current : StoreM δ Store).run.run (s, d)) = (.ok s, (s, d)) := rfl

@[simp] theorem run_setIndex (i : Option Index) (s : Store) (d : δ) :
    ((setIndex i : StoreM δ Unit).run.run (s, d)) = (.ok (), ({ s with index? := i }, d)) := rfl

@[simp] theorem run_onFlash (m : FlashM δ α) (s : Store) (d : δ) :
    ((onFlash m).run.run (s, d)) = ((m.run.run d).1, (s, (m.run.run d).2)) := rfl

theorem run_guarded (m : StoreM δ α) (s : Store) (d : δ) :
    (guarded m).run.run (s, d) =
      match m.run.run (s, d) with
      | (.ok a, p) => (.ok a, p)
      | (.error e, (s', d')) =>
        (.error e, (if e.isFlashFault then { s' with index? := none } else s', d')) := by
  unfold guarded
  rw [ExceptT.run_mk, StateM.run_bind]
  rcases m.run.run (s, d) with ⟨_ | a, s', d'⟩
  · rename_i e
    rw [StateM.run_bind]
    unfold forgetOnFault
    dsimp only
    by_cases he : e.isFlashFault = true
    · rw [if_pos he, if_pos he]; rfl
    · rw [if_neg he, if_neg he]; rfl
  · rfl

theorem run_forgetOnError (m : StoreM δ α) (s : Store) (d : δ) :
    (forgetOnError m).run.run (s, d) =
      match m.run.run (s, d) with
      | (.ok a, p) => (.ok a, p)
      | (.error e, (s', d')) => (.error e, ({ s' with index? := none }, d')) := by
  show (ExceptT.tryCatch m _).run.run (s, d) = _
  unfold ExceptT.tryCatch
  rw [ExceptT.run_mk, StateM.run_bind]
  rw [show StateT.run m (s, d) = m.run.run (s, d) from rfl]
  rcases m.run.run (s, d) with ⟨_ | a, s', d'⟩ <;> rfl

theorem run_checkType (type : UInt8) (s : Store) (d : δ) :
    ((checkType type : StoreM δ Unit).run.run (s, d)) =
      (if type ≥ s.numTypes then .error .badValue else .ok (), (s, d)) := by
  unfold checkType
  rw [FlashM.run_bind, run_current]
  dsimp only
  by_cases h : type ≥ s.numTypes
  · rw [if_pos h, if_pos h]; rfl
  · rw [if_neg h, if_neg h]; rfl

@[simp] theorem run_current_state (s : Store) (d : δ) :
    (current : StateM (Store × δ) Store).run (s, d) = (s, (s, d)) := rfl

@[simp] theorem run_onDevice (work : StateM δ α) (s : Store) (d : δ) :
    (onDevice work : StateM (Store × δ) α).run (s, d) = ((work.run d).1, (s, (work.run d).2)) := rfl

theorem run_forgetOnFault (r : Except Error α) (s : Store) (d : δ) :
    (forgetOnFault r : StateM (Store × δ) Unit).run (s, d) =
      ((), ((match r with
        | .error e => if e.isFlashFault then { s with index? := none } else s
        | .ok _ => s), d)) := by
  unfold forgetOnFault
  rcases r with e | a
  · dsimp only
    by_cases he : e.isFlashFault = true
    · rw [if_pos he, if_pos he]; rfl
    · rw [if_neg he, if_neg he]; rfl
  · rfl

variable [NorFlash δ]

variable [Crc]

theorem run_loaded_of_some {s : Store} {i : Index} (h : s.index? = some i) (d : δ) :
    ((loaded : StoreM δ Index).run.run (s, d)) = (.ok i, (s, d)) := by
  unfold loaded
  rw [FlashM.run_bind, run_current]
  dsimp only
  rw [h]
  rfl

theorem run_loaded_of_none {s : Store} (h : s.index? = none) (d : δ) :
    ((loaded : StoreM δ Index).run.run (s, d)) = (load : StoreM δ Index).run.run (s, d) := by
  unfold loaded
  rw [FlashM.run_bind, run_current]
  dsimp only
  rw [h]

theorem run_init (p : Store × δ) :
    (init : StoreM δ Unit).run.run p =
      (((load : StoreM δ Index).run.run p).1.map fun _ => (), ((load : StoreM δ Index).run.run p).2) := by
  show StateT.run (ExceptT.run ((fun _ => ()) <$> (load : StoreM δ Index))) p = _
  rw [ExceptT.run_map, StateT.run_map]
  rfl

end Combinators

/-! ### Loading the index on a chip -/

variable [Crc]

/-- How loading the index of `count` types from the chip `c` can end: the answer and the chip. -/
inductive Loaded (l : Layout) (count : Nat) (c : Chip) : Except Error Index → Chip → Prop
  /-- A read was refused, and only reads were done. -/
  | refused {c' : Chip} (hdue : c.failFrom ≠ none) (hkeeps : Chip.Keeps c c') :
      Loaded l count c (.error .readError) c'
  /-- Neither area holds a valid master record, and only reads were done. -/
  | noMaster {c' : Chip} (hnone : activeOf l c.cells = none) (hkeeps : Chip.Keeps c c') :
      Loaded l count c (.error .dataCorrupt) c'
  /-- The active area is clean: the index answered is the scan's, and only reads were done. -/
  | clean {i : Index} {c' : Chip} (hscan : Index.scanOf l count c.cells = .ok (i, true))
      (hkeeps : Chip.Keeps c c') : Loaded l count c (.ok i) c'
  /-- The active area is not clean, and the recovery compaction of the index the scan found
  ended as `Compacted` says. -/
  | recovered {i : Index} {r : Except Error Index} {c₁ c' : Chip}
      (hscan : Index.scanOf l count c.cells = .ok (i, false)) (hkeeps : Chip.Keeps c c₁)
      (hcompact : Index.Compacted l count c₁ i none r c') : Loaded l count c r c'

variable [LawfulCrc]

theorem load_run {s : Store} {c : Chip} (hl : s.layout.Valid) (h : s.layout.Inside c.cells.size) :
    ∃ r c', (load : StoreM Chip Index).run.run (s, c) = (r, ({ s with index? := r.toOption }, c')) ∧
      c'.failFrom = c.failFrom ∧ s.layout.Inside c'.cells.size ∧
      Loaded s.layout s.numTypes.toNat c r c' := by
  unfold load
  rw [run_forgetOnError, FlashM.run_bind, run_setIndex]
  dsimp only
  rw [FlashM.run_bind, run_current]
  dsimp only
  rw [FlashM.run_bind, run_onFlash]
  obtain ⟨hk, hr⟩ := Index.scan_run hl h s.numTypes.toNat
  generalize (Index.scan s.layout s.numTypes.toNat).run.run c = q at hk hr ⊢
  obtain ⟨r1, c1⟩ := q
  dsimp only at hk hr ⊢
  have h1 : s.layout.Inside c1.cells.size := hk.cells ▸ h
  rcases hr with rfl | ⟨hf, rfl⟩
  · cases hscan : Index.scanOf s.layout s.numTypes.toNat c.cells with
    | error e =>
      -- a scan fails only when no area holds a master record
      have hnone : activeOf s.layout c.cells = none ∧ e = .dataCorrupt := by
        unfold Index.scanOf at hscan
        split at hscan
        · cases hscan; exact ⟨by assumption, rfl⟩
        · cases hscan
      obtain ⟨hnone, rfl⟩ := hnone
      exact ⟨_, _, rfl, hk.failFrom, h1, .noMaster hnone hk⟩
    | ok p =>
      obtain ⟨i, clean⟩ := p
      dsimp only
      rw [FlashM.run_bind, run_setIndex]
      dsimp only
      cases clean with
      | true =>
        exact ⟨_, _, rfl, hk.failFrom, h1, .clean hscan hk⟩
      | false =>
        -- the area is not clean: the recovery compaction runs from the scanned index
        rw [if_neg Bool.false_ne_true, FlashM.run_bind, run_onFlash]
        obtain ⟨hscanned, -, -⟩ := Index.scanned_of_scanOf hscan
        obtain ⟨hff, hin, hres⟩ := Index.compact_run hl h1 (Nat.le_of_lt (UInt8.toNat_lt _))
          (hk.cells ▸ hscanned) none (by simp)
        generalize (Index.compact s.layout i none).run.run c1 = q at hff hin hres ⊢
        obtain ⟨r2, c2⟩ := q
        dsimp only at hff hin hres ⊢
        -- the store holds the compaction's index, or none if it failed
        cases r2 <;> exact ⟨_, _, rfl, hff.trans hk.failFrom, hin, .recovered hscan hk hres⟩
  · exact ⟨_, _, rfl, hk.failFrom, h1, .refused hf hk⟩

theorem loaded_run {s : Store} {c : Chip} (hl : s.layout.Valid) (h : s.layout.Inside c.cells.size) :
    ∃ r c', (loaded : StoreM Chip Index).run.run (s, c) = (r, ({ s with index? := r.toOption }, c')) ∧
      c'.failFrom = c.failFrom ∧ s.layout.Inside c'.cells.size ∧
      ((∃ i, s.index? = some i ∧ r = .ok i ∧ c' = c) ∨
        (s.index? = none ∧ Loaded s.layout s.numTypes.toNat c r c')) := by
  cases hs : s.index? with
  | some i =>
    refine ⟨.ok i, c, ?_, rfl, h, .inl ⟨i, rfl, rfl, rfl⟩⟩
    rw [run_loaded_of_some hs]
    -- the store is unchanged: it already holds `i`
    change _ = (_, { s with index? := some i }, c)
    rw [← hs]
  | none =>
    obtain ⟨r, c', hrun, hff, hin, hres⟩ := load_run hl h
    exact ⟨r, c', by rw [run_loaded_of_none hs, hrun], hff, hin, .inr ⟨rfl, hres⟩⟩

end Store

end NorStore
