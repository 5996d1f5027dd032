import NorStore.Proofs.Refinement

/-! # Reads with and without the index

`get` reads a type's value through the loaded index; `probe` walks the active area's log
itself and never touches the index. On a flash with no faults the two answer alike.

From any flash whose master records name an active area, loading succeeds and leaves a store
that refines the view of the flash's contents (`init_refines_contents`), even when the log ends
in a torn record or is followed by programmed bytes and loading compacts it first. From then on,
whatever the calls, `get`, `probe`, and `init` followed by `get` answer the same reading of the
type's value (`Refines.get_reading`, `Refines.probe_reading`), and so
`probe_agrees_with_loaded_get` says.
-/

namespace NorStore

open Record Generation Index Log

namespace View.Step

variable {max : Nat} {V V' : View} {t : UInt8} {b : ByteArray} {a : Answer}

theorem get_answer (h : Step max V (.get t b) a V') (ht : t < V.numTypes) :
    a = .reading (readInto (V.values t) b) ∧ V' = V := by
  cases h with
  | getBad hbad => exact absurd ht (UInt8.not_lt.mpr hbad)
  | get _ => exact ⟨rfl, rfl⟩

theorem probe_answer (h : Step max V (.probe t b) a V') (ht : t < masterType) :
    a = .reading (readInto (V.values t) b) ∧ V' = V := by
  cases h with
  | probeBad hbad => exact absurd ht (UInt8.not_lt.mpr hbad)
  | probe _ => exact ⟨rfl, rfl⟩

theorem init_answer (h : Step max V .init a V') : a = .done (.ok ()) ∧ V' = V := by
  cases h
  exact ⟨rfl, rfl⟩

end View.Step

namespace Store

variable {l : Layout} {s : Store} {c : Chip} {V : View}

variable [Crc]

theorem Refines.lt_masterType (h : Refines l s c V) {t : UInt8} (ht : t < s.numTypes) :
    t < masterType :=
  UInt8.lt_of_lt_of_le ht h.types

variable [LawfulCrc]

theorem Refines.get_reading (h : Refines l s c V) {t : UInt8} (ht : t < s.numTypes)
    (b : ByteArray) :
    ((Call.get t b).run.run (s, c)).1 = .reading (View.readInto (V.values t) b) := by
  obtain ⟨V', hstep, -⟩ := h.simulates (.get t b)
  exact (hstep.get_answer (h.numTypes ▸ ht)).1

theorem Refines.probe_reading (h : Refines l s c V) {t : UInt8} (ht : t < s.numTypes)
    (b : ByteArray) :
    ((Call.probe t b).run.run (s, c)).1 = .reading (View.readInto (V.values t) b) := by
  obtain ⟨V', hstep, -⟩ := h.simulates (.probe t b)
  exact (hstep.probe_answer (h.lt_masterType ht)).1

theorem Refines.init (h : Refines l s c V) :
    Refines l (Call.init.run.run (s, c)).2.1 (Call.init.run.run (s, c)).2.2 V := by
  obtain ⟨V', hstep, h'⟩ := h.simulates .init
  rwa [(hstep.init_answer).2] at h'

theorem Refines.after_calls (h : Refines l s c V) (calls : List Call) :
    ∃ V', Refines l ((calls.mapM Call.run).run (s, c)).2.1
      ((calls.mapM Call.run).run (s, c)).2.2 V' := by
  induction calls generalizing s c V with
  | nil => exact ⟨V, h⟩
  | cons call calls ih =>
    rw [run_mapM_cons]
    obtain ⟨V', -, h'⟩ := h.simulates call
    exact ih h'

theorem Refines.probe_eq_get (h : Refines l s c V) {t : UInt8} (ht : t < s.numTypes)
    (b : ByteArray) :
    ((Call.probe t b).run.run (s, c)).1 = ((Call.get t b).run.run (s, c)).1 ∧
      ((Call.probe t b).run.run (s, c)).1 =
        ((Call.get t b).run.run (Call.init.run.run (s, c)).2).1 := by
  have hinit := h.init
  -- loading again keeps the store's number of types
  have ht' : t < (Call.init.run.run (s, c)).2.1.numTypes := by
    rw [hinit.numTypes, ← h.numTypes]
    exact ht
  have hget := hinit.get_reading ht' b
  rw [Prod.eta] at hget
  rw [h.probe_reading ht, h.get_reading ht, hget]
  exact ⟨rfl, rfl⟩

theorem init_refines_contents (hm : s.Mounted c) (hlive : c.failFrom = none)
    (hact : activeOf s.layout c.cells ≠ none) :
    (Call.init.run.run (s, c)).1 = .done (.ok ()) ∧
      Refines s.layout (Call.init.run.run (s, c)).2.1 (Call.init.run.run (s, c)).2.2
        ⟨s.layout.contents (Call.init.run.run (s, c)).2.2.cells, s.numTypes⟩ ∧
      ∀ t < s.numTypes,
        s.layout.contents (Call.init.run.run (s, c)).2.2.cells t = s.layout.contents c.cells t := by
  rw [Call.run_init, run_init]
  obtain ⟨r, c', hrun, hff, hin, hres⟩ := load_of_live hm hlive
  rw [hrun]
  rcases hres with ⟨hnone, -⟩ | ⟨i, rfl, hcoh, hsame⟩
  · exact absurd hnone hact
  refine ⟨rfl, ⟨⟨⟨hm.valid, hin, hm.types⟩, fun j hj => ?_⟩, rfl, hff, hcoh.toClean, rfl, ?_⟩,
    hsame⟩
  · obtain rfl := Option.some.inj hj
    exact hcoh
  · -- closing this by `rfl` unfolds `Layout.contents` before the projections it compares
    dsimp only

end Store

variable [Crc] [LawfulCrc]

open Store in
/-- Reading a type without the index answers as loading the index and reading through it. -/
theorem probe_agrees_with_loaded_get {s : Store} {c : Chip} (hm : s.Mounted c)
    (hlive : c.failFrom = none) (hact : activeOf s.layout c.cells ≠ none) :
    (Call.init.run.run (s, c)).1 = .done (.ok ()) ∧
      (∀ t < s.numTypes, ∀ b : ByteArray,
        ((Call.probe t b).run.run (s, c)).1 =
          ((Call.get t b).run.run (Call.init.run.run (s, c)).2).1) ∧
      ∀ calls : List Call, ∀ t < ((calls.mapM Call.run).run (Call.init.run.run (s, c)).2).2.1.numTypes,
        ∀ b : ByteArray,
          ((Call.probe t b).run.run ((calls.mapM Call.run).run (Call.init.run.run (s, c)).2).2).1 =
            ((Call.get t b).run.run ((calls.mapM Call.run).run (Call.init.run.run (s, c)).2).2).1 ∧
          ((Call.probe t b).run.run ((calls.mapM Call.run).run (Call.init.run.run (s, c)).2).2).1 =
            ((Call.get t b).run.run (Call.init.run.run
              ((calls.mapM Call.run).run (Call.init.run.run (s, c)).2).2).2).1 := by
  obtain ⟨hok, hrefines, hsame⟩ := init_refines_contents hm hlive hact
  refine ⟨hok, fun t ht b => ?_, fun calls t ht b => ?_⟩
  · -- probe reads the flash as it was; get reads the loaded flash, which keeps the values
    obtain ⟨res, c', hrun, -, hres⟩ := probe_run hm.valid hm.inside t b
    rcases hres with ⟨hbad, -⟩ | ⟨-, hres | ⟨hdue, -⟩⟩
    · exact absurd (UInt8.lt_of_lt_of_le ht hm.types) (UInt8.not_lt.mpr hbad)
    · have hget := hrefines.get_reading (t := t) (by rw [hrefines.numTypes]; exact ht) b
      rw [Prod.eta] at hget
      rw [Call.run_probe, hrun, hget]
      dsimp only
      rw [hsame t ht, hres, View.readingOf_into]
    · exact absurd hlive hdue
  · obtain ⟨V', h'⟩ := hrefines.after_calls calls
    rw [Prod.eta] at h'
    exact h'.probe_eq_get ht b

end NorStore

namespace NorStore

open Record Generation Index Log

/-- A store whose log ends in a torn record after a power loss, with no index held. -/
theorem torn_tail_probe_agrees_with_loaded_get :
    let p₁ := ((Call.set 0 ⟨#[0xBB]⟩).run.run
      (Call.reset.run.run ({ layout := ⟨⟨4, 4, 16⟩, 0, 96⟩ }, Chip.erased 192)).2).2
    let p₂ := ((Call.set 1 ⟨Array.replicate 60 0x5A⟩).run.run (p₁.1, p₁.2.failAfter 1)).2
    let p := (p₂.1, p₂.2.clearFaults)
    (p.1.layout.logOf p.2.cells .first).stop = some .dataCorrupt ∧ p.1.index? = none ∧
      p.1.Mounted p.2 ∧ p.2.failFrom = none ∧ activeOf p.1.layout p.2.cells ≠ none ∧
      (Call.init.run.run p).1 = .done (.ok ()) ∧
      (∀ t < p.1.numTypes, ∀ b : ByteArray,
        ((Call.probe t b).run.run p).1 = ((Call.get t b).run.run (Call.init.run.run p).2).1) ∧
      ∀ calls : List Call, ∀ t < ((calls.mapM Call.run).run (Call.init.run.run p).2).2.1.numTypes,
        ∀ b : ByteArray,
          ((Call.probe t b).run.run ((calls.mapM Call.run).run (Call.init.run.run p).2).2).1 =
            ((Call.get t b).run.run ((calls.mapM Call.run).run (Call.init.run.run p).2).2).1 ∧
          ((Call.probe t b).run.run ((calls.mapM Call.run).run (Call.init.run.run p).2).2).1 =
            ((Call.get t b).run.run (Call.init.run.run
              ((calls.mapM Call.run).run (Call.init.run.run p).2).2).2).1 := by
  intro p₁ p₂ p
  obtain ⟨htorn, hidle, hact⟩ : (p.1.layout.logOf p.2.cells .first).stop = some .dataCorrupt ∧
      p.1.index? = none ∧ activeOf p.1.layout p.2.cells ≠ none := by
    decide +kernel
  have hc : Reachable ({ layout := ⟨⟨4, 4, 16⟩, 0, 96⟩ }, Chip.erased 192) :=
    .of_blank (show Store.create ⟨4, 4, 16⟩ 0 192 = .ok { layout := ⟨⟨4, 4, 16⟩, 0, 96⟩ } from rfl)
  -- each call is taken on the pair the one before it reached, left unevaluated
  have h₁ : Reachable (p₁.1, p₁.2) := by
    rw [Prod.eta]
    exact .call _ (.call .reset hc)
  have h₂ : Reachable (p₂.1, p₂.2) := by
    rw [Prod.eta]
    exact .call _ (.failAfter 1 h₁)
  have hr : Reachable p := .clearFaults h₂
  have hm := hr.consistent.toMounted
  have hlive : p.2.failFrom = none := rfl
  have hagree := probe_agrees_with_loaded_get hm hlive hact
  rw [Prod.eta] at hagree
  exact ⟨htorn, hidle, hm, hlive, hact, hagree⟩

end NorStore
