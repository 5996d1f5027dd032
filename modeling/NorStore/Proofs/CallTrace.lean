import NorStore.Proofs.CompactionTrace

/-! # The accesses of the store's calls

A store operation runs on the pair of the store and its device, so on a recorder the device's
log grows by the operation's accesses. `StoreAdds` says that a run changes nothing of the store
but its index and adds to the log only events of a given kind; its rules follow the
combinators the operations are built from, as `Adds` does on the device. The combinators that
ask nothing of the device (`current`, `setIndex`, `checkType`) get bind rules of their own, so
that each proof below reads as its operation does.

Every operation that works from the index works from the loaded one, which is coherent with the
flash (`coherent_of_loaded`): that is what puts an appended record on erased flash and a value
read on the grid. From a store consistent with its chip, then, every call asks only for
accesses that fit the discipline, and every call but `reset` keeps off the master record of the
active area (`Call.perform_adds`). A call keeps the store's layout, so the layout of every store
a session reaches is one `Layout.create` accepted (`Reachable.layout_created`).
-/

namespace NorStore

open Record Generation Index Log Store

namespace Recorder

variable {α β : Type} {P : Event → Prop} {s : Store} {r : Recorder}

/-! ### Events a store operation adds -/

/-- A store run changes only the index, and adds chained events that satisfy `P`. -/
def StoreAdds (P : Event → Prop) (m : StateM (Store × Recorder) α) (s : Store) (r : Recorder) :
    Prop :=
  (∃ i?, (m.run (s, r)).2.1 = { s with index? := i? }) ∧
    ∃ new, (m.run (s, r)).2.2.log = r.log ++ new ∧
      Event.Chained new r.chip (m.run (s, r)).2.2.chip ∧ ∀ e ∈ new, P e

/-- The same, for store operations that may fail. -/
def StoreAddsE (P : Event → Prop) (m : StoreM Recorder α) (s : Store) (r : Recorder) : Prop :=
  StoreAdds P m.run s r

theorem StoreAdds.pure (a : α) (s : Store) (r : Recorder) : StoreAdds P (pure a) s r :=
  ⟨⟨s.index?, rfl⟩, [], (List.append_nil _).symm, rfl, by simp⟩

theorem StoreAdds.bind {m : StateM (Store × Recorder) α} {f : α → StateM (Store × Recorder) β}
    (h : StoreAdds P m s r)
    (hf : ∀ a i? r', m.run (s, r) = (a, ({ s with index? := i? }, r')) →
      StoreAdds P (f a) { s with index? := i? } r') :
    StoreAdds P (m >>= f) s r := by
  obtain ⟨⟨i?, hs⟩, new, hlog, hchain, hnew⟩ := h
  have hrun : m.run (s, r) = ((m.run (s, r)).1, ({ s with index? := i? }, (m.run (s, r)).2.2)) := by
    rw [← hs]
    rfl
  obtain ⟨⟨j?, hs'⟩, new', hlog', hchain', hnew'⟩ := hf _ _ _ hrun
  refine ⟨⟨j?, ?_⟩, new ++ new', ?_, ?_, List.forall_mem_append.mpr ⟨hnew, hnew'⟩⟩
  · rw [StateM.run_bind, hrun]
    exact hs'
  · rw [StateM.run_bind, hrun, hlog', hlog, List.append_assoc]
  · rw [StateM.run_bind, hrun]
    exact hchain.append hchain'

theorem StoreAdds.map {m : StateM (Store × Recorder) α} {f : α → β} (h : StoreAdds P m s r) :
    StoreAdds P (f <$> m) s r := by
  have hrun : (f <$> m).run (s, r) = (f (m.run (s, r)).1, (m.run (s, r)).2) := by
    simp only [StateT.run_map]
    rfl
  unfold StoreAdds
  rw [hrun]
  exact h

theorem StoreAdds.current_bind {f : Store → StateM (Store × Recorder) β}
    (h : StoreAdds P (f s) s r) : StoreAdds P (current >>= f) s r :=
  h

theorem StoreAdds.onDevice_bind {m : StateM Recorder α} {f : α → StateM (Store × Recorder) β}
    (h : Adds P m r) (hf : ∀ a r', m.run r = (a, r') → StoreAdds P (f a) s r') :
    StoreAdds P (onDevice m >>= f) s r := by
  obtain ⟨new, hlog, hchain, hnew⟩ := h
  obtain ⟨hs, new', hlog', hchain', hnew'⟩ := hf (m.run r).1 (m.run r).2 rfl
  refine ⟨hs, new ++ new', ?_, hchain.append hchain', List.forall_mem_append.mpr ⟨hnew, hnew'⟩⟩
  change ((f (m.run r).1).run (s, (m.run r).2)).2.2.log = _
  rw [hlog', hlog, List.append_assoc]

theorem adds_forgetOnFault (res : Except Error α) (s : Store) (r : Recorder) :
    StoreAdds P (forgetOnFault res : StateM (Store × Recorder) Unit) s r := by
  refine ⟨?_, [], by rw [run_forgetOnFault, List.append_nil], by rw [run_forgetOnFault]; rfl,
    by simp⟩
  rw [run_forgetOnFault]
  rcases res with e | a
  · dsimp only
    split
    · exact ⟨none, rfl⟩
    · exact ⟨s.index?, rfl⟩
  · exact ⟨s.index?, rfl⟩

theorem StoreAddsE.pure (a : α) (s : Store) (r : Recorder) :
    StoreAddsE P (pure a : StoreM Recorder α) s r :=
  ⟨⟨s.index?, rfl⟩, [], (List.append_nil _).symm, rfl, by simp⟩

theorem StoreAddsE.throw_bind (e : Error) {f : α → StoreM Recorder β} (s : Store) (r : Recorder) :
    StoreAddsE P (MonadExcept.throw e >>= f) s r :=
  ⟨⟨s.index?, rfl⟩, [], (List.append_nil _).symm, rfl, by simp⟩

theorem StoreAddsE.bind {m : StoreM Recorder α} {f : α → StoreM Recorder β}
    (h : StoreAddsE P m s r)
    (hf : ∀ a i? r', m.run.run (s, r) = (.ok a, ({ s with index? := i? }, r')) →
      StoreAddsE P (f a) { s with index? := i? } r') :
    StoreAddsE P (m >>= f) s r := by
  obtain ⟨⟨i?, hs⟩, new, hlog, hchain, hnew⟩ := h
  unfold StoreAddsE StoreAdds
  rw [FlashM.run_bind]
  generalize hrun : m.run.run (s, r) = q at hs hlog hchain
  obtain ⟨_ | a, s₁, r₁⟩ := q
  · exact ⟨⟨i?, hs⟩, new, hlog, hchain, hnew⟩
  · dsimp only at hs hlog hchain ⊢
    subst hs
    obtain ⟨⟨j?, hs'⟩, new', hlog', hchain', hnew'⟩ := hf a i? r₁ hrun
    refine ⟨⟨j?, hs'⟩, new ++ new', ?_, hchain.append hchain',
      List.forall_mem_append.mpr ⟨hnew, hnew'⟩⟩
    rw [hlog', hlog, List.append_assoc]

theorem StoreAddsE.current_bind {f : Store → StoreM Recorder β}
    (h : StoreAddsE P (f s) s r) : StoreAddsE P (current >>= f) s r :=
  h

theorem adds_setIndex (i : Option Index) (s : Store) (r : Recorder) :
    StoreAddsE P (setIndex i : StoreM Recorder Unit) s r :=
  ⟨⟨i, rfl⟩, [], (List.append_nil _).symm, rfl, by simp⟩

theorem StoreAddsE.setIndex_bind (i : Option Index) {f : Unit → StoreM Recorder β}
    (h : StoreAddsE P (f ()) { s with index? := i } r) : StoreAddsE P (setIndex i >>= f) s r := by
  obtain ⟨⟨j?, hs⟩, hlog⟩ := h
  exact ⟨⟨j?, hs⟩, hlog⟩

theorem StoreAddsE.checkType_bind {type : UInt8} {f : Unit → StoreM Recorder β}
    (h : type < s.numTypes → StoreAddsE P (f ()) s r) :
    StoreAddsE P (checkType type >>= f) s r := by
  unfold StoreAddsE StoreAdds
  rw [FlashM.run_bind, run_checkType]
  by_cases ht : type ≥ s.numTypes
  · rw [if_pos ht]
    exact ⟨⟨s.index?, rfl⟩, [], (List.append_nil _).symm, rfl, by simp⟩
  · rw [if_neg ht]
    exact h (UInt8.not_le.mp ht)

theorem StoreAddsE.onFlash_bind {m : FlashM Recorder α} {f : α → StoreM Recorder β}
    (h : AddsF P m r) (hf : ∀ a r', m.run.run r = (.ok a, r') → StoreAddsE P (f a) s r') :
    StoreAddsE P (onFlash m >>= f) s r := by
  obtain ⟨new, hlog, hchain, hnew⟩ := h
  unfold StoreAddsE StoreAdds
  rw [FlashM.run_bind, run_onFlash]
  generalize hrun : m.run.run r = q at hlog hchain
  obtain ⟨_ | a, r₁⟩ := q
  · exact ⟨⟨s.index?, rfl⟩, new, hlog, hchain, hnew⟩
  · obtain ⟨hs, new', hlog', hchain', hnew'⟩ := hf a r₁ hrun
    refine ⟨hs, new ++ new', ?_, hchain.append hchain', List.forall_mem_append.mpr ⟨hnew, hnew'⟩⟩
    dsimp only at hlog ⊢
    rw [hlog', hlog, List.append_assoc]

theorem adds_guarded {m : StoreM Recorder α} (h : StoreAddsE P m s r) :
    StoreAddsE P (guarded m) s r := by
  obtain ⟨⟨i?, hs⟩, new, hlog, hchain, hnew⟩ := h
  unfold StoreAddsE StoreAdds
  rw [run_guarded]
  generalize hrun : m.run.run (s, r) = q at hs hlog hchain
  obtain ⟨_ | a, s₁, r₁⟩ := q
  · dsimp only at hs hlog hchain ⊢
    subst hs
    refine ⟨?_, new, hlog, hchain, hnew⟩
    split
    · exact ⟨none, rfl⟩
    · exact ⟨i?, rfl⟩
  · exact ⟨⟨i?, hs⟩, new, hlog, hchain, hnew⟩

theorem adds_forgetOnError {m : StoreM Recorder α} (h : StoreAddsE P m s r) :
    StoreAddsE P (forgetOnError m) s r := by
  obtain ⟨⟨i?, hs⟩, new, hlog, hchain, hnew⟩ := h
  unfold StoreAddsE StoreAdds
  rw [run_forgetOnError]
  generalize hrun : m.run.run (s, r) = q at hs hlog hchain
  obtain ⟨_ | a, s₁, r₁⟩ := q
  · dsimp only at hs hlog hchain ⊢
    subst hs
    exact ⟨⟨none, rfl⟩, new, hlog, hchain, hnew⟩
  · exact ⟨⟨i?, hs⟩, new, hlog, hchain, hnew⟩

theorem StoreMirrorsE.run_chip {m : StoreM Recorder α} {m' : StoreM Chip α}
    (h : StoreMirrorsE m m') {s' : Store} {r' : Recorder} {x : Except Error α}
    (hr : m.run.run (s, r) = (x, (s', r'))) : m'.run.run (s, r.chip) = (x, (s', r'.chip)) := by
  rw [← h s r, hr]

/-! ### The store's operations -/

variable [Crc]

theorem loaded_of_checkType_bind {type : UInt8} {i : Index} {s' : Store} {r' : Recorder}
    (h : (checkType type >>= fun _ => loaded : StoreM Recorder Index).run.run (s, r) =
      (.ok i, (s', r'))) :
    (loaded : StoreM Recorder Index).run.run (s, r) = (.ok i, (s', r')) := by
  rw [FlashM.run_bind, run_checkType] at h
  by_cases ht : type ≥ s.numTypes
  · rw [if_pos ht] at h
    cases h
  · rw [if_neg ht] at h
    exact h

variable [LawfulCrc]

theorem coherent_of_loaded (hm : s.Mounted r.chip) (hsound : s.Sound r.chip.cells) {i : Index}
    {s' : Store} {r' : Recorder}
    (h : (loaded : StoreM Recorder Index).run.run (s, r) = (.ok i, (s', r'))) :
    s.layout.Inside r'.chip.cells.size ∧ Coherent s.layout s.numTypes.toNat r'.chip.cells i := by
  have hchip := mirrors_loaded.run_chip h
  obtain ⟨res, c', hrun, -, hin, hfrom⟩ := loaded_run hm.valid hm.inside
  rw [hchip, Prod.mk.injEq, Prod.mk.injEq] at hrun
  obtain ⟨rfl, -, rfl⟩ := hrun
  exact ⟨hin, coherent_of_from hsound (from_of_loaded rfl hfrom)⟩

theorem adds_load (hm : s.Mounted r.chip) : StoreAddsE (Event.Proper s.layout) load s r := by
  unfold load
  refine adds_forgetOnError (StoreAddsE.setIndex_bind none (StoreAddsE.current_bind ?_))
  refine StoreAddsE.onFlash_bind (adds_scan hm.valid _ r hm.inside) fun p r₁ h₁ => ?_
  obtain ⟨i, clean⟩ := p
  obtain ⟨hk, hr⟩ := Index.scan_run hm.valid hm.inside s.numTypes.toNat
  rw [(mirrors_scan s.layout _).run_chip h₁] at hk hr
  dsimp only at hk hr ⊢
  refine StoreAddsE.setIndex_bind _ ?_
  split
  · exact StoreAddsE.pure _ _ _
  -- the recovery compaction runs from the index the scan found
  rcases hr with hscan | ⟨-, hr⟩
  · obtain ⟨hscanned, -, -⟩ := scanned_of_scanOf hscan.symm
    refine StoreAddsE.onFlash_bind (adds_compact hm.valid (Nat.le_of_lt (UInt8.toNat_lt _)) none
      (by simp) r₁ (hk.inside hm.inside) (hk.cells ▸ hscanned)) fun _ r₂ _ => ?_
    exact StoreAddsE.setIndex_bind _ (StoreAddsE.pure _ _ _)
  · cases hr

theorem adds_loaded (hm : s.Mounted r.chip) : StoreAddsE (Event.Proper s.layout) loaded s r := by
  unfold loaded
  refine StoreAddsE.current_bind ?_
  split
  · exact StoreAddsE.pure _ _ _
  · exact adds_load hm

theorem adds_init (hm : s.Mounted r.chip) : StoreAddsE (Event.Proper s.layout) init s r := by
  have h := adds_load (r := r) hm
  unfold StoreAddsE StoreAdds at h ⊢
  rw [Store.run_init]
  exact h

theorem adds_readValue (hm : s.Mounted r.chip) (hsound : s.Sound r.chip.cells) (type : UInt8)
    (capacity : Option Nat) :
    StoreAdds (Event.Proper s.layout) (readValue type capacity) s r := by
  unfold readValue
  refine StoreAdds.bind (StoreAddsE.checkType_bind fun _ => adds_loaded hm)
    fun res i? r₁ h₁ => ?_
  rcases res with e | i
  · exact StoreAdds.pure _ _ _
  obtain ⟨hin₁, hcoh⟩ := coherent_of_loaded hm hsound (loaded_of_checkType_bind h₁)
  refine StoreAdds.current_bind ?_
  dsimp only
  -- either way, what is read is then only checked for a refused access
  split
  · refine StoreAdds.bind (StoreAdds.pure _ _ _) fun p _ r₂ _ => ?_
    obtain ⟨result, delivered⟩ := p
    exact StoreAdds.bind (adds_forgetOnFault _ _ _) fun _ _ r₃ _ => StoreAdds.pure _ _ _
  · rename_i slot hslot
    refine StoreAdds.onDevice_bind (adds_loadValue hm.valid i.area
      (hcoh.toScanned.slot_on_grid hm.valid (Nat.le_of_lt (UInt8.toNat_lt _)) hin₁ hslot)
      type capacity r₁ hin₁) fun p r₂ _ => ?_
    obtain ⟨result, delivered⟩ := p
    exact StoreAdds.bind (adds_forgetOnFault _ _ _) fun _ _ r₃ _ => StoreAdds.pure _ _ _

theorem adds_set (hm : s.Mounted r.chip) (hsound : s.Sound r.chip.cells) (type : UInt8)
    (value : ByteArray) : StoreAddsE (Event.Proper s.layout) (Store.set type value) s r := by
  unfold Store.set
  refine StoreAddsE.checkType_bind fun htype => StoreAddsE.current_bind ?_
  split
  · exact StoreAddsE.throw_bind _ _ _
  rename_i hv
  refine StoreAddsE.bind (adds_loaded hm) fun i i? r₁ h₁ => ?_
  obtain ⟨hin₁, hcoh⟩ := coherent_of_loaded hm hsound h₁
  have hlen : value.size ≤ 0xFFFF := by
    have := Nat.not_lt.mp hv
    simp only [Layout.maxItemSize] at this
    omega
  refine adds_guarded (StoreAddsE.onFlash_bind ?_ fun _ r₂ _ => adds_setIndex _ _ _)
  exact adds_append hm.valid (Nat.le_of_lt (UInt8.toNat_lt _)) r₁ hin₁ hcoh 0 value
    (UInt8.lt_of_lt_of_le htype hm.types) hlen

theorem adds_remove (hm : s.Mounted r.chip) (hsound : s.Sound r.chip.cells) (type : UInt8) :
    StoreAddsE (Event.Proper s.layout) (remove type) s r := by
  unfold remove
  refine StoreAddsE.checkType_bind fun htype => ?_
  refine StoreAddsE.bind (adds_loaded hm) fun i i? r₁ h₁ => ?_
  obtain ⟨hin₁, hcoh⟩ := coherent_of_loaded hm hsound h₁
  split
  · exact StoreAddsE.pure _ _ _
  refine StoreAddsE.current_bind (adds_guarded (StoreAddsE.onFlash_bind ?_
    fun _ r₂ _ => adds_setIndex _ _ _))
  exact adds_append hm.valid (Nat.le_of_lt (UInt8.toNat_lt _)) r₁ hin₁ hcoh deleteFlag .empty
    (UInt8.lt_of_lt_of_le htype hm.types) (by decide)

theorem adds_compactStore (hm : s.Mounted r.chip) (hsound : s.Sound r.chip.cells) :
    StoreAddsE (Event.Proper s.layout) Store.compact s r := by
  unfold Store.compact
  refine StoreAddsE.bind (adds_loaded hm) fun i i? r₁ h₁ => ?_
  obtain ⟨hin₁, hcoh⟩ := coherent_of_loaded hm hsound h₁
  refine StoreAddsE.current_bind (adds_guarded (StoreAddsE.onFlash_bind ?_
    fun _ r₂ _ => adds_setIndex _ _ _))
  exact adds_compact hm.valid (Nat.le_of_lt (UInt8.toNat_lt _)) none (by simp) r₁ hin₁
    hcoh.toScanned

theorem adds_statistics (hm : s.Mounted r.chip) :
    StoreAddsE (Event.Proper s.layout) statistics s r :=
  StoreAddsE.bind (adds_loaded hm) fun _ _ _ _ => StoreAddsE.current_bind (StoreAddsE.pure _ _ _)

theorem adds_probe (hm : s.Mounted r.chip) (type : UInt8) (buffer : ByteArray) :
    StoreAdds (Event.Proper s.layout) (probe type buffer) s r := by
  unfold probe
  split
  · exact StoreAdds.pure _ _ _
  refine StoreAdds.current_bind ?_
  exact StoreAdds.onDevice_bind (adds_probeFlash hm.valid type _ r hm.inside) fun _ r' _ =>
    StoreAdds.pure _ _ _

omit [LawfulCrc] in
theorem adds_reset (hm : s.Mounted r.chip) :
    StoreAddsE (fun e => e.Fits s.layout ∧ e.Advances s.layout) reset s r := by
  unfold reset
  refine adds_forgetOnError (StoreAddsE.setIndex_bind none (StoreAddsE.current_bind ?_))
  exact StoreAddsE.onFlash_bind (adds_format hm.valid r hm.inside) fun _ r' _ =>
    adds_setIndex _ _ _

end Recorder

/-! ### Calls -/

namespace Call

open Recorder

variable [Crc]

/-- The accesses a call asks of the flash from `s` on `c`, oldest first. -/
def accesses (call : Call) (s : Store) (c : Chip) : List Event :=
  (call.perform.run (s, Recorder.mk c [])).2.2.log

variable [LawfulCrc]

theorem perform_adds {s : Store} {r : Recorder} (h : s.Consistent r.chip) (call : Call) :
    (call.perform.run (s, r)).2.1.layout = s.layout ∧
      ∃ new, (call.perform.run (s, r)).2.2.log = r.log ++ new ∧
        Event.Chained new r.chip (call.perform.run (s, r)).2.2.chip ∧
        ∀ e ∈ new, e.Fits s.layout ∧ e.Advances s.layout ∧ (call ≠ .reset → e.Spares s.layout) := by
  -- an operation that changes only the index, with proper events
  have proper : ∀ {m : StateM (Store × Recorder) Answer},
      StoreAdds (Event.Proper s.layout) m s r → (m.run (s, r)).2.1.layout = s.layout ∧
        ∃ new, (m.run (s, r)).2.2.log = r.log ++ new ∧
          Event.Chained new r.chip (m.run (s, r)).2.2.chip ∧
          ∀ e ∈ new, e.Fits s.layout ∧ e.Advances s.layout ∧
            (call ≠ .reset → e.Spares s.layout) := by
    rintro m ⟨⟨i?, hs⟩, new, hlog, hchain, hnew⟩
    exact ⟨by rw [hs], new, hlog, hchain,
      fun e he => ⟨(hnew e he).1, (hnew e he).2.2, fun _ => (hnew e he).2.1⟩⟩
  have quiet : ∀ {s' : Store} {r' : Recorder}, s'.layout = s.layout → r' = r →
      s'.layout = s.layout ∧ ∃ new, r'.log = r.log ++ new ∧ Event.Chained new r.chip r'.chip ∧
        ∀ e ∈ new, e.Fits s.layout ∧ e.Advances s.layout ∧ (call ≠ .reset → e.Spares s.layout) :=
    fun hs' hr' => ⟨hs', [], by rw [hr', List.append_nil], by rw [hr']; rfl, by simp⟩
  cases call with
  | init => exact proper (StoreAdds.map (adds_init h.toMounted))
  | deinit => exact quiet rfl rfl
  | reset =>
    obtain ⟨⟨i?, hs⟩, new, hlog, hchain, hnew⟩ := StoreAdds.map (f := Answer.done)
      (adds_reset (r := r) h.toMounted)
    have hlayout := congrArg Store.layout hs
    exact ⟨hlayout, new, hlog, hchain,
      fun e he => ⟨(hnew e he).1, (hnew e he).2, fun hne => absurd rfl hne⟩⟩
  | compact => exact proper (StoreAdds.map (adds_compactStore h.toMounted h.sound))
  | setNumTypes n =>
    unfold perform
    dsimp only [StateT.run, modifyGet, MonadStateOf.modifyGet, StateT.modifyGet]
    split
    · rename_i s' hs'
      unfold Store.setNumTypes at hs'
      split at hs'
      · cases hs'
      · cases hs'
        exact quiet rfl rfl
    · exact quiet rfl rfl
  | set type value => exact proper (StoreAdds.map (adds_set h.toMounted h.sound type value))
  | remove type => exact proper (StoreAdds.map (adds_remove h.toMounted h.sound type))
  | get type buffer =>
    exact proper (StoreAdds.map (StoreAdds.bind (adds_readValue h.toMounted h.sound type _)
      fun _ _ _ _ => StoreAdds.pure _ _ _))
  | itemSize type =>
    exact proper (StoreAdds.map (StoreAdds.bind (adds_readValue h.toMounted h.sound type none)
      fun _ _ _ _ => StoreAdds.pure _ _ _))
  | probe type buffer => exact proper (StoreAdds.map (adds_probe h.toMounted type buffer))
  | statistics => exact proper (StoreAdds.map (adds_statistics h.toMounted))
  | recreate => exact quiet rfl rfl

theorem accesses_spec {s : Store} {c : Chip} (h : s.Consistent c) (call : Call) :
    Event.Chained (call.accesses s c) c (call.run.run (s, c)).2.2 ∧
      ∀ e ∈ call.accesses s c,
        e.Fits s.layout ∧ e.Advances s.layout ∧ (call ≠ .reset → e.Spares s.layout) := by
  obtain ⟨-, new, hlog, hchain, hnew⟩ := perform_adds (r := Recorder.mk c []) h call
  have hnew' : call.accesses s c = new := by rw [accesses, hlog, List.nil_append]
  have hchip : (call.run.run (s, c)).2.2 = (call.perform.run (s, Recorder.mk c [])).2.2.chip :=
    ((perform_mirrors call).chip s (Recorder.mk c [])).symm
  rw [hnew', hchip]
  exact ⟨hchain, hnew⟩

theorem run_layout {s : Store} {c : Chip} (h : s.Consistent c) (call : Call) :
    (call.run.run (s, c)).2.1.layout = s.layout := by
  rw [← (perform_mirrors call).store s ⟨c, []⟩]
  exact (perform_adds (r := ⟨c, []⟩) h call).1

end Call

variable [Crc] [LawfulCrc]

theorem Reachable.layout_created {p : Store × Chip} (h : Reachable p) :
    ∃ g offset size, Layout.create g offset size = .ok p.1.layout := by
  induction h with
  | created hs hin =>
    obtain ⟨l, hl, rfl⟩ := Store.create_eq_ok hs
    exact ⟨_, _, _, hl⟩
  | call call h ih =>
    rename_i p
    rw [Call.run_layout h.consistent call]
    exact ih
  | failAfter n h ih => exact ih
  | clearFaults h ih => exact ih
  | tamper cells hidle hsize h ih => exact ih

end NorStore
