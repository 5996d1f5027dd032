import NorStore.Proofs.Refinement

/-! # A chip that records the accesses it is asked for

The store reaches the flash only through the three accesses of `NorFlash`, so the accesses it
makes are seen by the device. A `Recorder` is a chip that keeps a log of every access it is
asked for, performed or refused, together with the chip as it was at that moment. The store's
operations are written for any device, so they run on a recorder unchanged; what a claim says
about "every write the store issues" is said of the recorder's log.

A recorder changes nothing in what it records: a run on a recorder answers as the same run on
its chip and leaves the chip as that run does (`Mirrors`, `StoreMirrors`). This module proves
so for every operation of the store and for every call (`Call.perform_mirrors`), one lemma per
definition, each following the definition's own steps.
-/

namespace NorStore

/-- An access asked of a flash device, with its arguments. -/
inductive Access where
  | read (address length : Nat)
  | write (address : Nat) (bytes : ByteArray)
  | erase (start stop : Nat)

/-- An access, with the chip as it was when the access was asked for. -/
structure Event where
  before : Chip
  access : Access

/-- A chip with the log of the accesses it was asked for, oldest first. -/
structure Recorder where
  chip : Chip
  log : List Event := []

namespace Recorder

/-- The recorder after the chip was asked for `access` and became `chip`. -/
def note (r : Recorder) (access : Access) (chip : Chip) : Recorder :=
  ⟨chip, r.log ++ [⟨r.chip, access⟩]⟩

instance : NorFlash Recorder where
  read r address length :=
    ((r.chip.read address length).1, r.note (.read address length) (r.chip.read address length).2)
  write r address bytes :=
    ((r.chip.write address bytes).1, r.note (.write address bytes) (r.chip.write address bytes).2)
  erase r start stop :=
    ((r.chip.erase start stop).1, r.note (.erase start stop) (r.chip.erase start stop).2)

@[simp] theorem note_chip (r : Recorder) (access : Access) (chip : Chip) :
    (r.note access chip).chip = chip := rfl

@[simp] theorem note_log (r : Recorder) (access : Access) (chip : Chip) :
    (r.note access chip).log = r.log ++ [⟨r.chip, access⟩] := rfl

/-! ### Runs that agree with runs on the chip -/

variable {α β : Type}

/-- A run of `m` on a recorder answers and leaves the chip as `m'` does on the chip. -/
def Mirrors (m : StateM Recorder α) (m' : StateM Chip α) : Prop :=
  ∀ r : Recorder, ((m.run r).1, (m.run r).2.chip) = m'.run r.chip

/-- The same, for runs that may fail. -/
def MirrorsF (m : FlashM Recorder α) (m' : FlashM Chip α) : Prop := Mirrors m.run m'.run

theorem Mirrors.fst {m : StateM Recorder α} {m' : StateM Chip α} (h : Mirrors m m')
    (r : Recorder) : (m.run r).1 = (m'.run r.chip).1 :=
  congrArg Prod.fst (h r)

theorem Mirrors.chip {m : StateM Recorder α} {m' : StateM Chip α} (h : Mirrors m m')
    (r : Recorder) : (m.run r).2.chip = (m'.run r.chip).2 :=
  congrArg Prod.snd (h r)

theorem Mirrors.pure (a : α) : Mirrors (pure a) (pure a) := fun _ => rfl

theorem Mirrors.bind {m : StateM Recorder α} {m' : StateM Chip α} {f : α → StateM Recorder β}
    {f' : α → StateM Chip β} (h : Mirrors m m') (hf : ∀ a, Mirrors (f a) (f' a)) :
    Mirrors (m >>= f) (m' >>= f') := by
  intro r
  rw [StateM.run_bind, StateM.run_bind, hf, h.fst, h.chip]

theorem MirrorsF.pure (a : α) : MirrorsF (pure a : FlashM Recorder α) (pure a) := fun _ => rfl

theorem MirrorsF.throw (e : Error) : MirrorsF (throw e : FlashM Recorder α) (throw e) :=
  fun _ => rfl

theorem MirrorsF.liftExcept (x : Except Error α) :
    MirrorsF (liftExcept x : FlashM Recorder α) (liftExcept x) := by
  intro r
  cases x <;> rfl

theorem MirrorsF.bind {m : FlashM Recorder α} {m' : FlashM Chip α} {f : α → FlashM Recorder β}
    {f' : α → FlashM Chip β} (h : MirrorsF m m') (hf : ∀ a, MirrorsF (f a) (f' a)) :
    MirrorsF (m >>= f) (m' >>= f') := by
  intro r
  rw [FlashM.run_bind, FlashM.run_bind, ← h r]
  rcases m.run.run r with ⟨_ | a, r'⟩
  · rfl
  · exact hf a r'

theorem MirrorsF.throw_bind (e : Error) {f : α → FlashM Recorder β} {f' : α → FlashM Chip β} :
    MirrorsF (MonadExcept.throw e >>= f) (MonadExcept.throw e >>= f') :=
  fun _ => rfl

theorem MirrorsF.lift {m : StateM Recorder α} {m' : StateM Chip α} (h : Mirrors m m') :
    MirrorsF (liftM m : FlashM Recorder α) (liftM m') := by
  intro r
  show ((Except.ok (m.run r).1, (m.run r).2.chip)) = (Except.ok (m'.run r.chip).1, (m'.run r.chip).2)
  rw [h.fst, h.chip]

theorem MirrorsF.forIn {γ : Type} (xs : List γ) (b : β)
    {f : γ → β → FlashM Recorder (ForInStep β)} {f' : γ → β → FlashM Chip (ForInStep β)}
    (hf : ∀ x b, MirrorsF (f x b) (f' x b)) : MirrorsF (forIn xs b f) (forIn xs b f') := by
  induction xs generalizing b with
  | nil => exact MirrorsF.pure b
  | cons x xs ih =>
    rw [List.forIn_cons, List.forIn_cons]
    refine MirrorsF.bind (hf x b) fun step => ?_
    cases step with
    | done b' => exact MirrorsF.pure b'
    | yield b' => exact ih b'

/-- A store run on a recorder answers and leaves the store and chip as it does on the chip. -/
def StoreMirrors (m : StateM (Store × Recorder) α) (m' : StateM (Store × Chip) α) : Prop :=
  ∀ (s : Store) (r : Recorder),
    ((m.run (s, r)).1, (m.run (s, r)).2.1, (m.run (s, r)).2.2.chip) = m'.run (s, r.chip)

/-- The same, for store operations that may fail. -/
def StoreMirrorsE (m : StoreM Recorder α) (m' : StoreM Chip α) : Prop := StoreMirrors m.run m'.run

theorem StoreMirrors.fst {m : StateM (Store × Recorder) α} {m' : StateM (Store × Chip) α}
    (h : StoreMirrors m m') (s : Store) (r : Recorder) :
    (m.run (s, r)).1 = (m'.run (s, r.chip)).1 :=
  congrArg Prod.fst (h s r)

theorem StoreMirrors.store {m : StateM (Store × Recorder) α} {m' : StateM (Store × Chip) α}
    (h : StoreMirrors m m') (s : Store) (r : Recorder) :
    (m.run (s, r)).2.1 = (m'.run (s, r.chip)).2.1 :=
  congrArg (·.2.1) (h s r)

theorem StoreMirrors.chip {m : StateM (Store × Recorder) α} {m' : StateM (Store × Chip) α}
    (h : StoreMirrors m m') (s : Store) (r : Recorder) :
    (m.run (s, r)).2.2.chip = (m'.run (s, r.chip)).2.2 :=
  congrArg (·.2.2) (h s r)

theorem StoreMirrors.pure (a : α) :
    StoreMirrors (pure a : StateM (Store × Recorder) α) (pure a) := fun _ _ => rfl

theorem StoreMirrors.bind {m : StateM (Store × Recorder) α} {m' : StateM (Store × Chip) α}
    {f : α → StateM (Store × Recorder) β} {f' : α → StateM (Store × Chip) β}
    (h : StoreMirrors m m') (hf : ∀ a, StoreMirrors (f a) (f' a)) :
    StoreMirrors (m >>= f) (m' >>= f') := by
  intro s r
  rw [StateM.run_bind, StateM.run_bind, ← Prod.eta (m.run (s, r)).2, hf, h.fst, h.store, h.chip]

theorem StoreMirrors.map {f : α → β} {m : StateM (Store × Recorder) α} {m' : StateM (Store × Chip) α}
    (h : StoreMirrors m m') : StoreMirrors (f <$> m) (f <$> m') := by
  intro s r
  have hm := h s r
  simp only [StateT.run_map] at hm ⊢
  rw [← hm]
  rfl

theorem StoreMirrorsE.pure (a : α) : StoreMirrorsE (pure a : StoreM Recorder α) (pure a) :=
  fun _ _ => rfl

theorem StoreMirrorsE.throw_bind (e : Error) {f : α → StoreM Recorder β} {f' : α → StoreM Chip β} :
    StoreMirrorsE (MonadExcept.throw e >>= f) (MonadExcept.throw e >>= f') :=
  fun _ _ => rfl

theorem StoreMirrorsE.throw (e : Error) :
    StoreMirrorsE (MonadExcept.throw e : StoreM Recorder α) (MonadExcept.throw e) :=
  fun _ _ => rfl

theorem StoreMirrorsE.bind {m : StoreM Recorder α} {m' : StoreM Chip α}
    {f : α → StoreM Recorder β} {f' : α → StoreM Chip β}
    (h : StoreMirrorsE m m') (hf : ∀ a, StoreMirrorsE (f a) (f' a)) :
    StoreMirrorsE (m >>= f) (m' >>= f') := by
  intro s r
  rw [FlashM.run_bind, FlashM.run_bind, ← h s r]
  rcases m.run.run (s, r) with ⟨_ | a, s', r'⟩
  · rfl
  · exact hf a s' r'

theorem mirrors_current : StoreMirrorsE (Store.current : StoreM Recorder Store) Store.current :=
  fun _ _ => rfl

theorem mirrors_current_state :
    StoreMirrors (Store.current : StateM (Store × Recorder) Store) Store.current :=
  fun _ _ => rfl

theorem mirrors_setIndex (i : Option Index) :
    StoreMirrorsE (Store.setIndex i : StoreM Recorder Unit) (Store.setIndex i) :=
  fun _ _ => rfl

theorem mirrors_onDevice {m : StateM Recorder α} {m' : StateM Chip α} (h : Mirrors m m') :
    StoreMirrors (Store.onDevice m) (Store.onDevice m') := by
  intro s r
  rw [Store.run_onDevice, Store.run_onDevice, h.fst, h.chip]

theorem mirrors_onFlash {m : FlashM Recorder α} {m' : FlashM Chip α} (h : MirrorsF m m') :
    StoreMirrorsE (Store.onFlash m) (Store.onFlash m') := by
  intro s r
  rw [Store.run_onFlash, Store.run_onFlash, h.fst, h.chip]

theorem mirrors_forgetOnFault (res : Except Error α) :
    StoreMirrors (Store.forgetOnFault res : StateM (Store × Recorder) Unit) (Store.forgetOnFault res) := by
  intro s r
  rw [Store.run_forgetOnFault, Store.run_forgetOnFault]

theorem mirrors_guarded {m : StoreM Recorder α} {m' : StoreM Chip α} (h : StoreMirrorsE m m') :
    StoreMirrorsE (Store.guarded m) (Store.guarded m') := by
  intro s r
  rw [Store.run_guarded, Store.run_guarded, ← h s r]
  rcases m.run.run (s, r) with ⟨_ | a, s', r'⟩ <;> rfl

theorem mirrors_forgetOnError {m : StoreM Recorder α} {m' : StoreM Chip α} (h : StoreMirrorsE m m') :
    StoreMirrorsE (Store.forgetOnError m) (Store.forgetOnError m') := by
  intro s r
  rw [Store.run_forgetOnError, Store.run_forgetOnError, ← h s r]
  rcases m.run.run (s, r) with ⟨_ | a, s', r'⟩ <;> rfl

theorem mirrors_checkType (type : UInt8) :
    StoreMirrorsE (Store.checkType type : StoreM Recorder Unit) (Store.checkType type) := by
  intro s r
  rw [Store.run_checkType, Store.run_checkType]

/-! ### The three accesses -/

variable (l : Layout)

theorem mirrors_read (a : Area) (offset length : Nat) :
    MirrorsF (l.read a offset length) (l.read a offset length) := by
  unfold Layout.read
  refine MirrorsF.bind (MirrorsF.liftExcept _) fun address => ?_
  refine MirrorsF.bind (fun r => rfl) fun bytes => ?_
  cases bytes
  · exact MirrorsF.throw _
  · exact MirrorsF.pure _

theorem mirrors_write (a : Area) (offset : Nat) (bytes : ByteArray) :
    MirrorsF (l.write a offset bytes) (l.write a offset bytes) := by
  unfold Layout.write
  refine MirrorsF.bind (MirrorsF.liftExcept _) fun address => ?_
  refine MirrorsF.bind (fun r => rfl) fun done => ?_
  cases done
  · exact MirrorsF.throw _
  · exact MirrorsF.pure _

theorem mirrors_erase (a : Area) : MirrorsF (l.erase a) (l.erase a) := by
  unfold Layout.erase
  refine MirrorsF.bind (fun r => rfl) fun done => ?_
  cases done
  · exact MirrorsF.throw _
  · exact MirrorsF.pure _

/-! ### Records -/

open Record

theorem mirrors_readWindow (a : Area) (offset : Nat) :
    MirrorsF (readWindow l a offset) (readWindow l a offset) := by
  unfold readWindow
  dsimp only
  split
  · exact MirrorsF.pure _
  refine MirrorsF.bind (mirrors_read l a offset _) fun bytes => ?_
  split
  · exact MirrorsF.pure _
  split
  · exact MirrorsF.pure _
  split
  · exact MirrorsF.pure _
  · exact MirrorsF.throw _

theorem mirrors_readPieces (a : Area) (offset : Nat) (ps : List (Nat × Nat)) (acc : ByteArray) :
    Mirrors (readPieces l a offset ps acc) (readPieces l a offset ps acc) := by
  induction ps generalizing acc with
  | nil => exact Mirrors.pure _
  | cons p ps ih =>
    obtain ⟨position, length⟩ := p
    unfold readPieces
    refine Mirrors.bind (mirrors_read l a _ _) fun r => ?_
    cases r with
    | error e => exact Mirrors.pure _
    | ok bytes => exact ih _

variable [Crc]

theorem mirrors_readAt (a : Area) (offset : Nat) (capacity : Option Nat) :
    Mirrors (readAt l a offset capacity) (readAt l a offset capacity) := by
  unfold readAt
  refine Mirrors.bind (mirrors_readWindow l a offset) fun w => ?_
  rcases w with e | _ | ⟨h, bytes⟩
  · exact Mirrors.pure _
  · exact Mirrors.pure _
  dsimp only
  split
  · exact Mirrors.pure _
  refine Mirrors.bind (mirrors_readPieces l a offset _ _) fun res => ?_
  split
  · exact Mirrors.pure _
  split
  · exact Mirrors.pure _
  · exact Mirrors.pure _

theorem mirrors_program (a : Area) (offset : Nat) (type flags : UInt8) (data : ByteArray) :
    MirrorsF (program l a offset type flags data) (program l a offset type flags data) := by
  unfold program
  dsimp only
  split
  · exact MirrorsF.throw _
  refine MirrorsF.bind (MirrorsF.forIn _ _ fun x _ => ?_) fun _ => MirrorsF.pure _
  exact MirrorsF.bind (mirrors_write l a _ _) fun _ => MirrorsF.pure _

theorem mirrors_write_record (a : Area) (offset : Nat) (type flags : UInt8) (data : ByteArray) :
    MirrorsF (Record.write l a offset type flags data) (Record.write l a offset type flags data) := by
  unfold Record.write
  split
  · exact MirrorsF.throw _
  · exact mirrors_program l a offset type flags data

theorem mirrors_writeMaster (a : Area) (version : UInt16) :
    MirrorsF (writeMaster l a version) (writeMaster l a version) :=
  mirrors_program l a 0 masterType 0 (masterPayload version)

omit [Crc] in
theorem mirrors_copy (source : Area) (sourceOffset : Nat) (target : Area) (targetOffset : Nat) :
    MirrorsF (copy l source sourceOffset target targetOffset)
      (copy l source sourceOffset target targetOffset) := by
  unfold copy
  refine MirrorsF.bind (mirrors_readWindow l source sourceOffset) fun w => ?_
  rcases w with _ | ⟨h, bytes⟩
  · exact MirrorsF.throw _
  dsimp only
  split
  · exact MirrorsF.throw _
  refine MirrorsF.bind (MirrorsF.forIn _ _ fun x _ => ?_) fun _ => MirrorsF.pure _
  refine MirrorsF.bind (mirrors_read l source _ _) fun bytes => ?_
  exact MirrorsF.bind (mirrors_write l target _ _) fun _ => MirrorsF.pure _

/-! ### Logs, generations and the index -/

open Log Generation Index

theorem mirrors_walkFrom (a : Area) (offset : Nat) :
    Mirrors (walkFrom l a offset) (walkFrom l a offset) := by
  rw [walkFrom, walkFrom]
  refine Mirrors.bind (mirrors_readAt l a offset none) fun fetch => ?_
  rcases fetch with ⟨e | _ | e, delivered⟩
  · exact Mirrors.pure _
  · exact Mirrors.pure _
  dsimp only
  split
  · exact Mirrors.pure _
  split
  · exact Mirrors.bind (mirrors_walkFrom a e.next) fun _ => Mirrors.pure _
  · exact Mirrors.pure _
termination_by l.areaSize - offset

theorem mirrors_walk (a : Area) : Mirrors (walk l a) (walk l a) :=
  mirrors_walkFrom l a l.masterSize

omit [Crc] in
theorem mirrors_allErased (a : Area) (ps : List (Nat × Nat)) :
    MirrorsF (allErased l a ps) (allErased l a ps) := by
  induction ps with
  | nil => exact MirrorsF.pure _
  | cons p ps ih =>
    obtain ⟨offset, length⟩ := p
    unfold allErased
    refine MirrorsF.bind (mirrors_read l a offset length) fun bytes => ?_
    split
    · exact ih
    · exact MirrorsF.pure _

omit [Crc] in
theorem mirrors_isBlankFrom (a : Area) (offset : Nat) :
    MirrorsF (isBlankFrom l a offset) (isBlankFrom l a offset) :=
  mirrors_allErased l a _

theorem mirrors_readMaster (a : Area) : MirrorsF (readMaster l a) (readMaster l a) := by
  unfold readMaster
  refine MirrorsF.bind (MirrorsF.lift (mirrors_readAt l a 0 none)) fun fetch => ?_
  split
  · exact MirrorsF.pure _
  · exact MirrorsF.pure _
  · exact MirrorsF.pure _
  · exact MirrorsF.throw _

theorem mirrors_selectActive : MirrorsF (selectActive l) (selectActive l) := by
  unfold selectActive
  refine MirrorsF.bind (mirrors_readMaster l .first) fun first => ?_
  exact MirrorsF.bind (mirrors_readMaster l .second) fun second => MirrorsF.pure _

theorem mirrors_scan (count : Nat) : MirrorsF (scan l count) (scan l count) := by
  unfold scan
  refine MirrorsF.bind (mirrors_selectActive l) fun active => ?_
  rcases active with _ | ⟨area, version⟩
  · exact MirrorsF.throw _
  refine MirrorsF.bind (MirrorsF.lift (mirrors_walk l area)) fun w => ?_
  dsimp only
  -- the walk's stop decides whether to fail, and whether the area can be clean
  split
  · split
    · exact MirrorsF.bind (mirrors_isBlankFrom l area _) fun _ => MirrorsF.pure _
    · exact MirrorsF.bind (MirrorsF.pure _) fun _ => MirrorsF.pure _
  · exact MirrorsF.throw_bind _
  · split
    · exact MirrorsF.bind (mirrors_isBlankFrom l area _) fun _ => MirrorsF.pure _
    · exact MirrorsF.bind (MirrorsF.pure _) fun _ => MirrorsF.pure _

theorem mirrors_loadValue (a : Area) (offset : Nat) (type : UInt8) (capacity : Option Nat) :
    Mirrors (loadValue l a offset type capacity) (loadValue l a offset type capacity) :=
  Mirrors.bind (mirrors_readAt l a offset capacity) fun _ => Mirrors.pure _

omit [Crc] in
theorem mirrors_copyLive (source target : Area) (live : List (Slot × UInt8))
    (slots : Array (Option Slot)) (offset : Nat) :
    MirrorsF (copyLive l source target live slots offset)
      (copyLive l source target live slots offset) := by
  induction live generalizing slots offset with
  | nil => exact MirrorsF.pure _
  | cons x live ih =>
    obtain ⟨slot, type⟩ := x
    unfold copyLive
    exact MirrorsF.bind (mirrors_copy l source slot.offset target offset) fun next => ih _ _

theorem mirrors_compact (i : Index) (pending : Option Pending) :
    MirrorsF (compact l i pending) (compact l i pending) := by
  unfold compact
  dsimp only
  split
  · exact MirrorsF.throw _
  refine MirrorsF.bind (mirrors_erase l _) fun _ => ?_
  refine MirrorsF.bind (mirrors_copyLive l _ _ _ _ _) fun copied => ?_
  -- the pending record, unless it is a deletion, then the master record
  split
  · refine MirrorsF.bind (mirrors_write_record l _ _ _ _ _) fun _ => ?_
    refine MirrorsF.bind (MirrorsF.pure _) fun _ => ?_
    exact MirrorsF.bind (mirrors_writeMaster l _ _) fun _ => MirrorsF.pure _
  · refine MirrorsF.bind (MirrorsF.pure _) fun _ => ?_
    exact MirrorsF.bind (mirrors_writeMaster l _ _) fun _ => MirrorsF.pure _

theorem mirrors_append (i : Index) (type flags : UInt8) (data : ByteArray) :
    MirrorsF (append l i type flags data) (append l i type flags data) := by
  unfold append
  split
  · exact mirrors_compact l i _
  · exact MirrorsF.bind (mirrors_write_record l _ _ _ _ _) fun _ => MirrorsF.pure _

theorem mirrors_probeFlash (type : UInt8) (capacity : Nat) :
    Mirrors (Store.probeFlash l type capacity) (Store.probeFlash l type capacity) := by
  unfold Store.probeFlash
  refine Mirrors.bind (mirrors_selectActive l) fun active => ?_
  rcases active with e | _ | ⟨area, version⟩
  · exact Mirrors.pure _
  · exact Mirrors.pure _
  refine Mirrors.bind (mirrors_walk l area) fun w => ?_
  dsimp only
  split
  · split
    · exact Mirrors.pure _
    · split
      · exact Mirrors.pure _
      · exact mirrors_loadValue l area _ type _
  · split
    · exact Mirrors.pure _
    · exact mirrors_loadValue l area _ type _

/-! ### Store operations -/

theorem mirrors_load : StoreMirrorsE (Store.load : StoreM Recorder Index) Store.load := by
  unfold Store.load
  refine mirrors_forgetOnError ?_
  refine StoreMirrorsE.bind (mirrors_setIndex none) fun _ => ?_
  refine StoreMirrorsE.bind mirrors_current fun s => ?_
  refine StoreMirrorsE.bind (mirrors_onFlash (mirrors_scan s.layout _)) fun scanned => ?_
  refine StoreMirrorsE.bind (mirrors_setIndex _) fun _ => ?_
  split
  · exact StoreMirrorsE.pure _
  refine StoreMirrorsE.bind (mirrors_onFlash (mirrors_compact s.layout _ none)) fun i => ?_
  exact StoreMirrorsE.bind (mirrors_setIndex _) fun _ => StoreMirrorsE.pure _

theorem mirrors_loaded : StoreMirrorsE (Store.loaded : StoreM Recorder Index) Store.loaded := by
  unfold Store.loaded
  refine StoreMirrorsE.bind mirrors_current fun s => ?_
  split
  · exact StoreMirrorsE.pure _
  · exact mirrors_load

theorem mirrors_readValue (type : UInt8) (capacity : Option Nat) :
    StoreMirrors (Store.readValue type capacity : StateM (Store × Recorder) _)
      (Store.readValue type capacity) := by
  unfold Store.readValue
  refine StoreMirrors.bind (StoreMirrorsE.bind (mirrors_checkType type) fun _ => mirrors_loaded)
    fun res => ?_
  rcases res with e | i
  · exact StoreMirrors.pure _
  refine StoreMirrors.bind mirrors_current_state fun s => ?_
  dsimp only
  split
  · exact StoreMirrors.bind (StoreMirrors.pure _) fun _ =>
      StoreMirrors.bind (mirrors_forgetOnFault _) fun _ => StoreMirrors.pure _
  · exact StoreMirrors.bind (mirrors_onDevice (mirrors_loadValue s.layout _ _ type capacity))
      fun _ => StoreMirrors.bind (mirrors_forgetOnFault _) fun _ => StoreMirrors.pure _

theorem mirrors_init : StoreMirrorsE (Store.init : StoreM Recorder Unit) Store.init :=
  StoreMirrorsE.bind mirrors_load fun _ => StoreMirrorsE.pure _

theorem mirrors_get (type : UInt8) (buffer : ByteArray) :
    StoreMirrors (Store.get type buffer : StateM (Store × Recorder) _) (Store.get type buffer) :=
  StoreMirrors.bind (mirrors_readValue type _) fun _ => StoreMirrors.pure _

theorem mirrors_itemSize (type : UInt8) :
    StoreMirrorsE (Store.itemSize type : StoreM Recorder Nat) (Store.itemSize type) :=
  StoreMirrors.bind (mirrors_readValue type none) fun _ => StoreMirrors.pure _

omit [Crc] in
theorem mirrors_commit {m : FlashM Recorder Index} {m' : FlashM Chip Index} (h : MirrorsF m m') :
    StoreMirrorsE (Store.guarded do Store.setIndex (some (← Store.onFlash m)))
      (Store.guarded do Store.setIndex (some (← Store.onFlash m'))) :=
  mirrors_guarded (StoreMirrorsE.bind (mirrors_onFlash h) fun _ => mirrors_setIndex _)

theorem mirrors_set (type : UInt8) (value : ByteArray) :
    StoreMirrorsE (Store.set type value : StoreM Recorder Unit) (Store.set type value) := by
  unfold Store.set
  refine StoreMirrorsE.bind (mirrors_checkType type) fun _ => ?_
  refine StoreMirrorsE.bind mirrors_current fun s => ?_
  split
  · exact StoreMirrorsE.throw_bind _
  exact StoreMirrorsE.bind mirrors_loaded fun i => mirrors_commit (mirrors_append s.layout i _ _ _)

theorem mirrors_remove (type : UInt8) :
    StoreMirrorsE (Store.remove type : StoreM Recorder Unit) (Store.remove type) := by
  unfold Store.remove
  refine StoreMirrorsE.bind (mirrors_checkType type) fun _ => ?_
  refine StoreMirrorsE.bind mirrors_loaded fun i => ?_
  split
  · exact StoreMirrorsE.pure _
  exact StoreMirrorsE.bind mirrors_current fun s => mirrors_commit (mirrors_append s.layout i _ _ _)

theorem mirrors_compactStore :
    StoreMirrorsE (Store.compact : StoreM Recorder Unit) Store.compact :=
  StoreMirrorsE.bind mirrors_loaded fun i => StoreMirrorsE.bind mirrors_current fun s =>
    mirrors_commit (mirrors_compact s.layout i none)

theorem mirrors_reset : StoreMirrorsE (Store.reset : StoreM Recorder Unit) Store.reset := by
  unfold Store.reset
  refine mirrors_forgetOnError (StoreMirrorsE.bind (mirrors_setIndex none) fun _ => ?_)
  refine StoreMirrorsE.bind mirrors_current fun s => ?_
  refine StoreMirrorsE.bind (mirrors_onFlash ?_) fun _ => mirrors_setIndex _
  refine MirrorsF.bind (mirrors_erase s.layout .first) fun _ => ?_
  exact MirrorsF.bind (mirrors_erase s.layout .second) fun _ => mirrors_writeMaster s.layout _ _

theorem mirrors_statistics :
    StoreMirrorsE (Store.statistics : StoreM Recorder Statistics) Store.statistics :=
  StoreMirrorsE.bind mirrors_loaded fun _ => StoreMirrorsE.bind mirrors_current fun _ =>
    StoreMirrorsE.pure _

theorem mirrors_probe (type : UInt8) (buffer : ByteArray) :
    StoreMirrors (Store.probe type buffer : StateM (Store × Recorder) _) (Store.probe type buffer) := by
  unfold Store.probe
  split
  · exact StoreMirrors.pure _
  refine StoreMirrors.bind mirrors_current_state fun s => ?_
  exact StoreMirrors.bind (mirrors_onDevice (mirrors_probeFlash s.layout type _)) fun _ =>
    StoreMirrors.pure _

end Recorder

namespace Call

open Recorder

variable [Crc]

/-- Runs a call on the store and any flash device; on a chip it is `Call.run`. -/
def perform {δ : Type} [NorFlash δ] : Call → StateM (Store × δ) Answer
  | init => .done <$> Store.init.run
  | deinit => modifyGet fun (s, d) => (.done (.ok ()), (s.deinit, d))
  | reset => .done <$> Store.reset.run
  | compact => .done <$> Store.compact.run
  | setNumTypes n => modifyGet fun (s, d) =>
    match s.setNumTypes n with
    | .ok s' => (.done (.ok ()), (s', d))
    | .error e => (.done (.error e), (s, d))
  | set type value => .done <$> (Store.set type value).run
  | remove type => .done <$> (Store.remove type).run
  | get type buffer => .reading <$> Store.get type buffer
  | itemSize type => .size <$> (Store.itemSize type).run
  | probe type buffer => .reading <$> Store.probe type buffer
  | statistics => .figures <$> Store.statistics.run
  | recreate => modifyGet fun (s, d) => (.done (.ok ()), ({ layout := s.layout }, d))

theorem perform_chip (call : Call) : (call.perform : StateM (Store × Chip) Answer) = call.run := by
  cases call <;> rfl

theorem perform_mirrors (call : Call) : StoreMirrors call.perform call.run := by
  rw [← perform_chip]
  cases call with
  | init => exact StoreMirrors.map mirrors_init
  | deinit => exact fun _ _ => rfl
  | reset => exact StoreMirrors.map mirrors_reset
  | compact => exact StoreMirrors.map mirrors_compactStore
  | setNumTypes n =>
    intro s r
    have hrun : ((setNumTypes n).perform : StateM (Store × Recorder) Answer).run (s, r) =
        match s.setNumTypes n with
        | .ok s' => (Answer.done (.ok ()), (s', r))
        | .error e => (.done (.error e), (s, r)) := rfl
    have hrun' : ((setNumTypes n).perform : StateM (Store × Chip) Answer).run (s, r.chip) =
        match s.setNumTypes n with
        | .ok s' => (Answer.done (.ok ()), (s', r.chip))
        | .error e => (.done (.error e), (s, r.chip)) := rfl
    rw [hrun, hrun']
    cases s.setNumTypes n <;> rfl
  | set type value => exact StoreMirrors.map (mirrors_set type value)
  | remove type => exact StoreMirrors.map (mirrors_remove type)
  | get type buffer => exact StoreMirrors.map (mirrors_get type buffer)
  | itemSize type => exact StoreMirrors.map (mirrors_itemSize type)
  | probe type buffer => exact StoreMirrors.map (mirrors_probe type buffer)
  | statistics => exact StoreMirrors.map mirrors_statistics
  | recreate => exact fun _ _ => rfl

end Call

end NorStore
