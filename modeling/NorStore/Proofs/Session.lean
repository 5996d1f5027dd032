import NorStore.Proofs.Reads
import NorStore.Proofs.Reset

/-! # Sessions of calls

A session is what a program does with a store on a chip: it makes calls of the store's
operations one after another (`Call`), and between calls the chip may be told to refuse every
access after some more, have its faults cleared, or be changed from outside while the store
holds no index. `Reachable` collects the pairs of store and chip a session reaches from a store
just created on a partition that lies on the chip.

Whatever a session does, the store stays `Consistent` with its chip: its layout lies on the
chip, and the index it holds, if any, is coherent with the flash (`Reachable.consistent`). The
step lemma `Call.run_consistent` says what one call does: it keeps the store consistent, and a
call other than `probe` that fails on a refused access leaves the store with no index. The
outcome inductives of the operations (`Compacted`, `Added`, `Committed`, `Loaded`) carry
what the step needs, through `Settles`.
-/

namespace NorStore

open Record Generation Index Log

/-- A call of the store's operations, with its arguments. -/
inductive Call where
  | init
  | deinit
  | reset
  | compact
  | setNumTypes (n : UInt8)
  | set (type : UInt8) (value : ByteArray)
  | remove (type : UInt8)
  | get (type : UInt8) (buffer : ByteArray)
  | itemSize (type : UInt8)
  | probe (type : UInt8) (buffer : ByteArray)
  | statistics
  /-- A new store on the same partition takes the place of the old one. -/
  | recreate

/-- What a call answers. -/
inductive Answer where
  | done (r : Except Error Unit)
  | reading (r : Reading)
  | size (r : Except Error Nat)
  | figures (r : Except Error Statistics)

def Answer.error? : Answer → Option Error
  | .done (.error e) => some e
  | .reading ⟨.error e, _⟩ => some e
  | .size (.error e) => some e
  | .figures (.error e) => some e
  | _ => none

namespace Call

variable [Crc]

/-- Runs a call on the store and its chip. -/
def run : Call → StateM (Store × Chip) Answer
  | init => .done <$> Store.init.run
  | deinit => modifyGet fun (s, c) => (.done (.ok ()), (s.deinit, c))
  | reset => .done <$> Store.reset.run
  | compact => .done <$> Store.compact.run
  | setNumTypes n => modifyGet fun (s, c) =>
    match s.setNumTypes n with
    | .ok s' => (.done (.ok ()), (s', c))
    | .error e => (.done (.error e), (s, c))
  | set type value => .done <$> (Store.set type value).run
  | remove type => .done <$> (Store.remove type).run
  | get type buffer => .reading <$> Store.get type buffer
  | itemSize type => .size <$> (Store.itemSize type).run
  | probe type buffer => .reading <$> Store.probe type buffer
  | statistics => .figures <$> Store.statistics.run
  | recreate => modifyGet fun (s, c) => (.done (.ok ()), ({ layout := s.layout }, c))

def isProbe : Call → Bool
  | probe _ _ => true
  | _ => false

end Call

variable [Crc]

/-- The pairs a session reaches from a created store: calls, faults and outside changes. -/
inductive Reachable : Store × Chip → Prop
  | created {g : Geometry} {offset size : Nat} {s : Store} {c : Chip}
      (hs : Store.create g offset size = .ok s) (hin : s.layout.Inside c.cells.size) :
      Reachable (s, c)
  | call {p : Store × Chip} (call : Call) (h : Reachable p) : Reachable (call.run.run p).2
  | failAfter {s : Store} {c : Chip} (n : Nat) (h : Reachable (s, c)) :
      Reachable (s, c.failAfter n)
  | clearFaults {s : Store} {c : Chip} (h : Reachable (s, c)) : Reachable (s, c.clearFaults)
  | tamper {s : Store} {c : Chip} (cells : ByteArray) (hidle : s.index? = none)
      (hsize : cells.size = c.cells.size) (h : Reachable (s, c)) :
      Reachable (s, { c with cells })

namespace Store

/-- The store is mounted on the chip, and the index it holds is coherent with the flash. -/
structure Consistent (s : Store) (c : Chip) : Prop extends s.Mounted c where
  sound : s.Sound c.cells

theorem sound_of_none {s : Store} (h : s.index? = none) (cells : ByteArray) : s.Sound cells := by
  intro i hi
  rw [h] at hi
  cases hi

omit [Crc] in
@[simp] theorem committed_layout (s : Store) (i : Index) (r : Except Error Index) :
    (s.committed i r).layout = s.layout := by
  unfold committed
  split
  · rfl
  · split <;> rfl

omit [Crc] in
@[simp] theorem committed_numTypes (s : Store) (i : Index) (r : Except Error Index) :
    (s.committed i r).numTypes = s.numTypes := by
  unfold committed
  split
  · rfl
  · split <;> rfl

omit [Crc] in
theorem committed_of_fault (s : Store) (i : Index) {e : Error} (he : e.isFlashFault = true) :
    (s.committed i (.error e)).index? = none := by
  simp only [committed, if_pos he]

end Store

namespace Index

/-- What a device step from an index leaves: a coherent index, or the flash as it was. -/
structure Settles (l : Layout) (count : Nat) (c₁ : Chip) (r : Except Error Index) (c' : Chip) :
    Prop where
  coherent : ∀ i', r = .ok i' → Coherent l count c'.cells i'
  kept : ∀ e, r = .error e → e.isFlashFault = false → c'.cells = c₁.cells

variable {l : Layout} {count : Nat} {c₁ c' : Chip} {i : Index} {r : Except Error Index}

theorem Compacted.settles {pending : Option Pending} (h : Compacted l count c₁ i pending r c') :
    Settles l count c₁ r c' := by
  cases h with
  | tooSmall hbig => exact ⟨(fun _ h => nomatch h), fun _ _ _ => rfl⟩
  | done harea hcoherent hsource hvalues => exact ⟨fun _ h => Except.ok.inj h ▸ hcoherent, fun _ h => nomatch h⟩
  | cut hfault hdue hactive hsource htarget =>
    refine ⟨(fun _ h => nomatch h), fun e h hne => ?_⟩
    cases h
    rw [hfault] at hne
    cases hne

theorem Appended.settles {p : Pending} (h : Appended l count c₁ i p r c') :
    Settles l count c₁ r c' := by
  cases h with
  | done harea hcoherent hother hvalues => exact ⟨fun _ h => Except.ok.inj h ▸ hcoherent, fun _ h => nomatch h⟩
  | torn hdue hj hcut hbytes hother =>
    refine ⟨(fun _ h => nomatch h), fun e h hne => ?_⟩
    cases h
    cases hne

theorem Added.settles {p : Pending} (h : Added l count c₁ i p r c') : Settles l count c₁ r c' := by
  cases h with
  | inPlace hfit happended => exact happended.settles
  | compacted hfull hcompacted => exact hcompacted.settles

end Index

namespace Store

/-- The store is consistent after answering `r`, with no index after a refused access. -/
def Settled {α : Type} (r : Except Error α) (s' : Store) (c' : Chip) : Prop :=
  s'.Consistent c' ∧ ∀ e, r = .error e → e.isFlashFault = true → s'.index? = none

variable {s : Store} {c : Chip}

theorem Consistent.of_cells (h : s.Consistent c) {c' : Chip} (hcells : c'.cells = c.cells) :
    s.Consistent c' :=
  ⟨⟨h.valid, hcells ▸ h.inside, h.types⟩, hcells ▸ h.sound⟩

theorem Consistent.of_none (hm : s.Mounted c) {s' : Store} (hlayout : s'.layout = s.layout)
    (htypes : s'.numTypes ≤ masterType) (hnone : s'.index? = none) {c' : Chip}
    (hin : s.layout.Inside c'.cells.size) : s'.Consistent c' :=
  ⟨⟨hlayout ▸ hm.valid, hlayout ▸ hin, htypes⟩, sound_of_none hnone _⟩

theorem Committed.settled (h : s.Consistent c)
    {step : Index → Chip → Except Error Index → Chip → Prop}
    (hstep : ∀ i c₁ r c', Coherent s.layout s.numTypes.toNat c₁.cells i → step i c₁ r c' →
      Settles s.layout s.numTypes.toNat c₁ r c')
    {r : Except Error Unit} {s' : Store} {c' : Chip} (hin : s.layout.Inside c'.cells.size)
    (hc : Committed s c step r s' c') : Settled r s' c' := by
  cases hc with
  | loadFailed hnone hload =>
    refine ⟨?_, fun _ _ _ => rfl⟩
    exact .of_none h.toMounted (by rfl) (by exact h.types) (by rfl) hin
  | @ran i c₁ r₀ _ hfrom hran _ _ =>
    have hcoh := coherent_of_from h.sound hfrom
    have hset := hstep i c₁ r₀ c' hcoh hran
    have hm : (s.committed i r₀).Mounted c' := by
      refine ⟨?_, ?_, ?_⟩ <;> simp only [committed_layout, committed_numTypes]
      exacts [h.valid, hin, h.types]
    cases r₀ with
    | ok i' =>
      refine ⟨⟨hm, fun j hj => ?_⟩, fun _ he => nomatch he⟩
      obtain rfl : i' = j := Option.some.inj hj
      exact hset.coherent i' rfl
    | error e =>
      refine ⟨⟨hm, fun j hj => ?_⟩, fun e' he hf => ?_⟩
      · cases hf : e.isFlashFault with
        | true =>
          rw [committed_of_fault s i hf] at hj
          cases hj
        | false =>
          simp only [committed, hf, Bool.false_eq_true, if_false] at hj
          obtain rfl : i = j := Option.some.inj hj
          rw [committed_layout, committed_numTypes, hset.kept e rfl hf]
          exact hcoh
      · cases he
        exact committed_of_fault s i hf

theorem settled_of_coherent (h : s.Consistent c) {r : Except Error Index} {c' : Chip}
    (hin : s.layout.Inside c'.cells.size)
    (hcoh : ∀ i, r = .ok i → Coherent s.layout s.numTypes.toNat c'.cells i) :
    Settled r { s with index? := r.toOption } c' := by
  cases r with
  | ok i =>
    refine ⟨⟨⟨h.valid, hin, h.types⟩, fun j hj => ?_⟩, fun _ he => nomatch he⟩
    obtain rfl : i = j := Option.some.inj hj
    exact hcoh i rfl
  | error e => exact ⟨.of_none h.toMounted (by rfl) (by exact h.types) (by rfl) hin, fun _ _ _ => rfl⟩

theorem Settled.map {α β : Type} {r : Except Error α} {s' : Store} {c' : Chip}
    (h : Settled r s' c') (f : α → β) : Settled (r.map f) s' c' := by
  refine ⟨h.1, fun e he hf => h.2 e ?_ hf⟩
  cases r with
  | ok a => cases he
  | error e' => cases he; rfl

variable [LawfulCrc]

theorem load_settled (h : s.Consistent c) :
    Settled ((load : StoreM Chip Index).run.run (s, c)).1
      ((load : StoreM Chip Index).run.run (s, c)).2.1 ((load : StoreM Chip Index).run.run (s, c)).2.2 := by
  obtain ⟨r, c', hrun, -, hin, hload⟩ := load_run h.valid h.inside
  rw [hrun]
  dsimp only
  exact settled_of_coherent h hin fun i hi => (hi ▸ hload).coherent

theorem init_settled (h : s.Consistent c) :
    Settled ((init : StoreM Chip Unit).run.run (s, c)).1
      ((init : StoreM Chip Unit).run.run (s, c)).2.1 ((init : StoreM Chip Unit).run.run (s, c)).2.2 := by
  rw [run_init]
  exact (load_settled h).map _

omit [LawfulCrc] in
theorem reset_settled (h : s.Consistent c) :
    Settled ((reset : StoreM Chip Unit).run.run (s, c)).1
      ((reset : StoreM Chip Unit).run.run (s, c)).2.1 ((reset : StoreM Chip Unit).run.run (s, c)).2.2 := by
  obtain ⟨r, c', hrun, -, hin, hres⟩ := reset_run h.toMounted
  rw [hrun]
  cases hres with
  | done hcoherent hempty =>
    refine ⟨⟨⟨h.valid, hin, h.types⟩, fun j hj => ?_⟩, fun _ he => nomatch he⟩
    obtain rfl := Option.some.inj hj
    exact hcoherent
  | keptBoth hdue hcells => exact ⟨.of_none h.toMounted (by rfl) (by exact h.types) (by rfl) hin, fun _ _ _ => rfl⟩
  | keptSecond hdue hfirst hsecond => exact ⟨.of_none h.toMounted (by rfl) (by exact h.types) (by rfl) hin, fun _ _ _ => rfl⟩
  | erasedBoth hdue hfirst hsecond => exact ⟨.of_none h.toMounted (by rfl) (by exact h.types) (by rfl) hin, fun _ _ _ => rfl⟩

theorem compact_settled (h : s.Consistent c) :
    Settled ((compact : StoreM Chip Unit).run.run (s, c)).1
      ((compact : StoreM Chip Unit).run.run (s, c)).2.1 ((compact : StoreM Chip Unit).run.run (s, c)).2.2 := by
  obtain ⟨r, s', c', hrun, -, hin, hc⟩ := compact_run h.toMounted h.sound
  rw [hrun]
  exact hc.settled h (fun _ _ _ _ _ hstep => hstep.settles) hin

theorem set_settled (h : s.Consistent c) (type : UInt8) (value : ByteArray) :
    Settled ((set type value : StoreM Chip Unit).run.run (s, c)).1
      ((set type value : StoreM Chip Unit).run.run (s, c)).2.1
      ((set type value : StoreM Chip Unit).run.run (s, c)).2.2 := by
  obtain ⟨r, s', c', hrun, -, hin, hres⟩ := set_run h.toMounted h.sound type value
  rw [hrun]
  rcases hres with ⟨-, rfl, rfl, rfl⟩ | ⟨-, -, hc⟩
  · exact ⟨h, fun e he hf => by cases he; cases hf⟩
  · exact hc.settled h (fun _ _ _ _ _ hstep => hstep.settles) hin

theorem remove_settled (h : s.Consistent c) (type : UInt8) :
    Settled ((remove type : StoreM Chip Unit).run.run (s, c)).1
      ((remove type : StoreM Chip Unit).run.run (s, c)).2.1
      ((remove type : StoreM Chip Unit).run.run (s, c)).2.2 := by
  obtain ⟨r, s', c', hrun, -, hin, hres⟩ := remove_run h.toMounted h.sound type
  rw [hrun]
  rcases hres with ⟨-, rfl, rfl, rfl⟩ | ⟨-, hc⟩
  · exact ⟨h, fun e he hf => by cases he; cases hf⟩
  · refine hc.settled h (fun i c₁ r c' hcoh hstep => ?_) hin
    rcases hstep with ⟨-, rfl, rfl⟩ | ⟨-, hadded⟩
    · exact ⟨fun _ hi => Except.ok.inj hi ▸ hcoh, fun _ he => nomatch he⟩
    · exact hadded.settles

theorem readValue_settled (h : s.Consistent c) (type : UInt8) (capacity : Option Nat) :
    Settled ((readValue type capacity : StateM (Store × Chip) _).run (s, c)).1.1
      ((readValue type capacity : StateM (Store × Chip) _).run (s, c)).2.1
      ((readValue type capacity : StateM (Store × Chip) _).run (s, c)).2.2 := by
  obtain ⟨res, s', c', hrun, -, hin, hres⟩ := readValue_run h.toMounted h.sound type capacity
  rw [hrun]
  rcases hres with ⟨-, rfl, rfl, rfl⟩ | ⟨-, e, -, -, rfl, rfl⟩ |
    ⟨-, i, c₁, hfrom, hk, ⟨rfl, rfl⟩ | ⟨hdue, hread, rfl⟩⟩
  · exact ⟨h, fun e he hf => by cases he; cases hf⟩
  · exact ⟨.of_none h.toMounted (by rfl) (by exact h.types) (by rfl) hin, fun _ _ _ => rfl⟩
  · -- a read through the index changes no cell, so the index stays coherent
    have hcoh := coherent_of_from h.sound hfrom
    refine ⟨⟨⟨h.valid, hin, h.types⟩, fun j hj => ?_⟩, fun e he hf => ?_⟩
    · obtain rfl := Option.some.inj hj
      rw [hk.cells]
      exact hcoh
    · rw [readingOf_not_fault _ _ e he] at hf
      cases hf
  · exact ⟨.of_none h.toMounted (by rfl) (by exact h.types) (by rfl) hin, fun _ _ _ => rfl⟩

theorem statistics_settled (h : s.Consistent c) :
    Settled ((statistics : StoreM Chip Statistics).run.run (s, c)).1
      ((statistics : StoreM Chip Statistics).run.run (s, c)).2.1
      ((statistics : StoreM Chip Statistics).run.run (s, c)).2.2 := by
  obtain ⟨r, c', hrun, -, hin, hfrom⟩ := statistics_run h.toMounted
  rw [hrun]
  dsimp only
  refine (settled_of_coherent h hin fun i hi => ?_).map _
  rcases hfrom with ⟨i', hs, hr, rfl⟩ | ⟨-, hload⟩
  · rw [hi] at hr
    obtain rfl := Except.ok.inj hr
    exact h.sound i hs
  · exact (hi ▸ hload).coherent

theorem probe_consistent (h : s.Consistent c) (type : UInt8) (buffer : ByteArray) :
    ((probe type buffer : StateM (Store × Chip) Reading).run (s, c)).2.1.Consistent
      ((probe type buffer : StateM (Store × Chip) Reading).run (s, c)).2.2 := by
  obtain ⟨res, c', hrun, hk, -⟩ := probe_run h.valid h.inside type buffer
  rw [hrun]
  exact h.of_cells hk.cells

end Store

namespace Answer

omit [Crc] in
@[simp] theorem error?_done {r : Except Error Unit} {e : Error} :
    (done r).error? = some e ↔ r = .error e := by
  cases r <;> simp [error?]

omit [Crc] in
@[simp] theorem error?_reading {r : Reading} {e : Error} :
    (reading r).error? = some e ↔ r.result = .error e := by
  obtain ⟨_ | _, _⟩ := r <;> simp [error?]

omit [Crc] in
@[simp] theorem error?_size {r : Except Error Nat} {e : Error} :
    (size r).error? = some e ↔ r = .error e := by
  cases r <;> simp [error?]

omit [Crc] in
@[simp] theorem error?_figures {r : Except Error Statistics} {e : Error} :
    (figures r).error? = some e ↔ r = .error e := by
  cases r <;> simp [error?]

end Answer

namespace Call

variable {s : Store} {c : Chip}

@[simp] theorem run_init (p : Store × Chip) :
    init.run.run p = (.done ((Store.init : StoreM Chip Unit).run.run p).1,
      ((Store.init : StoreM Chip Unit).run.run p).2) := rfl

@[simp] theorem run_reset (p : Store × Chip) :
    reset.run.run p = (.done ((Store.reset : StoreM Chip Unit).run.run p).1,
      ((Store.reset : StoreM Chip Unit).run.run p).2) := rfl

@[simp] theorem run_compact (p : Store × Chip) :
    compact.run.run p = (.done ((Store.compact : StoreM Chip Unit).run.run p).1,
      ((Store.compact : StoreM Chip Unit).run.run p).2) := rfl

@[simp] theorem run_set (type : UInt8) (value : ByteArray) (p : Store × Chip) :
    (set type value).run.run p = (.done ((Store.set type value : StoreM Chip Unit).run.run p).1,
      ((Store.set type value : StoreM Chip Unit).run.run p).2) := rfl

@[simp] theorem run_remove (type : UInt8) (p : Store × Chip) :
    (remove type).run.run p = (.done ((Store.remove type : StoreM Chip Unit).run.run p).1,
      ((Store.remove type : StoreM Chip Unit).run.run p).2) := rfl

@[simp] theorem run_get (type : UInt8) (buffer : ByteArray) (p : Store × Chip) :
    (get type buffer).run.run p =
      (.reading ((Store.get type buffer : StateM (Store × Chip) Reading).run p).1,
        ((Store.get type buffer : StateM (Store × Chip) Reading).run p).2) := rfl

@[simp] theorem run_itemSize (type : UInt8) (p : Store × Chip) :
    (itemSize type).run.run p = (.size ((Store.itemSize type : StoreM Chip Nat).run.run p).1,
      ((Store.itemSize type : StoreM Chip Nat).run.run p).2) := rfl

@[simp] theorem run_probe (type : UInt8) (buffer : ByteArray) (p : Store × Chip) :
    (probe type buffer).run.run p =
      (.reading ((Store.probe type buffer : StateM (Store × Chip) Reading).run p).1,
        ((Store.probe type buffer : StateM (Store × Chip) Reading).run p).2) := rfl

@[simp] theorem run_statistics (p : Store × Chip) :
    statistics.run.run p =
      (.figures ((Store.statistics : StoreM Chip Statistics).run.run p).1,
        ((Store.statistics : StoreM Chip Statistics).run.run p).2) := rfl

variable [LawfulCrc]

theorem run_consistent (h : s.Consistent c) (call : Call) :
    (call.run.run (s, c)).2.1.Consistent (call.run.run (s, c)).2.2 ∧
      (call.isProbe = false → ∀ e, (call.run.run (s, c)).1.error? = some e →
        e.isFlashFault = true → (call.run.run (s, c)).2.1.index? = none) := by
  cases call with
  | init =>
    obtain ⟨hcons, hfault⟩ := Store.init_settled h
    exact ⟨hcons, fun _ e he => hfault e (Answer.error?_done.mp he)⟩
  | deinit =>
    exact ⟨.of_none h.toMounted (by rfl) (by exact h.types) (by rfl) h.inside, fun _ _ _ _ => rfl⟩
  | reset =>
    obtain ⟨hcons, hfault⟩ := Store.reset_settled h
    exact ⟨hcons, fun _ e he => hfault e (Answer.error?_done.mp he)⟩
  | compact =>
    obtain ⟨hcons, hfault⟩ := Store.compact_settled h
    exact ⟨hcons, fun _ e he => hfault e (Answer.error?_done.mp he)⟩
  | setNumTypes n =>
    simp only [run, Store.setNumTypes]
    by_cases hn : n > masterType
    · simp only [if_pos hn]
      refine ⟨h, fun _ e he hf => ?_⟩
      change (Answer.done (.error .badValue)).error? = some e at he
      cases Answer.error?_done.mp he
      cases hf
    · simp only [if_neg hn]
      exact ⟨.of_none h.toMounted (by rfl) (UInt8.not_lt.mp hn) (by rfl) h.inside,
        fun _ _ _ _ => rfl⟩
  | set type value =>
    obtain ⟨hcons, hfault⟩ := Store.set_settled h type value
    exact ⟨hcons, fun _ e he => hfault e (Answer.error?_done.mp he)⟩
  | remove type =>
    obtain ⟨hcons, hfault⟩ := Store.remove_settled h type
    exact ⟨hcons, fun _ e he => hfault e (Answer.error?_done.mp he)⟩
  | get type buffer =>
    obtain ⟨hcons, hfault⟩ := Store.readValue_settled h type (some buffer.size)
    exact ⟨hcons, fun _ e he => hfault e (Answer.error?_reading.mp he)⟩
  | itemSize type =>
    obtain ⟨hcons, hfault⟩ := Store.readValue_settled h type none
    exact ⟨hcons, fun _ e he => hfault e (Answer.error?_size.mp he)⟩
  | probe type buffer => exact ⟨Store.probe_consistent h type buffer, fun hp => nomatch hp⟩
  | statistics =>
    obtain ⟨hcons, hfault⟩ := Store.statistics_settled h
    exact ⟨hcons, fun _ e he => hfault e (Answer.error?_figures.mp he)⟩
  | recreate =>
    exact ⟨.of_none h.toMounted (by rfl) (show (16 : UInt8) ≤ masterType by decide) (by rfl) h.inside,
      fun _ _ _ _ => rfl⟩

end Call

namespace Store

omit [Crc] in
theorem create_eq_ok {g : Geometry} {offset size : Nat} {s : Store}
    (h : Store.create g offset size = .ok s) :
    ∃ l, Layout.create g offset size = .ok l ∧ s = { layout := l } := by
  unfold Store.create at h
  cases hl : Layout.create g offset size with
  | error e => rw [hl] at h; cases h
  | ok l =>
    rw [hl] at h
    cases h
    exact ⟨l, rfl, rfl⟩

variable {s : Store} {c : Chip}

variable [LawfulCrc]

theorem init_of_coherent (h : s.Consistent c) {i : Index} (hi : s.index? = some i) :
    Chip.Keeps c ((init : StoreM Chip Unit).run.run (s, c)).2.2 ∧
      ((((init : StoreM Chip Unit).run.run (s, c)).1 = .ok () ∧
          ((init : StoreM Chip Unit).run.run (s, c)).2.1 = s) ∨
        (c.failFrom ≠ none ∧ ((init : StoreM Chip Unit).run.run (s, c)).1 = .error .readError ∧
          ((init : StoreM Chip Unit).run.run (s, c)).2.1 = { s with index? := none })) := by
  have hscan := scanOf_of_coherent (h.sound i hi)
  rw [run_init]
  obtain ⟨r, c', hrun, -, -, hload⟩ := load_run h.valid h.inside
  rw [hrun]
  cases hload with
  | refused hdue hk => exact ⟨hk, .inr ⟨hdue, rfl, rfl⟩⟩
  | noMaster hnone hk =>
    rw [(h.sound i hi).active] at hnone
    cases hnone
  | clean hscan' hk =>
    rw [hscan] at hscan'
    cases hscan'
    refine ⟨hk, .inl ⟨rfl, ?_⟩⟩
    change { s with index? := some i } = s
    rw [← hi]
  | recovered hscan' hk hcompact =>
    rw [hscan] at hscan'
    cases hscan'

end Store

namespace Reachable

/-- A store created on the whole of a blank chip, from its first byte. -/
theorem of_blank {g : Geometry} {size : Nat} {s : Store} (hs : Store.create g 0 size = .ok s) :
    Reachable (s, Chip.erased size) := by
  obtain ⟨l, hl, rfl⟩ := Store.create_eq_ok hs
  obtain ⟨-, rfl⟩ := Layout.create_eq_ok_iff.mp hl
  refine .created hs ?_
  show 0 + 2 * (size / 2) ≤ (ByteArray.mk (Array.replicate size 0xFF)).size
  rw [size_replicate_erased]
  omega

variable [LawfulCrc]

theorem consistent {p : Store × Chip} (h : Reachable p) : p.1.Consistent p.2 := by
  induction h with
  | created hs hin =>
    obtain ⟨l, hl, rfl⟩ := Store.create_eq_ok hs
    exact ⟨⟨Layout.valid_of_create hl, hin, show (16 : UInt8) ≤ masterType by decide⟩,
      Store.sound_of_none rfl _⟩
  | call call h ih =>
    rename_i p
    obtain ⟨s, c⟩ := p
    exact (Call.run_consistent ih call).1
  | failAfter n h ih => exact ih.of_cells rfl
  | clearFaults h ih => exact ih.of_cells rfl
  | tamper cells hidle hsize h ih =>
    exact .of_none ih.toMounted rfl ih.types hidle (hsize ▸ ih.inside)

end Reachable

namespace Store

/-- What the index `i` of the store `s` says of the flash `cells`. -/
structure Describes (s : Store) (cells : ByteArray) (i : Index) : Prop where
  size : i.slots.size = s.numTypes.toNat
  active : activeOf s.layout cells = some (i.area, i.version)
  afterMaster : s.layout.masterSize ≤ i.free
  insideArea : i.free ≤ s.layout.areaSize
  log : s.layout.logOf cells i.area = ⟨(s.layout.logOf cells i.area).entries, none, i.free⟩
  blank : Blank (s.layout.bytes cells i.area) i.free
  slot : ∀ t sl, t < s.numTypes → (i.slot? t = some sl ↔
    ∃ before e after, (s.layout.logOf cells i.area).entries = before ++ e :: after ∧
      e.offset = sl.offset ∧ e.record = .live t sl.length ∧ ∀ e' ∈ after, ¬ Decides t e')
  beyond : ∀ t, s.numTypes ≤ t → i.slot? t = none

theorem Consistent.describes {s : Store} {c : Chip} (h : s.Consistent c) {i : Index}
    (hi : s.index? = some i) : s.Describes c.cells i := by
  have hcoh := h.sound i hi
  have hcount : s.numTypes.toNat ≤ 256 := Nat.le_of_lt (UInt8.toNat_lt _)
  obtain ⟨hmaster, harea⟩ := hcoh.free_bounds h.valid h.inside
  refine ⟨by rw [hcoh.slots, size_slotsOf], hcoh.active, hmaster, harea, hcoh.log, hcoh.blank,
    fun t sl ht => ?_, fun t ht => ?_⟩
  · rw [slot?_of_slots hcount hcoh.slots, if_pos (UInt8.lt_iff_toNat_lt.mp ht)]
    exact slotFor_eq_some_iff
  · rw [slot?_of_slots hcount hcoh.slots, if_neg (Nat.not_lt.mpr (UInt8.le_iff_toNat_le.mp ht))]

end Store

variable [LawfulCrc]

open Store in
/-- In every reachable pair the index the store holds describes the flash exactly. -/
theorem reachable_index_describes_flash {s : Store} {c : Chip} (hr : Reachable (s, c)) :
    (∀ i, s.index? = some i → s.Describes c.cells i ∧
      Chip.Keeps c ((init : StoreM Chip Unit).run.run (s, c)).2.2 ∧
      ((((init : StoreM Chip Unit).run.run (s, c)).1 = .ok () ∧
          ((init : StoreM Chip Unit).run.run (s, c)).2.1 = s) ∨
        (c.failFrom ≠ none ∧ ((init : StoreM Chip Unit).run.run (s, c)).1 = .error .readError ∧
          ((init : StoreM Chip Unit).run.run (s, c)).2.1 = { s with index? := none }))) ∧
    (∀ call : Call, call.isProbe = false → ∀ e, (call.run.run (s, c)).1.error? = some e →
      e.isFlashFault = true → (call.run.run (s, c)).2.1.index? = none) := by
  have h := hr.consistent
  exact ⟨fun i hi => ⟨h.describes hi, init_of_coherent h hi⟩,
    fun call => (Call.run_consistent h call).2⟩

end NorStore

namespace NorStore

open Record Generation Index Log

open Store in
/-- A store reset on a blank chip of two 64-byte areas. -/
theorem reset_blank_chip_describes_flash :
    Reachable (Call.reset.run.run ({ layout := ⟨⟨1, 1, 64⟩, 0, 64⟩ }, Chip.erased 128)).2 ∧
      ((∀ i, (Call.reset.run.run ({ layout := ⟨⟨1, 1, 64⟩, 0, 64⟩ }, Chip.erased 128)).2.1.index? =
            some i →
          (Call.reset.run.run ({ layout := ⟨⟨1, 1, 64⟩, 0, 64⟩ }, Chip.erased 128)).2.1.Describes
            (Call.reset.run.run ({ layout := ⟨⟨1, 1, 64⟩, 0, 64⟩ }, Chip.erased 128)).2.2.cells i ∧
          Chip.Keeps (Call.reset.run.run ({ layout := ⟨⟨1, 1, 64⟩, 0, 64⟩ }, Chip.erased 128)).2.2
            ((init : StoreM Chip Unit).run.run
              (Call.reset.run.run ({ layout := ⟨⟨1, 1, 64⟩, 0, 64⟩ }, Chip.erased 128)).2).2.2 ∧
          ((((init : StoreM Chip Unit).run.run
                (Call.reset.run.run ({ layout := ⟨⟨1, 1, 64⟩, 0, 64⟩ }, Chip.erased 128)).2).1 =
                .ok () ∧
              ((init : StoreM Chip Unit).run.run
                (Call.reset.run.run ({ layout := ⟨⟨1, 1, 64⟩, 0, 64⟩ }, Chip.erased 128)).2).2.1 =
                (Call.reset.run.run ({ layout := ⟨⟨1, 1, 64⟩, 0, 64⟩ }, Chip.erased 128)).2.1) ∨
            ((Call.reset.run.run ({ layout := ⟨⟨1, 1, 64⟩, 0, 64⟩ }, Chip.erased 128)).2.2.failFrom ≠
                none ∧
              ((init : StoreM Chip Unit).run.run
                (Call.reset.run.run ({ layout := ⟨⟨1, 1, 64⟩, 0, 64⟩ }, Chip.erased 128)).2).1 =
                .error .readError ∧
              ((init : StoreM Chip Unit).run.run
                (Call.reset.run.run ({ layout := ⟨⟨1, 1, 64⟩, 0, 64⟩ }, Chip.erased 128)).2).2.1 =
                { (Call.reset.run.run ({ layout := ⟨⟨1, 1, 64⟩, 0, 64⟩ }, Chip.erased 128)).2.1 with
                  index? := none }))) ∧
        (∀ call : Call, call.isProbe = false → ∀ e,
          (call.run.run (Call.reset.run.run
            ({ layout := ⟨⟨1, 1, 64⟩, 0, 64⟩ }, Chip.erased 128)).2).1.error? = some e →
          e.isFlashFault = true →
          (call.run.run (Call.reset.run.run
            ({ layout := ⟨⟨1, 1, 64⟩, 0, 64⟩ }, Chip.erased 128)).2).2.1.index? = none)) := by
  have hr : Reachable (Call.reset.run.run ({ layout := ⟨⟨1, 1, 64⟩, 0, 64⟩ }, Chip.erased 128)).2 :=
    .call .reset (.of_blank
      (show Store.create ⟨1, 1, 64⟩ 0 128 = .ok { layout := ⟨⟨1, 1, 64⟩, 0, 64⟩ } from rfl))
  -- the reset is not run: the theorem applies to whatever pair it reaches
  generalize (Call.reset.run.run ({ layout := ⟨⟨1, 1, 64⟩, 0, 64⟩ }, Chip.erased 128)).2 = p at hr ⊢
  obtain ⟨s, c⟩ := p
  exact ⟨hr, reachable_index_describes_flash hr⟩

end NorStore
