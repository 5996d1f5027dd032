import NorStore.Proofs.AccessDiscipline

/-! # The order of generations

Each area's master record carries a 16-bit generation, and `selectActive` makes active the area
whose generation is the later one, comparing them modulo `2^16` (`Generation.pick`). That
comparison orders only generations that are close. What keeps them close is that a compaction
writes into the standby area the generation after the active one, and that nothing else writes
a master record but a reset, which first erases both areas.

`Layout.Paired` says that where both areas hold a master record, their generations are one
apart; the later one is then active (`Layout.Paired.later_active`), across the wrap from 65535 to 0
too. Every access the store makes keeps it (`Event.keeps_paired`): an erase leaves one area
without a master record, a write past the master records leaves both as they were, and a master
record is written whole, into an area whose other area holds none or holds the active
generation just before the one written (`Event.Advances`). The accesses of a call happen one
after the other, so every call keeps it (`Call.run_paired`), and every session after a reset
that completed has it (`AfterReset.paired`).

A compaction that completes answers the index of the other area with the next generation, and
leaves that area active (`Index.compact_moves_active`). Every access of a call but a reset keeps
off the master record of the area active when it happens, whose bytes it leaves as they were
(`Event.master_kept`).
-/

namespace NorStore

open Record Generation Index Log Store

variable {l : Layout}

/-! ### Two generations one apart -/

variable [Crc]

/-- Where both areas hold a master record, their generations are one apart modulo `2^16`. -/
def Layout.Paired (l : Layout) (cells : ByteArray) : Prop :=
  ∀ f s, masterIn l cells .first = some f → masterIn l cells .second = some s →
    s = f + 1 ∨ f = s + 1

namespace Layout

variable {cells cells' : ByteArray}

theorem paired_of_none (a : Area) (h : masterIn l cells a = none) : l.Paired cells := by
  intro f s hf hs
  cases a
  · rw [h] at hf
    cases hf
  · rw [h] at hs
    cases hs

theorem paired_of_next {a : Area} {v : UInt16} (ha : masterIn l cells a = some v)
    (hnext : masterIn l cells a.other = some (v + 1)) : l.Paired cells := by
  intro f s hf hs
  cases a
  · rw [ha] at hf
    rw [show masterIn l cells .second = some (v + 1) from hnext] at hs
    cases hf
    cases hs
    exact .inl rfl
  · rw [ha] at hs
    rw [show masterIn l cells .first = some (v + 1) from hnext] at hf
    cases hf
    cases hs
    exact .inr rfl

theorem Paired.congr {a : Area} (h : l.Paired cells)
    (ha : masterIn l cells' a = masterIn l cells a)
    (hother : masterIn l cells' a.other = masterIn l cells a.other) : l.Paired cells' := by
  intro f s hf hs
  cases a
  · exact h f s (ha.symm.trans hf) (hother.symm.trans hs)
  · exact h f s (hother.symm.trans hf) (ha.symm.trans hs)

theorem Paired.later_active (h : l.Paired cells) {f s : UInt16}
    (hf : masterIn l cells .first = some f) (hs : masterIn l cells .second = some s) :
    ∃ a v, masterIn l cells a = some v ∧ masterIn l cells a.other = some (v + 1) ∧
      activeOf l cells = some (a.other, v + 1) := by
  rcases h f s hf hs with rfl | rfl
  · exact ⟨.first, f, hf, hs, activeOf_of_next hf hs⟩
  · exact ⟨.second, s, hs, hf, activeOf_of_next hs hf⟩

/-- The generation after 65535 is 0, and it is the later one. -/
example : pick (some 65535) (some 0) = some (.second, 0) := by decide

omit [Crc] in
theorem eq_of_address_eq {a a' : Area} {offset offset' : Nat} (ho : offset < l.areaSize)
    (ho' : offset' < l.areaSize) (h : (l.info a).address + offset = (l.info a').address + offset') :
    a = a' ∧ offset = offset' := by
  cases a <;> cases a' <;> simp only [Layout.info, Area.index] at h <;>
    first | exact ⟨rfl, by omega⟩ | omega

end Layout

/-! ### One access -/

omit [Crc] in
theorem Chip.cells_read (c : Chip) (address length : Nat) :
    (c.read address length).2.cells = c.cells := by
  unfold Chip.read
  split <;> rfl

omit [Crc] in
theorem Chip.cells_write (c : Chip) (address : Nat) (bytes : ByteArray) :
    (c.write address bytes).2.cells = c.cells ∨
      (c.write address bytes).2.cells = Chip.programCells c.cells address bytes := by
  unfold Chip.write
  split
  · exact .inr rfl
  · exact .inl rfl

omit [Crc] in
theorem Chip.cells_erase (c : Chip) (start stop : Nat) :
    (c.erase start stop).2.cells = c.cells ∨
      (start + (ByteArray.mk (Array.replicate (stop - start) 0xFF)).size ≤ c.cells.size ∧
        (c.erase start stop).2.cells =
          Chip.overwriteCells c.cells start ⟨Array.replicate (stop - start) 0xFF⟩) := by
  unfold Chip.erase
  split
  · rename_i hacc
    have hstop : stop ≤ c.cells.size := hacc.2.2
    exact .inr ⟨by rw [size_replicate_erased]; have := hacc.2.1; omega, rfl⟩
  · exact .inl rfl

theorem Layout.Paired.programCells {cells : ByteArray} {a : Area} {offset : Nat}
    {bytes : ByteArray} (hp : l.Paired cells) (hin : l.Inside cells.size)
    (hfit : offset + bytes.size ≤ l.areaSize) (hpos : 0 < bytes.size)
    (he : Erased (l.bytes cells a) offset (offset + bytes.size))
    (hadv : l.KeepsOffMasters ((l.info a).address + offset)
        ((l.info a).address + offset + bytes.size) ∨
      ∃ a' version, (l.info a).address + offset = (l.info a').address ∧
        bytes = image l.geometry masterType 0 (masterPayload version) ∧
        (masterIn l cells a'.other = none ∨
          ∃ v, activeOf l cells = some (a'.other, v) ∧ version = v + 1)) :
    l.Paired (Chip.programCells cells ((l.info a).address + offset) bytes) := by
  have hA := Layout.size_bytes hin a
  have hfitA : offset + bytes.size ≤ (l.bytes cells a).size := by rw [hA]; exact hfit
  have hself := Layout.bytes_programCells_self hin a hfit he
  have hother : masterIn l (Chip.programCells cells ((l.info a).address + offset) bytes) a.other =
      masterIn l cells a.other :=
    masterIn_congr (Layout.bytes_programCells_other hin (Area.other_ne a) hfit)
  rcases hadv with hkeep | ⟨a', version, haddr, rfl, hnext⟩
  · -- a write past the master record of `a` leaves it as it was
    have hpast : l.masterSize ≤ offset := by
      rcases hkeep a with h | h <;> omega
    refine hp.congr (a := a) ?_ hother
    unfold masterIn
    rw [hself]
    exact masterOf_congr (size_overwrite hfitA) (extract_overwrite_before hfitA hpast)
  · -- the whole master record of the next generation, at the start of `a`
    obtain ⟨rfl, rfl⟩ := Layout.eq_of_address_eq (by omega) (by omega)
      (haddr.trans (Nat.add_zero _).symm)
    have hI : (image l.geometry masterType 0 (masterPayload version)).size = l.masterSize :=
      size_image _ _ _ _
    have ha : masterIn l (Chip.programCells cells ((l.info a).address + 0)
        (image l.geometry masterType 0 (masterPayload version))) a = some version := by
      unfold masterIn
      rw [hself]
      exact masterOf_overwrite_image version (show l.masterSize ≤ _ by rw [hA]; omega)
    rcases hnext with hnone | ⟨v, hact, rfl⟩
    · exact Layout.paired_of_none a.other (hother.trans hnone)
    · exact Layout.paired_of_next (hother.trans (masterIn_of_activeOf hact))
        (by rw [Area.other_other]; exact ha)

namespace Event

variable {e : Event}

omit [Crc] in
theorem inside_after (hfits : e.Fits l) (hin : l.Inside e.before.cells.size) :
    l.Inside e.after.cells.size := by
  obtain ⟨c, access⟩ := e
  cases access with
  | read address length =>
    change l.Inside (c.read address length).2.cells.size
    rw [Chip.cells_read]
    exact hin
  | write address bytes =>
    change l.Inside (c.write address bytes).2.cells.size
    rcases Chip.cells_write c address bytes with hc | hc
    · rw [hc]; exact hin
    · rw [hc, Chip.size_programCells]; exact hin
  | erase start stop =>
    change l.Inside (c.erase start stop).2.cells.size
    rcases Chip.cells_erase c start stop with hc | ⟨hfit, hc⟩
    · rw [hc]; exact hin
    · rw [hc, Chip.size_overwriteCells _ _ _ hfit]; exact hin

theorem keeps_paired (hfits : e.Fits l) (hadv : e.Advances l) (hin : l.Inside e.before.cells.size)
    (hp : l.Paired e.before.cells) : l.Paired e.after.cells := by
  obtain ⟨c, access⟩ := e
  cases access with
  | read address length =>
    change l.Paired (c.read address length).2.cells
    rw [Chip.cells_read]
    exact hp
  | write address bytes =>
    obtain ⟨a, offset, rfl, hfit, -, -, hpos, -, he⟩ := hfits
    change l.Paired (c.write _ bytes).2.cells
    rcases Chip.cells_write c ((l.info a).address + offset) bytes with hc | hc
    · rw [hc]; exact hp
    · rw [hc]; exact hp.programCells hin hfit hpos he hadv
  | erase start stop =>
    -- an erased area holds no master record
    obtain ⟨a, rfl, rfl⟩ := hfits
    change l.Paired (c.erase _ _).2.cells
    rcases Chip.cells_erase c (l.info a).address ((l.info a).address + l.areaSize) with
      hc | ⟨-, hc⟩
    · rw [hc]; exact hp
    · rw [hc, Nat.add_sub_cancel_left]
      exact Layout.paired_of_none a (masterIn_of_bytes_erased (Layout.bytes_erase_self hin a))

theorem master_kept (hspares : e.Spares l) {a : Area} {v : UInt16}
    (hact : activeOf l e.before.cells = some (a, v)) :
    e.after.cells.extract (l.info a).address ((l.info a).address + l.masterSize) =
      e.before.cells.extract (l.info a).address ((l.info a).address + l.masterSize) := by
  obtain ⟨c, access⟩ := e
  cases access with
  | read address length =>
    change (c.read address length).2.cells.extract _ _ = _
    rw [Chip.cells_read]
  | write address bytes =>
    -- the cells the write reaches lie before the master record or after it
    have hclear : address + bytes.size ≤ (l.info a).address ∨
        (l.info a).address + l.masterSize ≤ address := hspares a v hact
    change (c.write address bytes).2.cells.extract _ _ = _
    rcases Chip.cells_write c address bytes with hc | hc
    · rw [hc]
    · rw [hc]
      apply extract_eq_of_getElem (Chip.size_programCells _ _ _)
      intro j hj hj' h1 h2
      rw [Chip.getElem_programCells _ _ _ _ hj hj', dif_neg (by omega)]
  | erase start stop =>
    have hclear : stop ≤ (l.info a).address ∨ (l.info a).address + l.masterSize ≤ start :=
      hspares a v hact
    change (c.erase start stop).2.cells.extract _ _ = _
    rcases Chip.cells_erase c start stop with hc | ⟨hfit, hc⟩
    · rw [hc]
    · rw [hc]
      apply extract_eq_of_getElem (Chip.size_overwriteCells _ _ _ hfit)
      intro j hj hj' h1 h2
      rw [Chip.getElem_overwriteCells hfit _ hj hj', dif_neg (by rw [size_replicate_erased]; omega)]

end Event

/-! ### Every call, every session -/

variable [LawfulCrc]

theorem Call.run_paired {s : Store} {c : Chip} (h : s.Consistent c) (call : Call)
    (hp : s.layout.Paired c.cells) : s.layout.Paired (call.run.run (s, c)).2.2.cells := by
  obtain ⟨hchain, hnew⟩ := Call.accesses_spec h call
  exact (hchain.keeps (I := fun c => s.layout.Inside c.cells.size ∧ s.layout.Paired c.cells)
    (fun e he hI => ⟨Event.inside_after (hnew e he).1 hI.1,
      Event.keeps_paired (hnew e he).1 (hnew e he).2.1 hI.1 hI.2⟩) ⟨h.inside, hp⟩).2

omit [Crc] [LawfulCrc] in
theorem FlashM.run_bind_eq_ok {δ α β : Type} {x : FlashM δ α} {g : α → FlashM δ β}
    {d d'' : δ} {b : β} (h : (x >>= g).run.run d = (.ok b, d'')) :
    ∃ a d', x.run.run d = (.ok a, d') ∧ (g a).run.run d' = (.ok b, d'') := by
  rw [FlashM.run_bind] at h
  generalize hx : x.run.run d = q at h
  obtain ⟨_ | a, d'⟩ := q
  · cases h
  · exact ⟨a, d', rfl, h⟩

omit [LawfulCrc] in
theorem format_second_none (hl : l.Valid) {c c' : Chip} (h : l.Inside c.cells.size) {n : Nat}
    (hrun : (do l.erase .first; l.erase .second; writeMaster l .first 0 :
      FlashM Chip Nat).run.run c = (.ok n, c')) :
    masterIn l c'.cells .second = none := by
  obtain ⟨_, c₁, h₁, hrun⟩ := FlashM.run_bind_eq_ok hrun
  obtain ⟨_, c₂, h₂, h₃⟩ := FlashM.run_bind_eq_ok hrun
  have hc₁ := Layout.cells_of_erase h h₁
  have hin₁ : l.Inside c₁.cells.size := by rw [hc₁]; exact Layout.inside_erase h .first
  have hc₂ := Layout.cells_of_erase hin₁ h₂
  have hin₂ : l.Inside c₂.cells.size := by rw [hc₂]; exact Layout.inside_erase hin₁ .second
  -- the master record goes into the first area only
  obtain ⟨c₃, -, hres⟩ := writeMaster_run hl hin₂ .first 0
  rcases hres with ⟨hw, hcells⟩ | ⟨hw, -⟩
  · rw [hw] at h₃
    cases h₃
    have hfit : 0 + (image l.geometry masterType 0 (masterPayload 0)).size ≤ l.areaSize := by
      rw [Nat.zero_add, show (image l.geometry masterType 0 (masterPayload 0)).size =
        l.masterSize from size_image _ _ _ _]
      exact hl.masterSize_le_areaSize
    have hother :=
      Layout.bytes_programCells_other hin₂ (show Area.second ≠ .first by decide) hfit
    rw [Nat.add_zero] at hother
    apply masterIn_of_bytes_erased
    rw [hcells, hother, hc₂]
    exact Layout.bytes_erase_self hin₁ .second
  · rw [hw] at h₃
    cases h₃

omit [LawfulCrc] in
theorem reset_second_none {s s' : Store} {c c' : Chip} (hm : s.Mounted c)
    (hrun : (reset : StoreM Chip Unit).run.run (s, c) = (.ok (), (s', c'))) :
    masterIn s.layout c'.cells .second = none := by
  unfold reset at hrun
  rw [run_forgetOnError, FlashM.run_bind, run_setIndex] at hrun
  dsimp only at hrun
  rw [FlashM.run_bind, run_current] at hrun
  dsimp only at hrun
  rw [FlashM.run_bind, run_onFlash] at hrun
  generalize hq : (do s.layout.erase .first; s.layout.erase .second; writeMaster s.layout .first 0 :
    FlashM Chip Nat).run.run c = q at hrun
  obtain ⟨_ | n, c''⟩ := q
  · cases hrun
  · cases hrun
    exact format_second_none hm.valid hm.inside hq

/-- The pairs a session reaches after a completed reset, with faults at any points. -/
inductive AfterReset : Store × Chip → Prop
  | reset {p : Store × Chip} (h : Reachable p) (hok : (Call.reset.run.run p).1 = .done (.ok ())) :
      AfterReset (Call.reset.run.run p).2
  | call {p : Store × Chip} (call : Call) (h : AfterReset p) : AfterReset (call.run.run p).2
  | failAfter {s : Store} {c : Chip} (n : Nat) (h : AfterReset (s, c)) :
      AfterReset (s, c.failAfter n)
  | clearFaults {s : Store} {c : Chip} (h : AfterReset (s, c)) : AfterReset (s, c.clearFaults)

namespace AfterReset

omit [LawfulCrc] in
theorem reachable {p : Store × Chip} (h : AfterReset p) : Reachable p := by
  induction h with
  | reset h _ => exact .call .reset h
  | call call _ ih => exact .call call ih
  | failAfter n _ ih => exact .failAfter n ih
  | clearFaults _ ih => exact .clearFaults ih

theorem paired {p : Store × Chip} (h : AfterReset p) : p.1.layout.Paired p.2.cells := by
  induction h with
  | reset h hok =>
    rename_i p
    rw [Call.run_layout h.consistent .reset, Call.run_reset]
    rw [Call.run_reset] at hok
    obtain ⟨s, c⟩ := p
    generalize hq : (Store.reset : StoreM Chip Unit).run.run (s, c) = q at hok ⊢
    obtain ⟨x, s', c'⟩ := q
    cases hok
    exact Layout.paired_of_none .second (reset_second_none h.consistent.toMounted hq)
  | call call h ih =>
    rw [Call.run_layout h.reachable.consistent call]
    exact Call.run_paired h.reachable.consistent call ih
  | failAfter n _ ih => exact ih
  | clearFaults _ ih => exact ih

end AfterReset

/-! ### Compaction -/

omit [LawfulCrc] in
theorem Index.compact_answer {δ : Type} [NorFlash δ] {i i' : Index} {pending : Option Pending}
    {d d' : δ} (h : (compact l i pending).run.run d = (.ok i', d')) :
    i'.area = i.area.other ∧ i'.version = i.version + 1 := by
  unfold compact at h
  dsimp only at h
  split at h
  · cases h
  obtain ⟨_, _, -, h⟩ := FlashM.run_bind_eq_ok h
  obtain ⟨⟨slots, offset⟩, _, -, h⟩ := FlashM.run_bind_eq_ok h
  -- the pending record, if any, then the master record, then the answer
  split at h
  · obtain ⟨_, _, -, h⟩ := FlashM.run_bind_eq_ok h
    obtain ⟨_, _, -, h⟩ := FlashM.run_bind_eq_ok h
    obtain ⟨_, _, -, h⟩ := FlashM.run_bind_eq_ok h
    cases h
    exact ⟨rfl, rfl⟩
  · obtain ⟨_, _, -, h⟩ := FlashM.run_bind_eq_ok h
    obtain ⟨_, _, -, h⟩ := FlashM.run_bind_eq_ok h
    cases h
    exact ⟨rfl, rfl⟩

omit [LawfulCrc] in
theorem Index.compact_moves_active (hl : l.Valid) {c : Chip} (h : l.Inside c.cells.size)
    {count : Nat} (hcount : count ≤ 256) {i : Index} (hi : Scanned l count c.cells i)
    (pending : Option Pending)
    (hp : ∀ p ∈ pending, p.type < masterType ∧ p.data.size ≤ 0xFFFF) {i' : Index}
    (hok : ((compact l i pending).run.run c).1 = .ok i') :
    activeOf l c.cells = some (i.area, i.version) ∧ i'.area = i.area.other ∧
      i'.version = i.version + 1 ∧
      activeOf l ((compact l i pending).run.run c).2.cells =
        some (i.area.other, i.version + 1) := by
  obtain ⟨-, -, hres⟩ := compact_run hl h hcount hi pending hp
  generalize hq : (compact l i pending).run.run c = q at hok hres ⊢
  obtain ⟨x, c'⟩ := q
  dsimp only at hok hres ⊢
  subst hok
  obtain ⟨harea, hversion⟩ := compact_answer hq
  cases hres with
  | done _ hcoherent _ _ =>
    refine ⟨hi.active, harea, hversion, ?_⟩
    rw [← harea, ← hversion]
    exact hcoherent.active

/-! ### The order of generations over a session -/

theorem AfterReset.selects_later {p : Store × Chip} (h : AfterReset p) {f s : UInt16}
    (hf : masterIn p.1.layout p.2.cells .first = some f)
    (hs : masterIn p.1.layout p.2.cells .second = some s) :
    ∃ a v, masterIn p.1.layout p.2.cells a = some v ∧
      masterIn p.1.layout p.2.cells a.other = some (v + 1) ∧
      (((selectActive p.1.layout).run.run p.2).1 = .ok (some (a.other, v + 1)) ∨
        (p.2.failFrom ≠ none ∧
          ((selectActive p.1.layout).run.run p.2).1 = .error .readError)) := by
  have hc := h.reachable.consistent
  obtain ⟨a, v, ha, hnext, hact⟩ := h.paired.later_active hf hs
  refine ⟨a, v, ha, hnext, ?_⟩
  rw [← hact]
  exact (selectActive_run hc.valid hc.inside).2

theorem Reachable.active_master_kept {p : Store × Chip} (hr : Reachable p) {call : Call}
    (hcall : call ≠ .reset) :
    ∀ e ∈ call.accesses p.1 p.2, ∀ a v,
      ((selectActive p.1.layout).run.run e.before).1 = .ok (some (a, v)) →
      e.after.cells.extract (p.1.layout.info a).address
          ((p.1.layout.info a).address + p.1.layout.masterSize) =
        e.before.cells.extract (p.1.layout.info a).address
          ((p.1.layout.info a).address + p.1.layout.masterSize) := by
  have hc := hr.consistent
  obtain ⟨hchain, hnew⟩ := Call.accesses_spec hc call
  intro e he a v hsel
  -- the partition is on the flash each access finds, so `selectActive` read what it holds
  have hin := hchain.holds_before (I := fun c => p.1.layout.Inside c.cells.size)
    (fun e he => Event.inside_after (hnew e he).1) hc.inside e he
  have hact : activeOf p.1.layout e.before.cells = some (a, v) := by
    rcases (selectActive_run hc.valid hin).2 with hok | ⟨-, herr⟩
    · rw [hok] at hsel
      exact Except.ok.inj hsel
    · rw [herr] at hsel
      cases hsel
  exact Event.master_kept ((hnew e he).2.2 hcall) hact

/-- Master generations stay one apart modulo `2^16`, and `selectActive` picks the later one. -/
theorem generations_one_apart :
    (∀ p, AfterReset p → ∀ f s, masterIn p.1.layout p.2.cells .first = some f →
      masterIn p.1.layout p.2.cells .second = some s →
      ∃ a v, masterIn p.1.layout p.2.cells a = some v ∧
        masterIn p.1.layout p.2.cells a.other = some (v + 1) ∧
        (((selectActive p.1.layout).run.run p.2).1 = .ok (some (a.other, v + 1)) ∨
          (p.2.failFrom ≠ none ∧
            ((selectActive p.1.layout).run.run p.2).1 = .error .readError))) ∧
    (∀ (l : Layout) (c : Chip) (count : Nat) (i : Index) (pending : Option Pending) (i' : Index),
      l.Valid → l.Inside c.cells.size → count ≤ 256 → Scanned l count c.cells i →
      (∀ p ∈ pending, p.type < masterType ∧ p.data.size ≤ 0xFFFF) →
      ((compact l i pending).run.run c).1 = .ok i' →
      activeOf l c.cells = some (i.area, i.version) ∧ i'.area = i.area.other ∧
        i'.version = i.version + 1 ∧
        activeOf l ((compact l i pending).run.run c).2.cells =
          some (i.area.other, i.version + 1)) ∧
    (∀ p, Reachable p → ∀ call : Call, call ≠ .reset →
      ∀ e ∈ call.accesses p.1 p.2, ∀ a v,
      ((selectActive p.1.layout).run.run e.before).1 = .ok (some (a, v)) →
      e.after.cells.extract (p.1.layout.info a).address
          ((p.1.layout.info a).address + p.1.layout.masterSize) =
        e.before.cells.extract (p.1.layout.info a).address
          ((p.1.layout.info a).address + p.1.layout.masterSize)) :=
  ⟨fun _ h _ _ hf hs => h.selects_later hf hs,
    fun _ _ _ _ pending _ hl h hcount hi hp hok =>
      Index.compact_moves_active hl h hcount hi pending hp hok,
    fun _ hr _ hcall => hr.active_master_kept hcall⟩

end NorStore

namespace NorStore

open Record Generation Index Log Store

/-- A reset followed by a compaction on a blank chip leaves generations 0 and 1. -/
theorem reset_compact_generations_one_apart :
    let p := (Call.compact.run.run
      (Call.reset.run.run ({ layout := ⟨⟨1, 1, 64⟩, 0, 64⟩ }, Chip.erased 128)).2).2
    AfterReset p ∧ masterIn p.1.layout p.2.cells .first = some 0 ∧
      masterIn p.1.layout p.2.cells .second = some 1 ∧
      ∃ a v, masterIn p.1.layout p.2.cells a = some v ∧
        masterIn p.1.layout p.2.cells a.other = some (v + 1) ∧
        (((selectActive p.1.layout).run.run p.2).1 = .ok (some (a.other, v + 1)) ∨
          (p.2.failFrom ≠ none ∧
            ((selectActive p.1.layout).run.run p.2).1 = .error .readError)) := by
  have hc : Reachable ({ layout := ⟨⟨1, 1, 64⟩, 0, 64⟩ }, Chip.erased 128) :=
    .of_blank (show Store.create ⟨1, 1, 64⟩ 0 128 = .ok { layout := ⟨⟨1, 1, 64⟩, 0, 64⟩ } from rfl)
  -- the reset succeeds, and the masters are read off the chip the two calls leave
  obtain ⟨hok, hfirst, hsecond⟩ : ((Store.reset : StoreM Chip Unit).run.run
        ({ layout := ⟨⟨1, 1, 64⟩, 0, 64⟩ }, Chip.erased 128)).1 = .ok () ∧
      let p := (Call.compact.run.run
        (Call.reset.run.run ({ layout := ⟨⟨1, 1, 64⟩, 0, 64⟩ }, Chip.erased 128)).2).2
      masterIn p.1.layout p.2.cells .first = some 0 ∧
        masterIn p.1.layout p.2.cells .second = some 1 := by
    decide +kernel
  have hp : AfterReset (Call.compact.run.run
      (Call.reset.run.run ({ layout := ⟨⟨1, 1, 64⟩, 0, 64⟩ }, Chip.erased 128)).2).2 :=
    .call .compact (.reset hc (by rw [Call.run_reset, hok]))
  exact ⟨hp, hfirst, hsecond, generations_one_apart.1 _ hp 0 1 hfirst hsecond⟩

end NorStore
