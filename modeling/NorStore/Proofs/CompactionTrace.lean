import NorStore.Proofs.AccessTrace

/-! # The accesses of a compaction, an append and a format

A compaction erases the standby area, copies the current records into it, writes the pending
record and last the master record. Every write lands where the standby area is erased, and none
of its accesses touches the active area but to read it: the standby area has no master record
until the very last write, so the old area stays the active one throughout. The invariants that
say so are the ones the run lemmas of `Proofs/Compact` carry (`Filling`, `Ready`); here they are
carried along the recorder's run.

An append writes where the active area's log ends, past its master record, where a coherent
index says the area is erased. A format erases both areas (the only accesses of the store that
clear the active master record) and then writes the first area's master record.
-/

namespace NorStore

open Record Generation Index Log

variable {l : Layout}

variable [Crc]

theorem Index.Unfinished.activeOf {count : Nat} {cells cells' : ByteArray} {i : Index}
    (hi : Scanned l count cells i) (h : Unfinished l cells' i.area (l.bytes cells i.area)) :
    activeOf l cells' = some (i.area, i.version) :=
  activeOf_of_other_none (by rw [masterIn_congr h.intact]; exact masterIn_of_activeOf hi.active)
    (masterIn_of_erased h.head)

namespace Recorder

theorem adds_copyLive (hl : l.Valid) {source : Area} {S : ByteArray} {es : List Entry}
    (hdec : ∀ e ∈ es, decode l.geometry S e.offset = .ok (some e))
    (hgrid : ∀ e ∈ es, l.geometry.recordAlignment ∣ e.offset) :
    ∀ (live done : List (Slot × UInt8)) (copied : List Entry) (slots : Array (Option Slot))
      (offset : Nat) (r : Recorder),
      Filling l r.chip.cells source S es done copied offset →
      (∀ p ∈ live, slotFor p.2 es = some p.1) →
      offset + copiesSize l live ≤ l.areaSize →
      AddsF (Event.Proper l) (copyLive l source source.other live slots offset) r
  | [], _, _, _, _, r, _, _, _ => AddsF.pure _ r
  | (s, t) :: rest, done, copied, slots, offset, r, hf, hlive, hfit => by
    have hslot : slotFor t es = some s := hlive (s, t) List.mem_cons_self
    obtain ⟨e, he, hoff, -⟩ := slotFor_eq_some hslot
    have hin := hf.inside
    -- the target's log ends on the grid, where it is erased
    have hto : l.geometry.recordAlignment ∣ offset := by
      have := (logOf_on_grid hl hin source.other).2
      rwa [hf.log] at this
    have hsize : offset + copiesSize l ((s, t) :: rest) =
        offset + l.recordSize s.length + copiesSize l rest := by
      rw [Nat.add_assoc]; rfl
    rw [copyLive]
    refine AddsF.bind (adds_copy hl source source.other (hoff ▸ hgrid e he) hto r hin hf.blank
      hf.start) fun next r' hc => ?_
    obtain ⟨-, hr⟩ := copy_step hf hdec hslot (by omega)
    rw [(mirrors_copy l source s.offset source.other offset).run_chip hc] at hr
    rcases hr with ⟨hnext, hf'⟩ | ⟨err, herr, -⟩
    · cases Except.ok.inj hnext
      exact adds_copyLive hl hdec hgrid rest _ _ _ _ r' hf'
        (fun p hp => hlive p (List.mem_cons_of_mem _ hp)) (by omega)
    · cases herr

theorem adds_compact (hl : l.Valid) {count : Nat} (hcount : count ≤ 256) {i : Index}
    (pending : Option Pending) (hp : ∀ p ∈ pending, p.type < masterType ∧ p.data.size ≤ 0xFFFF)
    (r : Recorder) (hin : l.Inside r.chip.cells.size) (hi : Scanned l count r.chip.cells i) :
    AddsF (Event.Proper l) (compact l i pending) r := by
  have hsize : i.slots.size = count := by rw [hi.slots, size_slotsOf]
  have hother : ∀ a' v, activeOf l r.chip.cells = some (a', v) → a' ≠ i.area.other := by
    intro a' v hact
    rw [hi.active] at hact
    cases hact
    exact (Area.other_ne _).symm
  unfold compact
  dsimp only
  split
  · exact AddsF.throw _ r
  rename_i hbig
  refine AddsF.bind (adds_erase (proper_erase hl hother)) fun _ r₁ h₁ => ?_
  -- the standby area is erased, and the copies start after its master record
  obtain ⟨-, hr₁⟩ := erase_step hin i.area (l.logOf r.chip.cells i.area).entries
  rw [(mirrors_erase l i.area.other).run_chip h₁] at hr₁
  obtain ⟨-, hf₁⟩ | ⟨hr, -⟩ := hr₁
  swap
  · cases hr
  have hS := Layout.size_bytes hin i.area
  obtain ⟨-, hdec, -, -⟩ := chain_spec l.geometry (l.bytes r.chip.cells i.area) l.masterSize
    (by rw [hS]; exact hl.masterSize_le_areaSize)
  have hdec' : ∀ e ∈ (l.logOf r.chip.cells i.area).entries,
      decode l.geometry (l.bytes r.chip.cells i.area) e.offset = .ok (some e) :=
    fun e he => (hdec e he).1
  have hsizes : compactedSize l (i.liveRecords.filter fun p => pending.all (·.type != p.2))
      (pending.filter (!·.isDeletion)) = l.masterSize +
        copiesSize l (i.liveRecords.filter fun p => pending.all (·.type != p.2)) +
        ((pending.filter (!·.isDeletion)).map fun p => l.recordSize p.data.size).getD 0 := rfl
  refine AddsF.bind (adds_copyLive hl hdec' (logOf_on_grid hl hin i.area).1 _ [] [] _ _ r₁ hf₁
    (fun p hp => slotFor_of_mem_copied hcount hi.slots hp) (by omega)) fun copied r₂ h₂ => ?_
  -- after the copies the standby area is ready for the pending record
  have hinit : Array.replicate i.slots.size none = slotsOf count [] := by rw [hsize]; rfl
  obtain ⟨-, hr₂⟩ := copyLive_run count hdec'
    (i.liveRecords.filter fun p => pending.all (·.type != p.2)) [] [] l.masterSize r₁.chip hf₁
    (fun p hp => slotFor_of_mem_copied hcount hi.slots hp) (by omega)
  rw [← hinit, (mirrors_copyLive l i.area i.area.other _ _ _).run_chip h₂] at hr₂
  obtain ⟨copied', hres, hf₂⟩ | ⟨err, herr, -⟩ := hr₂
  swap
  · cases herr
  cases Except.ok.inj hres
  have hready := hf₂.toReady
  have hin₂ := hready.inside
  dsimp only
  split
  · -- the pending record, where the copies end
    rename_i p hw
    obtain ⟨hpend, hnd⟩ := Option.filter_eq_some_iff.mp hw
    have hdel : p.isDeletion = false := by simpa using hnd
    obtain ⟨htype, hlen⟩ := hp p (Option.mem_def.mpr hpend)
    have hto : l.geometry.recordAlignment ∣ l.masterSize +
        copiesSize l (i.liveRecords.filter fun p => pending.all (·.type != p.2)) := by
      have := (logOf_on_grid hl hin₂ i.area.other).2
      rwa [hready.log] at this
    have hfit3 : l.masterSize + copiesSize l
        (i.liveRecords.filter fun p => pending.all (·.type != p.2)) +
        l.recordSize p.data.size ≤ l.areaSize := by
      have hw' : ((Option.filter (fun x => !x.isDeletion) pending).map
          fun p => l.recordSize p.data.size).getD 0 = l.recordSize p.data.size := by
        rw [hw]; rfl
      omega
    refine AddsF.bind (adds_write_record hl i.area.other hto p.type p.flags p.data r₂ hin₂
      (hready.blank.erased _) hready.start) fun next r₃ h₃ => ?_
    obtain ⟨-, hr₃⟩ := pending_step hready htype hlen hdel hfit3
    rw [(mirrors_write_record l i.area.other _ p.type p.flags p.data).run_chip h₃] at hr₃
    obtain ⟨-, hready₃, -⟩ | ⟨hr, -⟩ := hr₃
    swap
    · cases hr
    -- then the master record, into the standby area that still has none
    refine AddsF.bind (AddsF.pure _ r₃) fun _ r₄ h₄ => ?_
    cases (Prod.mk.inj h₄).2
    exact AddsF.bind (adds_writeMaster hl i.area.other _ r₃ hready₃.head
      (fun a' v hact => ne_of_activeOf_of_erased hready₃.head hact)
      (.inr ⟨i.version, by rw [Area.other_other]; exact hready₃.toUnfinished.activeOf hi, rfl⟩))
      fun _ r₅ _ => AddsF.pure _ r₅
  · refine AddsF.bind (AddsF.pure _ r₂) fun _ r₄ h₄ => ?_
    cases (Prod.mk.inj h₄).2
    exact AddsF.bind (adds_writeMaster hl i.area.other _ r₂ hready.head
      (fun a' v hact => ne_of_activeOf_of_erased hready.head hact)
      (.inr ⟨i.version, by rw [Area.other_other]; exact hready.toUnfinished.activeOf hi, rfl⟩))
      fun _ r₅ _ => AddsF.pure _ r₅

theorem adds_append (hl : l.Valid) {count : Nat} (hcount : count ≤ 256) {i : Index}
    (r : Recorder) (hin : l.Inside r.chip.cells.size) (hi : Coherent l count r.chip.cells i)
    {type : UInt8} (flags : UInt8) (data : ByteArray) (htype : type < masterType)
    (hlen : data.size ≤ 0xFFFF) : AddsF (Event.Proper l) (append l i type flags data) r := by
  unfold append
  split
  · exact adds_compact hl hcount _ (fun p hp => by cases hp; exact ⟨htype, hlen⟩) r hin
      hi.toScanned
  · exact AddsF.bind (adds_write_record hl i.area (hi.free_on_grid hl hin) type flags data r hin
      (hi.blank.erased _) (hi.free_bounds hl hin).1) fun _ r' _ => AddsF.pure _ r'

theorem adds_format (hl : l.Valid) (r : Recorder) (hin : l.Inside r.chip.cells.size) :
    AddsF (fun e => e.Fits l ∧ e.Advances l)
      (do l.erase .first; l.erase .second; writeMaster l .first 0 : FlashM Recorder Nat) r := by
  refine AddsF.bind (adds_erase ⟨⟨.first, rfl, rfl⟩, trivial⟩) fun _ r₁ h₁ => ?_
  have hc₁ := cells_of_erase_ok hin h₁
  have hin₁ : l.Inside r₁.chip.cells.size := by rw [hc₁]; exact Layout.inside_erase hin .first
  refine AddsF.bind (adds_erase ⟨⟨.second, rfl, rfl⟩, trivial⟩) fun _ r₂ h₂ => ?_
  have hc₂ := cells_of_erase_ok hin₁ h₂
  -- both areas are erased: neither has a master record, and the first is not active
  have hfirst : Erased (l.bytes r₂.chip.cells .first) 0 l.masterSize := by
    rw [hc₂, Layout.bytes_erase_other hin₁ (by decide), hc₁, Layout.bytes_erase_self hin]
    exact fun _ hi _ _ => getElem_replicate_erased hi
  have hsecond : masterIn l r₂.chip.cells Area.first.other = none :=
    masterIn_of_bytes_erased (by rw [hc₂]; exact Layout.bytes_erase_self hin₁ .second)
  exact (adds_writeMaster hl .first 0 r₂ hfirst
    (fun a' v hact => ne_of_activeOf_of_erased hfirst hact) (.inl hsecond)).mono
    fun e he => ⟨he.1, he.2.2⟩

end Recorder

end NorStore
