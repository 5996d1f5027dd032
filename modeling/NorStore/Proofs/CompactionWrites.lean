import NorStore.Proofs.IssuedWrites

/-! # What a compaction writes

On a chip with no fault set a compaction from a scanned index either stops before it touches
the flash, because the live records and the pending one do not fit in an area, or it runs to
its end and asks for exactly these writes and erases, in this order: one erase of the standby
area; for each type that holds a value and that the pending write does not touch, in the order
of its record in the active area, the bytes of that record copied piece by piece; the pending
record, unless it deletes; and last the master record of the next generation.

The copies go back to back from the end of the master record (`Index.placeCopies`), so the
free space of the new index is the size the compaction computed before it started, and each
copied type points at its copy with the length it had. The active area is only read.
-/

namespace NorStore

open Record Log Generation

namespace Index

variable {l : Layout}

/-- Where a compaction puts the copies of `live`, back to back from `offset`. -/
def placeCopies (l : Layout) : List (Slot × UInt8) → Nat → List (Slot × UInt8 × Nat)
  | [], _ => []
  | (s, t) :: rest, offset => (s, t, offset) :: placeCopies l rest (offset + l.recordSize s.length)

@[simp] theorem placeCopies_nil (offset : Nat) : placeCopies l [] offset = [] := rfl

@[simp] theorem placeCopies_cons (s : Slot) (t : UInt8) (rest : List (Slot × UInt8))
    (offset : Nat) :
    placeCopies l ((s, t) :: rest) offset =
      (s, t, offset) :: placeCopies l rest (offset + l.recordSize s.length) := rfl

theorem map_placeCopies_type (live : List (Slot × UInt8)) (offset : Nat) :
    (placeCopies l live offset).map (·.2.1) = live.map Prod.snd := by
  induction live generalizing offset with
  | nil => rfl
  | cons p live ih =>
    obtain ⟨s, t⟩ := p
    rw [placeCopies_cons, List.map_cons, ih, List.map_cons]

theorem mem_placeCopies {live : List (Slot × UInt8)} {offset : Nat} {s : Slot} {t : UInt8}
    {o : Nat} (h : (s, t, o) ∈ placeCopies l live offset) : (s, t) ∈ live := by
  induction live generalizing offset with
  | nil => cases h
  | cons p live ih =>
    obtain ⟨s', t'⟩ := p
    rw [placeCopies_cons, List.mem_cons] at h
    rcases h with h | h
    · simp only [Prod.mk.injEq] at h
      obtain ⟨rfl, rfl, -⟩ := h
      exact List.mem_cons_self
    · exact List.mem_cons_of_mem _ (ih h)

theorem placeCopies_pairwise_type {live : List (Slot × UInt8)} (h : live.Pairwise (·.2 ≠ ·.2))
    (offset : Nat) : (placeCopies l live offset).Pairwise (·.2.1 ≠ ·.2.1) := by
  have h' : ((placeCopies l live offset).map (·.2.1)).Pairwise (· ≠ ·) := by
    rw [map_placeCopies_type, List.pairwise_map]
    exact h
  exact List.pairwise_map.mp h'

/-- The slots after the copies `ps` are noted in `slots`: each copy's type points at it. -/
def noteCopies (slots : Array (Option Slot)) (ps : List (Slot × UInt8 × Nat)) :
    Array (Option Slot) :=
  ps.foldl (fun a x => a.setIfInBounds x.2.1.toNat (some ⟨x.2.2, x.1.length⟩)) slots

/-- The slot of one type after the copies `ps`: the last copy of that type, or what it was. -/
def copiedSlot (t : UInt8) (current : Option Slot) (ps : List (Slot × UInt8 × Nat)) :
    Option Slot :=
  ps.foldl (fun cur x => if x.2.1 = t then some ⟨x.2.2, x.1.length⟩ else cur) current

theorem getElem?_noteCopies {k : Nat} (hk : k < 256) :
    ∀ (ps : List (Slot × UInt8 × Nat)) (slots : Array (Option Slot)),
      (noteCopies slots ps)[k]? = slots[k]?.map (copiedSlot k.toUInt8 · ps)
  | [], slots => by simp [noteCopies, copiedSlot]
  | x :: ps, slots => by
    unfold noteCopies copiedSlot
    rw [List.foldl_cons, ← noteCopies, getElem?_noteCopies hk ps,
      getElem?_setIfInBounds_toNat slots _ _ hk, Option.map_map]
    rfl

theorem copiedSlot_of_not_mem {t : UInt8} {ps : List (Slot × UInt8 × Nat)}
    (h : ∀ y ∈ ps, y.2.1 ≠ t) (current : Option Slot) : copiedSlot t current ps = current := by
  induction ps generalizing current with
  | nil => rfl
  | cons y ps ih =>
    unfold copiedSlot
    rw [List.foldl_cons, if_neg (h y List.mem_cons_self), ← copiedSlot]
    exact ih (fun z hz => h z (List.mem_cons_of_mem _ hz)) current

theorem copiedSlot_of_mem {t : UInt8} {s : Slot} {o : Nat} :
    ∀ {ps : List (Slot × UInt8 × Nat)}, ps.Pairwise (fun x y => x.2.1 ≠ y.2.1) →
      (s, t, o) ∈ ps → ∀ current, copiedSlot t current ps = some ⟨o, s.length⟩
  | [], _, h, _ => nomatch h
  | x :: ps, hps, h, current => by
    unfold copiedSlot
    rw [List.foldl_cons, ← copiedSlot]
    obtain ⟨hx, hps⟩ := List.pairwise_cons.mp hps
    rcases List.mem_cons.mp h with rfl | h
    · -- the last copy of the type is this one: none after it has the type
      rw [if_pos rfl]
      exact copiedSlot_of_not_mem (fun y hy => (hx y hy).symm) _
    · exact copiedSlot_of_mem hps h _

theorem slot_noteCopies (count : Nat) (ps : List (Slot × UInt8 × Nat)) (t : UInt8) :
    ((noteCopies (Array.replicate count none) ps)[t.toNat]?).join =
      if t.toNat < count then copiedSlot t none ps else none := by
  rw [getElem?_noteCopies (UInt8.toNat_lt t), Nat.toUInt8_eq, UInt8.ofNat_toNat,
    Array.getElem?_replicate]
  split <;> rfl

theorem size_noteCopies (slots : Array (Option Slot)) (ps : List (Slot × UInt8 × Nat)) :
    (noteCopies slots ps).size = slots.size := by
  induction ps generalizing slots with
  | nil => rfl
  | cons x ps ih =>
    unfold noteCopies
    rw [List.foldl_cons, ← noteCopies, ih, Array.size_setIfInBounds]

theorem slot_setIfInBounds (slots : Array (Option Slot)) (t t' : UInt8) (v : Option Slot) :
    ((slots.setIfInBounds t'.toNat v)[t.toNat]?).join =
      if t' = t then (if t.toNat < slots.size then v else none) else (slots[t.toNat]?).join := by
  rw [getElem?_setIfInBounds_toNat slots t' v (UInt8.toNat_lt t), Nat.toUInt8_eq,
    UInt8.ofNat_toNat]
  by_cases ht : t' = t
  · simp only [ht, ↓reduceIte]
    by_cases hlt : t.toNat < slots.size
    · rw [if_pos hlt, Array.getElem?_eq_getElem hlt]
      rfl
    · rw [if_neg hlt, Array.getElem?_eq_none (Nat.le_of_not_lt hlt)]
      rfl
  · simp [ht]

/-- The slots a compaction answers: the copies `ps`, then the record `written` at `offset`. -/
def compactedSlots (count : Nat) (ps : List (Slot × UInt8 × Nat)) (written : Option Pending)
    (offset : Nat) : Array (Option Slot) :=
  match written with
  | some p => (noteCopies (Array.replicate count none) ps).setIfInBounds p.type.toNat
      (some ⟨offset, p.data.size⟩)
  | none => noteCopies (Array.replicate count none) ps

section CompactedSlots

variable {count : Nat} {ps : List (Slot × UInt8 × Nat)} {offset : Nat}

theorem slot_compactedSlots_of_ne {written : Option Pending} {t : UInt8}
    (hw : ∀ p ∈ written, p.type ≠ t) :
    ((compactedSlots count ps written offset)[t.toNat]?).join =
      if t.toNat < count then copiedSlot t none ps else none := by
  cases written with
  | none => exact slot_noteCopies count ps t
  | some p => rw [compactedSlots, slot_setIfInBounds, if_neg (hw p rfl), slot_noteCopies]

theorem slot_compactedSlots_written {p : Pending} (hlt : p.type.toNat < count) :
    ((compactedSlots count ps (some p) offset)[p.type.toNat]?).join =
      some ⟨offset, p.data.size⟩ := by
  rw [compactedSlots, slot_setIfInBounds, if_pos rfl, size_noteCopies, Array.size_replicate,
    if_pos hlt]

end CompactedSlots

/-! ### The records a compaction copies -/

theorem pairwise_type_filterMap_zipIdx :
    ∀ (slots : List (Option Slot)) (n : Nat), n + slots.length ≤ 256 →
      ((slots.zipIdx n).filterMap fun (slot, type) => slot.map (·, type.toUInt8)).Pairwise
          (fun x y => x.2 ≠ y.2) ∧
        ∀ x ∈ (slots.zipIdx n).filterMap (fun (slot, type) => slot.map (·, type.toUInt8)),
          n ≤ x.2.toNat
  | [], _, _ => by simp
  | slot :: slots, n, h => by
    simp only [List.length_cons] at h
    obtain ⟨hrest, hbound⟩ := pairwise_type_filterMap_zipIdx slots (n + 1) (by omega)
    rw [List.zipIdx_cons, List.filterMap_cons]
    cases slot with
    | none => exact ⟨hrest, fun x hx => Nat.le_of_succ_le (hbound x hx)⟩
    | some s =>
      -- the type of this slot is its index, below those of the slots after it
      have hn : n.toUInt8.toNat = n := toUInt8_toNat_of_lt (by omega)
      refine ⟨List.pairwise_cons.mpr ⟨fun y hy heq => ?_, hrest⟩, fun x hx => ?_⟩
      · have := hbound y hy
        rw [← heq] at this
        dsimp only at this
        omega
      · rcases List.mem_cons.mp hx with rfl | hx
        · exact Nat.le_of_eq hn.symm
        · exact Nat.le_of_succ_le (hbound x hx)

theorem liveRecords_pairwise_type {i : Index} (hsize : i.slots.size ≤ 256) :
    i.liveRecords.Pairwise (fun x y => x.2 ≠ y.2) := by
  unfold liveRecords
  rw [(List.mergeSort_perm _ _).pairwise_iff (fun h => Ne.symm h)]
  exact (pairwise_type_filterMap_zipIdx i.slots.toList 0 (by simpa using hsize)).1

variable {count : Nat} {cells : ByteArray} {i : Index}

variable [Crc]

theorem Scanned.liveRecords_pairwise_offset (hl : l.Valid) (h : l.Inside cells.size)
    (hcount : count ≤ 256) (hi : Scanned l count cells i) :
    i.liveRecords.Pairwise (fun x y => x.1.offset < y.1.offset) := by
  have hsize : i.slots.size ≤ 256 := by rw [hi.slots, size_slotsOf]; exact hcount
  have hS : l.masterSize ≤ (l.bytes cells i.area).size := by
    rw [Layout.size_bytes h]; exact hl.masterSize_le_areaSize
  obtain ⟨-, hdec, -, -⟩ := chain_spec l.geometry (l.bytes cells i.area) l.masterSize hS
  -- the record of the log that a copied slot names
  have hentry : ∀ x ∈ i.liveRecords, ∃ e ∈ (l.logOf cells i.area).entries,
      e.offset = x.1.offset ∧ e.record = .live x.2 x.1.length := by
    intro x hx
    have hslot := (mem_liveRecords hsize).mp hx
    rw [slot?_of_slots hcount hi.slots] at hslot
    split at hslot
    · exact slotFor_eq_some hslot
    · cases hslot
  have hsorted : i.liveRecords.Pairwise (fun x y => x.1.offset ≤ y.1.offset) := by
    unfold liveRecords
    exact (@List.pairwise_mergeSort _ (fun a b : Slot × UInt8 => decide (a.1.offset ≤ b.1.offset))
      (fun a b c hab hbc => by simp only [decide_eq_true_eq] at hab hbc ⊢; omega)
      (fun a b => by simp only [Bool.or_eq_true, decide_eq_true_eq]; omega) _).imp
      fun h => by simpa using h
  refine (hsorted.and (liveRecords_pairwise_type hsize)).imp_of_mem fun hx hy hxy => ?_
  obtain ⟨hle, hne⟩ := hxy
  refine Nat.lt_of_le_of_ne hle fun heq => hne ?_
  -- two slots at one offset name one record of the log, of one type
  obtain ⟨e, he, hoff, hrec⟩ := hentry _ hx
  obtain ⟨e', he', hoff', hrec'⟩ := hentry _ hy
  have hsame : e = e' := by
    have hd := (hdec e he).1
    rw [hoff, heq, ← hoff', (hdec e' he').1] at hd
    exact (Option.some.inj (Except.ok.inj hd)).symm
  rw [hsame, hrec'] at hrec
  exact (Record.live.inj hrec).1.symm

end Index

/-- The writes copying the records `ps` of the area bytes `S` into area `a`, piece by piece. -/
def Layout.copyWrites (l : Layout) (S : ByteArray) (a : Area) (ps : List (Slot × UInt8 × Nat)) :
    List Access :=
  ps.flatMap fun x => l.pieceWrites a x.2.2 (S.extract x.1.offset (x.1.offset + l.recordSize x.1.length))

namespace Recorder

open Index

variable {l : Layout}

@[simp] theorem copyWrites_nil (S : ByteArray) (a : Area) : l.copyWrites S a [] = [] := rfl

@[simp] theorem copyWrites_cons (S : ByteArray) (a : Area) (x : Slot × UInt8 × Nat)
    (ps : List (Slot × UInt8 × Nat)) :
    l.copyWrites S a (x :: ps) =
      l.pieceWrites a x.2.2 (S.extract x.1.offset (x.1.offset + l.recordSize x.1.length)) ++
        l.copyWrites S a ps := rfl

variable [Crc]

theorem issues_copyLive {source : Area} {S : ByteArray} {es : List Entry}
    (hdec : ∀ e ∈ es, decode l.geometry S e.offset = .ok (some e)) :
    ∀ (live done : List (Slot × UInt8)) (copied : List Entry) (slots : Array (Option Slot))
      (offset : Nat) (r : Recorder),
      Filling l r.chip.cells source S es done copied offset → r.chip.failFrom = none →
      (∀ p ∈ live, slotFor p.2 es = some p.1) → offset + copiesSize l live ≤ l.areaSize →
      (∃ r' copied', (copyLive l source source.other live slots offset).run.run r =
          (.ok (noteCopies slots (placeCopies l live offset), offset + copiesSize l live), r') ∧
        r'.chip.failFrom = none ∧
        Filling l r'.chip.cells source S es (done ++ live) (copied ++ copied')
          (offset + copiesSize l live)) ∧
      Issues (copyLive l source source.other live slots offset) r
        (l.copyWrites S source.other (placeCopies l live offset))
  | [], done, copied, slots, offset, r, hf, hlive, _, _ => by
    have hnil : offset + copiesSize l [] = offset := rfl
    refine ⟨⟨r, [], rfl, hlive, ?_⟩, Issues.pure _ r⟩
    rw [hnil, List.append_nil, List.append_nil]
    exact hf
  | (s, t) :: rest, done, copied, slots, offset, r, hf, hlive, hslots, hfit => by
    have hslot : slotFor t es = some s := hslots (s, t) List.mem_cons_self
    obtain ⟨e, he, hoff, hrec⟩ := slotFor_eq_some hslot
    have hd : decode l.geometry (l.bytes r.chip.cells source) s.offset = .ok (some e) := by
      rw [hf.intact, ← hoff]; exact hdec e he
    have hnext := next_of_live hd hrec
    have hsize : offset + copiesSize l ((s, t) :: rest) =
        offset + l.recordSize s.length + copiesSize l rest := by
      rw [Nat.add_assoc]; rfl
    -- the first record is copied whole, since no fault is due
    obtain ⟨hff, hr⟩ := copy_step hf hdec hslot (by omega)
    obtain ⟨hok, hf₁⟩ | ⟨-, -, -, hdue, -⟩ := hr
    swap
    · exact absurd hlive hdue
    obtain ⟨r₁, hrun₁, hchip₁⟩ := (mirrors_copy l source s.offset source.other offset).run_eq r
    rw [hok] at hrun₁
    rw [← hchip₁] at hf₁ hff
    have hcopy := issues_copy (Area.other_ne source) r hf.inside hlive hd
      (show offset + (e.next - s.offset) ≤ l.areaSize by rw [hnext]; omega)
    rw [hnext, hf.intact] at hcopy
    -- the rest is copied from where it ends
    obtain ⟨⟨r', copied', hrun', hlive', hf'⟩, hrest⟩ := issues_copyLive hdec rest
      (done ++ [(s, t)]) _ (slots.setIfInBounds t.toNat (some ⟨offset, s.length⟩)) _ r₁ hf₁
      (hff.trans hlive) (fun p hp => hslots p (List.mem_cons_of_mem _ hp)) (by omega)
    refine ⟨⟨r', ⟨offset, .live t s.length, offset + l.recordSize s.length⟩ :: copied', ?_,
      hlive', ?_⟩, ?_⟩
    · rw [copyLive, FlashM.run_bind_of_ok hrun₁, hrun', hsize, placeCopies_cons]
      rfl
    · rw [hsize]
      simpa only [List.append_assoc, List.singleton_append, List.cons_append, List.nil_append]
        using hf'
    · rw [copyLive, placeCopies_cons, copyWrites_cons]
      exact Issues.bind hcopy hrun₁ hrest

variable {source : Area} {S : ByteArray}

theorem erase_standby_ok {r : Recorder} (hin : l.Inside r.chip.cells.size)
    (hlive : r.chip.failFrom = none) (source : Area) (es : List Entry) :
    ∃ r', (l.erase source.other).run.run r = (.ok (), r') ∧ r'.chip.failFrom = none ∧
      Filling l r'.chip.cells source (l.bytes r.chip.cells source) es [] [] l.masterSize := by
  obtain ⟨hff, hstep⟩ := erase_step hin source es
  obtain ⟨hok, hf⟩ | ⟨-, hdue, -⟩ := hstep
  swap
  · exact absurd hlive hdue
  obtain ⟨r', hrun, hchip⟩ := (mirrors_erase l source.other).run_eq r
  rw [hok] at hrun
  rw [← hchip] at hf hff
  exact ⟨r', hrun, hff.trans hlive, hf⟩

theorem pending_write_ok {r : Recorder} {copied : List Entry} {offset : Nat}
    (hr : Ready l r.chip.cells source S copied offset) (hlive : r.chip.failFrom = none)
    {p : Pending} (htype : p.type < masterType) (hlen : p.data.size ≤ 0xFFFF)
    (hdel : p.isDeletion = false) (hfit : offset + l.recordSize p.data.size ≤ l.areaSize) :
    ∃ r', (write l source.other offset p.type p.flags p.data).run.run r =
        (.ok (offset + l.recordSize p.data.size), r') ∧ r'.chip.failFrom = none ∧
      Ready l r'.chip.cells source S
        (copied ++ [⟨offset, .live p.type p.data.size, offset + l.recordSize p.data.size⟩])
        (offset + l.recordSize p.data.size) := by
  obtain ⟨hff, hstep⟩ := pending_step hr htype hlen hdel hfit
  obtain ⟨hok, hready, -⟩ | ⟨-, hdue, -⟩ := hstep
  swap
  · exact absurd hlive hdue
  obtain ⟨r', hrun, hchip⟩ :=
    (mirrors_write_record l source.other offset p.type p.flags p.data).run_eq r
  rw [hok] at hrun
  rw [← hchip] at hready hff
  exact ⟨r', hrun, hff.trans hlive, hready⟩

theorem master_write_ok (hl : l.Valid) {r : Recorder} {copied : List Entry} {offset : Nat}
    (hr : Ready l r.chip.cells source S copied offset) (hlive : r.chip.failFrom = none)
    (version : UInt16) :
    ∃ r', (writeMaster l source.other version).run.run r = (.ok l.masterSize, r') ∧
      l.bytes r'.chip.cells source = S := by
  obtain ⟨-, hstep⟩ := master_step hl hr version
  obtain ⟨hok, -, -, hsrc, -⟩ | ⟨-, hdue, -⟩ := hstep
  swap
  · exact absurd hlive hdue
  obtain ⟨r', hrun, hchip⟩ := (mirrors_writeMaster l source.other version).run_eq r
  rw [hok] at hrun
  rw [← hchip] at hsrc
  exact ⟨r', hrun, hsrc⟩

theorem compact_issues_of_fits (hl : l.Valid) {count : Nat} (hcount : count ≤ masterType.toNat)
    {i : Index} {r : Recorder} (hin : l.Inside r.chip.cells.size) (hlive : r.chip.failFrom = none)
    (hi : Scanned l count r.chip.cells i) {pending : Option Pending}
    (hp : ∀ p ∈ pending, p.type.toNat < count ∧ p.data.size ≤ 0xFFFF)
    (hfits : compactedSize l (i.liveRecords.filter fun p => pending.all (·.type != p.2))
      (pending.filter (!·.isDeletion)) ≤ l.areaSize) :
    ∃ r', (compact l i pending).run.run r =
        (.ok ⟨i.area.other, i.version + 1,
          compactedSize l (i.liveRecords.filter fun p => pending.all (·.type != p.2))
            (pending.filter (!·.isDeletion)),
          compactedSlots count
            (placeCopies l (i.liveRecords.filter fun p => pending.all (·.type != p.2))
              l.masterSize)
            (pending.filter (!·.isDeletion))
            (l.masterSize + copiesSize l
              (i.liveRecords.filter fun p => pending.all (·.type != p.2)))⟩, r') ∧
      l.bytes r'.chip.cells i.area = l.bytes r.chip.cells i.area ∧
      Issues (compact l i pending) r
        (.erase (l.info i.area.other).address ((l.info i.area.other).address + l.areaSize) ::
          (l.copyWrites (l.bytes r.chip.cells i.area) i.area.other
              (placeCopies l (i.liveRecords.filter fun p => pending.all (·.type != p.2))
                l.masterSize) ++
            ((pending.filter (!·.isDeletion)).map fun p =>
              l.pieceWrites i.area.other (l.masterSize + copiesSize l
                (i.liveRecords.filter fun p => pending.all (·.type != p.2)))
                (image l.geometry p.type p.flags p.data)).getD [] ++
            l.pieceWrites i.area.other 0
              (image l.geometry masterType 0 (masterPayload (i.version + 1))))) := by
  have hsize : i.slots.size = count := by rw [hi.slots, size_slotsOf]
  have hcount' : count ≤ 256 := Nat.le_trans hcount (by decide)
  have hS := Layout.size_bytes hin i.area
  obtain ⟨-, hdec, -, -⟩ := chain_spec l.geometry (l.bytes r.chip.cells i.area) l.masterSize
    (by rw [hS]; exact hl.masterSize_le_areaSize)
  have hdec' : ∀ e ∈ (l.logOf r.chip.cells i.area).entries,
      decode l.geometry (l.bytes r.chip.cells i.area) e.offset = .ok (some e) :=
    fun e he => (hdec e he).1
  have hsizes : compactedSize l (i.liveRecords.filter fun p => pending.all (·.type != p.2))
      (pending.filter (!·.isDeletion)) = l.masterSize +
        copiesSize l (i.liveRecords.filter fun p => pending.all (·.type != p.2)) +
        ((pending.filter (!·.isDeletion)).map fun p => l.recordSize p.data.size).getD 0 := rfl
  -- the erase of the standby area
  obtain ⟨r₁, hrun₁, hlive₁, hf₁⟩ :=
    erase_standby_ok hin hlive i.area (l.logOf r.chip.cells i.area).entries
  -- the copies, after the master record
  obtain ⟨⟨r₂, copied, hrun₂, hlive₂, hf₂⟩, hcopies⟩ := issues_copyLive hdec'
    (i.liveRecords.filter fun p => pending.all (·.type != p.2)) [] [] 
    (Array.replicate i.slots.size none) l.masterSize r₁ hf₁ hlive₁
    (fun p hp => slotFor_of_mem_copied hcount' hi.slots hp) (by omega)
  rw [hsize] at hrun₂ hcopies
  rw [List.nil_append, List.nil_append] at hf₂
  unfold compact
  dsimp only
  rw [if_neg (Nat.not_lt.mpr hfits), hsize]
  rcases hw : pending.filter (!·.isDeletion) with _ | p
  all_goals rw [hw]
  · -- nothing to write but the master record, after the copies
    obtain ⟨r₄, hrun₄, hsrc₄⟩ := master_write_ok hl hf₂.toReady hlive₂ (i.version + 1)
    have hmaster := issues_writeMaster hl i.area.other (i.version + 1) r₂ hf₂.inside hlive₂
    refine ⟨r₄, ?_, hsrc₄, ?_⟩
    · rw [FlashM.run_bind_of_ok hrun₁, FlashM.run_bind_of_ok hrun₂]
      dsimp only
      rw [FlashM.run_bind_of_ok (FlashM.run_pure _ _), FlashM.run_bind_of_ok hrun₄]
      rfl
    · apply Issues.of_eq
      · exact Issues.bind (issues_erase i.area.other r) hrun₁ (Issues.bind hcopies hrun₂
          (Issues.bind (Issues.pure _ r₂) (FlashM.run_pure _ _)
            (Issues.bind hmaster hrun₄ (Issues.pure _ r₄))))
      · simp only [List.singleton_append, List.nil_append, List.append_nil, Option.map_none,
          Option.getD_none]
  · -- the pending record where the copies end, then the master record
    obtain ⟨hpend, hnd⟩ := Option.filter_eq_some_iff.mp hw
    have hdel : p.isDeletion = false := by simpa using hnd
    obtain ⟨htype, hlen⟩ := hp p (Option.mem_def.mpr hpend)
    have htype' : p.type < masterType := UInt8.lt_iff_toNat_lt.mpr (by omega)
    have hfit₃ : l.masterSize + copiesSize l
        (i.liveRecords.filter fun p => pending.all (·.type != p.2)) +
        l.recordSize p.data.size ≤ l.areaSize := by
      rw [hsizes, hw] at hfits
      exact hfits
    obtain ⟨r₃, hrun₃, hlive₃, hready₃⟩ :=
      pending_write_ok hf₂.toReady hlive₂ htype' hlen hdel hfit₃
    have hwrite := issues_write_record i.area.other p.flags htype' hlen r₂ hf₂.inside hlive₂ hfit₃
    obtain ⟨r₄, hrun₄, hsrc₄⟩ := master_write_ok hl hready₃ hlive₃ (i.version + 1)
    have hmaster := issues_writeMaster hl i.area.other (i.version + 1) r₃ hready₃.inside hlive₃
    refine ⟨r₄, ?_, hsrc₄, ?_⟩
    · rw [FlashM.run_bind_of_ok hrun₁, FlashM.run_bind_of_ok hrun₂]
      dsimp only
      rw [FlashM.run_bind_of_ok hrun₃, FlashM.run_bind_of_ok (FlashM.run_pure _ _),
        FlashM.run_bind_of_ok hrun₄]
      rfl
    · apply Issues.of_eq
      · exact Issues.bind (issues_erase i.area.other r) hrun₁ (Issues.bind hcopies hrun₂
          (Issues.bind hwrite hrun₃ (Issues.bind (Issues.pure _ r₃) (FlashM.run_pure _ _)
            (Issues.bind hmaster hrun₄ (Issues.pure _ r₄)))))
      · simp only [List.singleton_append, List.nil_append, List.append_nil, Option.map_some,
          Option.getD_some, List.append_assoc]

end Recorder

section Postcondition

open Index Recorder

variable {l : Layout}

variable [Crc]

/-- A compaction erases the standby area, copies the live records, then writes pending and master. -/
theorem compaction_postcondition (hl : l.Valid) {count : Nat} (hcount : count ≤ masterType.toNat)
    {i : Index} {r : Recorder} (hin : l.Inside r.chip.cells.size) (hlive : r.chip.failFrom = none)
    (hi : Scanned l count r.chip.cells i) (pending : Option Pending)
    (hp : ∀ p ∈ pending, p.type.toNat < count ∧ p.data.size ≤ 0xFFFF) :
    ∃ live : List (Slot × UInt8),
      (∀ s t, (s, t) ∈ live ↔ i.slot? t = some s ∧ pending.all (·.type != t)) ∧
      live.Pairwise (fun x y => x.1.offset < y.1.offset) ∧
      (l.areaSize < compactedSize l live (pending.filter (!·.isDeletion)) →
        (compact l i pending).run.run r = (.error .flashAreaTooSmall, r)) ∧
      (compactedSize l live (pending.filter (!·.isDeletion)) ≤ l.areaSize →
        ∃ i' r', (compact l i pending).run.run r = (.ok i', r') ∧
          Issues (compact l i pending) r
            (.erase (l.info i.area.other).address ((l.info i.area.other).address + l.areaSize) ::
              (l.copyWrites (l.bytes r.chip.cells i.area) i.area.other
                  (placeCopies l live l.masterSize) ++
                ((pending.filter (!·.isDeletion)).map fun p =>
                  l.pieceWrites i.area.other (l.masterSize + copiesSize l live)
                    (image l.geometry p.type p.flags p.data)).getD [] ++
                l.pieceWrites i.area.other 0
                  (image l.geometry masterType 0 (masterPayload (i.version + 1))))) ∧
          i'.area = i.area.other ∧ i'.version = i.version + 1 ∧
          i'.free = compactedSize l live (pending.filter (!·.isDeletion)) ∧
          (∀ s t o, (s, t, o) ∈ placeCopies l live l.masterSize →
            i'.slot? t = some ⟨o, s.length⟩) ∧
          (∀ p ∈ pending, i'.slot? p.type =
            if p.isDeletion then none else some ⟨l.masterSize + copiesSize l live, p.data.size⟩) ∧
          (∀ t, i.slot? t = none → pending.all (·.type != t) → i'.slot? t = none) ∧
          l.bytes r'.chip.cells i.area = l.bytes r.chip.cells i.area) := by
  have hcount' : count ≤ 256 := Nat.le_trans hcount (by decide)
  have hsize : i.slots.size = count := by rw [hi.slots, size_slotsOf]
  have hmem : ∀ s t, (s, t) ∈ i.liveRecords.filter (fun p => pending.all (·.type != p.2)) ↔
      i.slot? t = some s ∧ pending.all (·.type != t) := by
    intro s t
    rw [List.mem_filter, mem_liveRecords (by omega)]
  refine ⟨_, hmem, (hi.liveRecords_pairwise_offset hl hin hcount').filter _, fun hbig => ?_,
    fun hfits => ?_⟩
  · unfold compact
    dsimp only
    rw [if_pos hbig]
    rfl
  -- the copies name each type once, each a type below `count` that holds a value
  have hps : (placeCopies l (i.liveRecords.filter fun p => pending.all (·.type != p.2))
      l.masterSize).Pairwise (fun x y => x.2.1 ≠ y.2.1) :=
    placeCopies_pairwise_type ((liveRecords_pairwise_type (by omega)).filter _) _
  have hlt : ∀ {s t}, i.slot? t = some s → t.toNat < count := by
    intro s t h
    rw [slot?_of_slots hcount' hi.slots] at h
    split at h
    · assumption
    · cases h
  have hcopied : ∀ y ∈ placeCopies l (i.liveRecords.filter fun p => pending.all (·.type != p.2))
      l.masterSize, ∃ s, i.slot? y.2.1 = some s ∧ pending.all (·.type != y.2.1) := by
    intro y hy
    exact ⟨y.1, (hmem y.1 y.2.1).mp (mem_placeCopies hy)⟩
  -- a type that `pending` does not name is not the written record's
  have hother : ∀ t, pending.all (·.type != t) →
      ∀ p ∈ pending.filter (!·.isDeletion), p.type ≠ t := by
    intro t hall p hw
    rw [(Option.filter_eq_some_iff.mp hw).1] at hall
    simpa using hall
  obtain ⟨r', hrun, hsrc, hissues⟩ := compact_issues_of_fits hl hcount hin hlive hi hp hfits
  refine ⟨_, r', hrun, hissues, rfl, rfl, rfl, ?_, ?_, ?_, hsrc⟩
  · -- a copied type points at its copy
    intro s t o hx
    obtain ⟨hslot, hall⟩ := (hmem s t).mp (mem_placeCopies hx)
    unfold Index.slot?
    dsimp only
    rw [slot_compactedSlots_of_ne (hother t hall), if_pos (hlt hslot),
      copiedSlot_of_mem hps hx none]
  · -- the pending type points at its record, or at nothing for a deletion
    intro p hpend
    have hptlt := (hp p hpend).1
    unfold Index.slot?
    dsimp only
    by_cases hdel : p.isDeletion
    · have hw : pending.filter (!·.isDeletion) = none := by
        rw [Option.mem_def.mp hpend]
        simp [hdel]
      rw [hw, if_pos hdel, slot_compactedSlots_of_ne (fun _ h => (Option.not_mem_none _ h).elim), if_pos hptlt]
      refine copiedSlot_of_not_mem (fun y hy heq => ?_) none
      obtain ⟨s, -, hall⟩ := hcopied y hy
      rw [Option.mem_def.mp hpend, heq] at hall
      simp at hall
    · have hw : pending.filter (!·.isDeletion) = some p := by
        rw [Option.mem_def.mp hpend]
        simp [hdel]
      rw [hw, if_neg hdel, slot_compactedSlots_written hptlt]
  · -- every other type points at nothing
    intro t hslot hall
    have ht : ∀ y ∈ placeCopies l (i.liveRecords.filter fun p => pending.all (·.type != p.2))
        l.masterSize, y.2.1 ≠ t := by
      intro y hy heq
      obtain ⟨s, hs, -⟩ := hcopied y hy
      rw [heq, hslot] at hs
      cases hs
    unfold Index.slot?
    dsimp only
    rw [slot_compactedSlots_of_ne (hother t hall)]
    split
    · exact copiedSlot_of_not_mem ht none
    · rfl

end Postcondition
end NorStore

namespace NorStore

open Record Log Generation

section Postcondition

open Index Recorder

/-- Compacting a store holding a value of type 0 while writing one of type 1. -/
theorem stored_value_compaction_copies_then_writes_pending :
    let l : Layout := ⟨⟨4, 4, 64⟩, 0, 64⟩
    let r : Recorder := ⟨((Call.set 0 ⟨#[0xBB]⟩).run.run
      (Call.reset.run.run ({ layout := l }, Chip.erased 128)).2).2.2, []⟩
    let i : Index := ⟨.first, 0, 24, #[some ⟨12, 1⟩] ++ Array.replicate 15 none⟩
    let pending : Pending := ⟨1, 0, ⟨#[0xAA]⟩⟩
    Scanned l 16 r.chip.cells i ∧ r.chip.failFrom = none ∧
      ∃ i' r', (compact l i (some pending)).run.run r = (.ok i', r') ∧
        i'.area = .second ∧ i'.version = 1 ∧
        i'.slot? 0 = some ⟨12, 1⟩ ∧ i'.slot? 1 = some ⟨24, 1⟩ ∧
        Issues (compact l i (some pending)) r
          (.erase 64 128 :: (l.copyWrites (l.bytes r.chip.cells .first) .second [(⟨12, 1⟩, 0, 12)] ++
            l.pieceWrites .second 24 (image l.geometry 1 0 ⟨#[0xAA]⟩) ++
            l.pieceWrites .second 0 (image l.geometry masterType 0 (masterPayload 1)))) := by
  intro l r i pending
  have hl : l.Valid :=
    Layout.valid_of_create (show Layout.create ⟨4, 4, 64⟩ 0 128 = .ok l from rfl)
  -- the chip is computed once, for all four facts about it
  obtain ⟨hactive, hslotsOf, hlive, hin⟩ : activeOf l r.chip.cells = some (i.area, i.version) ∧
      i.slots = slotsOf 16 (l.logOf r.chip.cells i.area).entries ∧ r.chip.failFrom = none ∧
      l.Inside r.chip.cells.size := by
    decide +kernel
  have hi : Scanned l 16 r.chip.cells i := ⟨hactive, hslotsOf⟩
  have hp : ∀ p ∈ some pending, p.type.toNat < 16 ∧ p.data.size ≤ 0xFFFF := by
    rintro p ⟨⟩
    exact ⟨by decide, by decide⟩
  obtain ⟨live, hmem, hsorted, -, hfits⟩ :=
    compaction_postcondition hl (by decide) hin hlive hi (some pending) hp
  -- type 0 holds the only value, and the pending write leaves it alone
  have hslots : ∀ n < 256, (i.slots[n]?).join = if n = 0 then some ⟨12, 1⟩ else none := by
    decide +kernel
  have hall : ∀ x ∈ live, x = (⟨12, 1⟩, 0) := by
    rintro ⟨s, t⟩ hx
    have hs : (i.slots[t.toNat]?).join = some s := ((hmem s t).mp hx).1
    rw [hslots _ (UInt8.toNat_lt t)] at hs
    split at hs
    · cases hs
      rw [show t = 0 from UInt8.toNat_inj.mp ‹t.toNat = 0›]
    · cases hs
  have hx : ((⟨12, 1⟩, 0) : Slot × UInt8) ∈ live := (hmem _ _).mpr ⟨hslots 0 (by decide), rfl⟩
  -- a record is copied once: the copies lie at increasing offsets
  have hone : live = [(⟨12, 1⟩, 0)] := by
    have hrep : live = List.replicate live.length (⟨12, 1⟩, 0) := List.eq_replicate_iff.mpr ⟨rfl, hall⟩
    have hle : live.length ≤ 1 := by
      have h := hsorted
      rw [hrep, List.pairwise_replicate] at h
      simpa using h
    have hpos : 0 < live.length := List.length_pos_of_mem hx
    rw [hrep, show live.length = 1 by omega]
    rfl
  subst hone
  obtain ⟨i', r', hrun, hissues, harea, hversion, -, hcopies, hpending, -, -⟩ := hfits (by decide)
  refine ⟨hi, hlive, i', r', hrun, harea, hversion,
    (hcopies _ _ _ (List.mem_singleton_self _)).trans (by simp only [l]; rfl), ?_,
    hissues.of_eq (by simp only [l, i, pending]; rfl)⟩
  rw [hpending _ rfl]
  simp only [l, pending]
  rfl

end Postcondition

end NorStore
