import NorStore.Proofs.Operations

/-! # Resetting the store

`reset` erases the first area, then the second, then writes the master record of generation 0
into the first one, and loads the index of that empty area. Each of the three writes may be
refused; `Formatted` lists what each cut leaves on the flash. Only the completed reset leaves a
valid master record in the first area, and only a cut at the second erase leaves the second
area as it was.
-/

namespace NorStore

open Record Generation Index Log

namespace Store

variable {l : Layout} {c : Chip}

variable [Crc]

/-- How formatting the partition for `count` types can end: the answer and the chip. -/
inductive Formatted (l : Layout) (count : Nat) (c : Chip) : Except Error Nat → Chip → Prop
  /-- Both areas were erased and the first holds generation 0 with an empty log. -/
  | done {c' : Chip}
      (hcoherent : Coherent l count c'.cells ⟨.first, 0, l.masterSize, Array.replicate count none⟩)
      (hempty : ∀ t, l.valueIn c'.cells .first t = none) :
      Formatted l count c (.ok l.masterSize) c'
  /-- The erase of the first area was refused: the flash is as it was. -/
  | keptBoth {c' : Chip} (hdue : c.failFrom ≠ none) (hcells : c'.cells = c.cells) :
      Formatted l count c (.error .writeError) c'
  /-- The erase of the second area was refused: the first area is erased, the second as it
  was. -/
  | keptSecond {c' : Chip} (hdue : c.failFrom ≠ none)
      (hfirst : l.bytes c'.cells .first = ByteArray.mk (Array.replicate l.areaSize 0xFF))
      (hsecond : l.bytes c'.cells .second = l.bytes c.cells .second) :
      Formatted l count c (.error .writeError) c'
  /-- The master record was refused: both areas are erased. -/
  | erasedBoth {c' : Chip} (hdue : c.failFrom ≠ none)
      (hfirst : l.bytes c'.cells .first = ByteArray.mk (Array.replicate l.areaSize 0xFF))
      (hsecond : l.bytes c'.cells .second = ByteArray.mk (Array.replicate l.areaSize 0xFF)) :
      Formatted l count c (.error .writeError) c'

theorem format_run (hl : l.Valid) (h : l.Inside c.cells.size) (count : Nat) :
    ((do l.erase .first; l.erase .second; writeMaster l .first 0 : FlashM Chip Nat).run.run
        c).2.failFrom = c.failFrom ∧
      l.Inside ((do l.erase .first; l.erase .second; writeMaster l .first 0 :
        FlashM Chip Nat).run.run c).2.cells.size ∧
      Formatted l count c
        ((do l.erase .first; l.erase .second; writeMaster l .first 0 : FlashM Chip Nat).run.run c).1
        ((do l.erase .first; l.erase .second; writeMaster l .first 0 :
          FlashM Chip Nat).run.run c).2 := by
  have hblank : ∀ n, Blank (ByteArray.mk (Array.replicate l.areaSize 0xFF)) n :=
    fun _ _ hi _ _ => getElem_replicate_erased hi
  have hfitE : ∀ (cells : ByteArray) (a : Area), l.Inside cells.size → (l.info a).address +
      (ByteArray.mk (Array.replicate l.areaSize 0xFF)).size ≤ cells.size := by
    intro cells a hc
    rw [Layout.size_erasedArea]; exact Layout.info_address_add_le hc a
  have hinE : ∀ (cells : ByteArray) (a : Area), l.Inside cells.size →
      l.Inside (Chip.overwriteCells cells (l.info a).address
        (ByteArray.mk (Array.replicate l.areaSize 0xFF))).size := by
    intro cells a hc
    rw [Chip.size_overwriteCells _ _ _ (hfitE cells a hc)]; exact hc
  rw [FlashM.run_bind, Layout.erase_run h .first]
  by_cases hlive : c.Live
  · rw [if_pos hlive]
    dsimp only
    generalize hc₁ : ({ c with
        cells := Chip.overwriteCells c.cells (l.info .first).address
          (ByteArray.mk (Array.replicate l.areaSize 0xFF))
        erases := c.erases + 1 } : Chip) = c₁
    have h₁ : l.Inside c₁.cells.size := by rw [← hc₁]; exact hinE c.cells .first h
    have hfirst₁ : l.bytes c₁.cells .first = ByteArray.mk (Array.replicate l.areaSize 0xFF) := by
      rw [← hc₁]; exact Layout.bytes_erase_self h .first
    rw [FlashM.run_bind, Layout.erase_run h₁ .second]
    by_cases hlive₁ : c₁.Live
    · rw [if_pos hlive₁]
      dsimp only
      -- both areas are erased: the first is ready for its master record
      generalize hc₂ : ({ c₁ with
          cells := Chip.overwriteCells c₁.cells (l.info .second).address
            (ByteArray.mk (Array.replicate l.areaSize 0xFF))
          erases := c₁.erases + 1 } : Chip) = c₂
      have h₂ : l.Inside c₂.cells.size := by rw [← hc₂]; exact hinE _ .second h₁
      have hfirst : l.bytes c₂.cells .first = ByteArray.mk (Array.replicate l.areaSize 0xFF) := by
        rw [← hc₂]
        dsimp only
        rw [Layout.bytes_erase_other h₁ (by decide), hfirst₁]
      have hsecond : l.bytes c₂.cells .second = ByteArray.mk (Array.replicate l.areaSize 0xFF) := by
        rw [← hc₂]; exact Layout.bytes_erase_self h₁ .second
      have hready : Ready l c₂.cells .second (ByteArray.mk (Array.replicate l.areaSize 0xFF)) []
          l.masterSize := by
        refine ⟨⟨h₂, hsecond, ?_⟩, ?_, ?_, Nat.le_refl _⟩
        · change Erased (l.bytes c₂.cells .first) 0 l.masterSize
          rw [hfirst]; exact (hblank 0).erased _
        · change chain l.geometry (l.bytes c₂.cells .first) l.masterSize = _
          rw [hfirst]; exact chain_of_blank (hblank _)
        · change Blank (l.bytes c₂.cells .first) l.masterSize
          rw [hfirst]; exact hblank _
      obtain ⟨hff, hres⟩ := master_step hl hready 0
      simp only [Area.other] at hff hres
      generalize (writeMaster l .first 0).run.run c₂ = q at hff hres ⊢
      obtain ⟨r, c₃⟩ := q
      dsimp only at hff hres ⊢
      have hff₂ : c₂.failFrom = c.failFrom := by rw [← hc₂, ← hc₁]
      rcases hres with ⟨rfl, hin, hmaster, hsrc, hlog, hblank', -⟩ | ⟨rfl, hdue, hcells⟩
      · refine ⟨hff.trans hff₂, hin, .done ⟨⟨?_, ?_⟩, ?_, ?_, hblank'⟩ (fun t => ?_)⟩
        · exact activeOf_of_other_none hmaster
            (masterIn_of_erased (by change Erased (l.bytes c₃.cells .second) 0 l.masterSize
                                    rw [hsrc]; exact (hblank 0).erased _))
        · dsimp only; rw [hlog]; rfl
        · dsimp only; rw [hlog]
        · dsimp only; rw [hlog]
        · unfold Layout.valueIn
          rw [hlog]; rfl
      · refine ⟨hff.trans hff₂, by rw [hcells]; exact h₂, .erasedBoth (hff₂ ▸ hdue) ?_ ?_⟩
        · rw [hcells]; exact hfirst
        · rw [hcells]; exact hsecond
    · rw [if_neg hlive₁]
      have hdue := Chip.failFrom_ne_none_of_not_live hlive₁
      refine ⟨by rw [← hc₁], h₁, .keptSecond (by rw [← hc₁] at hdue; exact hdue) ?_ ?_⟩
      · exact hfirst₁
      · rw [← hc₁]; exact Layout.bytes_erase_other h (by decide)
  · rw [if_neg hlive]
    exact ⟨rfl, h, .keptBoth (Chip.failFrom_ne_none_of_not_live hlive) rfl⟩

theorem reset_run {s : Store} (hm : s.Mounted c) :
    ∃ r c', (reset : StoreM Chip Unit).run.run (s, c) =
        (r.map fun _ => (), ({ s with index? := r.toOption.map fun free =>
          ⟨.first, 0, free, Array.replicate s.numTypes.toNat none⟩ }, c')) ∧
      c'.failFrom = c.failFrom ∧ s.layout.Inside c'.cells.size ∧
      Formatted s.layout s.numTypes.toNat c r c' := by
  unfold reset
  rw [run_forgetOnError, FlashM.run_bind, run_setIndex]
  dsimp only
  rw [FlashM.run_bind, run_current]
  dsimp only
  rw [FlashM.run_bind, run_onFlash]
  obtain ⟨hff, hin, hres⟩ := format_run hm.valid hm.inside s.numTypes.toNat
  generalize (do s.layout.erase .first; s.layout.erase .second; writeMaster s.layout .first 0 :
    FlashM Chip Nat).run.run c = q at hff hin hres ⊢
  obtain ⟨r, c'⟩ := q
  dsimp only at hff hin hres ⊢
  cases r <;> exact ⟨_, _, rfl, hff, hin, hres⟩

end Store

end NorStore
