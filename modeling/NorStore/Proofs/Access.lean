import NorStore.Layout
import NorStore.Proofs.Cells

/-! # Area accesses on a chip

A run of `FlashM` on a `Chip` is a pair of the answer and the chip afterwards. This module
unfolds the three accesses of a layout (`Layout.read`, `Layout.write`, `Layout.erase`) on a
chip that holds the partition: an access inside its area is performed when the chip is live
(no fault is due) and refused otherwise, and a refused access leaves the chip as it was. On a
chip with no fault set every access is performed; these are the facts every later run lemma of
the store is built from.
-/

namespace NorStore

section Run

variable {δ α β : Type}

namespace FlashM

@[simp] theorem run_pure (a : α) (d : δ) : ((pure a : FlashM δ α).run.run d) = (.ok a, d) := rfl

@[simp] theorem run_throw (e : Error) (d : δ) :
    ((throw e : FlashM δ α).run.run d) = (.error e, d) := rfl

@[simp] theorem run_liftExcept (x : Except Error α) (d : δ) :
    ((liftExcept x : FlashM δ α).run.run d) = (x, d) := by
  cases x <;> rfl

@[simp] theorem run_modifyGet (f : δ → α × δ) (d : δ) :
    ((modifyGet f : FlashM δ α).run.run d) = (.ok (f d).1, (f d).2) := rfl

theorem run_bind (x : FlashM δ α) (g : α → FlashM δ β) (d : δ) :
    ((x >>= g).run.run d) = match x.run.run d with
      | (.ok a, d') => (g a).run.run d'
      | (.error e, d') => (.error e, d') := by
  simp only [ExceptT.run_bind, StateT.run_bind]
  rcases x.run.run d with ⟨_ | _, d'⟩ <;> rfl

theorem run_bind_of_ok {x : FlashM δ α} {d d' : δ} {a : α} (h : x.run.run d = (.ok a, d'))
    (g : α → FlashM δ β) : ((x >>= g).run.run d) = (g a).run.run d' := by
  rw [run_bind, h]

theorem run_bind_of_error {x : FlashM δ α} {d d' : δ} {e : Error}
    (h : x.run.run d = (.error e, d')) (g : α → FlashM δ β) :
    ((x >>= g).run.run d) = (.error e, d') := by
  rw [run_bind, h]

theorem run_lift_bind (x : StateM δ α) (g : α → FlashM δ β) (d : δ) :
    ((liftM x >>= g : FlashM δ β).run.run d) = (g (x.run d).1).run.run (x.run d).2 := rfl

end FlashM

theorem StateM.run_bind (x : StateM δ α) (g : α → StateM δ β) (d : δ) :
    (x >>= g).run d = (g (x.run d).1).run (x.run d).2 := rfl

@[simp] theorem StateM.run_pure (a : α) (d : δ) : (pure a : StateM δ α).run d = (a, d) := rfl

end Run

namespace Chip

/-- No fault is due: the chip performs the next access to a range that lies on it. -/
def Live (c : Chip) : Prop := c.failFrom.all (c.accesses < ·) = true

instance (c : Chip) : Decidable c.Live := by
  unfold Live; infer_instance

theorem accepts_iff {c : Chip} {start stop : Nat} :
    c.Accepts start stop ↔ c.Live ∧ start ≤ stop ∧ stop ≤ c.cells.size := Iff.rfl

theorem live_of_failFrom_eq_none {c : Chip} (h : c.failFrom = none) : c.Live := by
  simp [Live, h]

theorem failFrom_ne_none_of_not_live {c : Chip} (h : ¬ c.Live) : c.failFrom ≠ none :=
  fun h' => h (live_of_failFrom_eq_none h')

/-- The chip `c'` is `c` after reads only: the same cells and the same fault setting. -/
structure Keeps (c c' : Chip) : Prop where
  cells : c'.cells = c.cells
  failFrom : c'.failFrom = c.failFrom
  writes : c'.writes = c.writes
  erases : c'.erases = c.erases

theorem Keeps.refl (c : Chip) : Keeps c c := ⟨rfl, rfl, rfl, rfl⟩

theorem Keeps.trans {c c' c'' : Chip} (h : Keeps c c') (h' : Keeps c' c'') : Keeps c c'' :=
  ⟨h'.cells.trans h.cells, h'.failFrom.trans h.failFrom, h'.writes.trans h.writes,
    h'.erases.trans h.erases⟩

theorem keeps_read (c : Chip) : Keeps c { c with reads := c.reads + 1 } := ⟨rfl, rfl, rfl, rfl⟩

end Chip

namespace Layout

variable {l : Layout} {c : Chip}

theorem read_run (h : l.Inside c.cells.size) (a : Area) {offset length : Nat}
    (hr : offset + length ≤ l.areaSize) :
    (l.read a offset length : FlashM Chip ByteArray).run.run c =
      if c.Live then
        (.ok ((l.bytes c.cells a).extract offset (offset + length)), { c with reads := c.reads + 1 })
      else (.error .readError, c) := by
  have hin := info_address_add_le h a
  have hacc : c.Accepts ((l.info a).address + offset) ((l.info a).address + offset + length) ↔
      c.Live := by
    rw [Chip.accepts_iff]
    exact ⟨fun h' => h'.1, fun hl => ⟨hl, by omega, by omega⟩⟩
  simp only [read, address, show ¬ offset + length > l.areaSize by omega, if_false,
    FlashM.run_bind, FlashM.run_liftExcept, FlashM.run_modifyGet]
  by_cases hl : c.Live
  · have hc : c.Accepts ((l.info a).address + offset) ((l.info a).address + offset + length) :=
      hacc.mpr hl
    simp only [NorFlash.read, Chip.read, hc, if_true, hl]
    rw [extract_bytes a hr]
    rfl
  · have hc : ¬ c.Accepts ((l.info a).address + offset) ((l.info a).address + offset + length) :=
      fun h' => hl (hacc.mp h')
    simp only [NorFlash.read, Chip.read, hc, if_false, hl]
    rfl

theorem write_run (h : l.Inside c.cells.size) (a : Area) {offset : Nat} {bytes : ByteArray}
    (hr : offset + bytes.size ≤ l.areaSize) :
    (l.write a offset bytes : FlashM Chip Unit).run.run c =
      if c.Live then
        (.ok (), { c with
          cells := Chip.programCells c.cells ((l.info a).address + offset) bytes
          writes := c.writes + 1 })
      else (.error .writeError, c) := by
  have hin := info_address_add_le h a
  have hacc : c.Accepts ((l.info a).address + offset) ((l.info a).address + offset + bytes.size) ↔
      c.Live := by
    rw [Chip.accepts_iff]
    exact ⟨fun h' => h'.1, fun hl => ⟨hl, by omega, by omega⟩⟩
  simp only [write, address, show ¬ offset + bytes.size > l.areaSize by omega, if_false,
    FlashM.run_bind, FlashM.run_liftExcept, FlashM.run_modifyGet]
  by_cases hl : c.Live
  · have hc := hacc.mpr hl
    simp only [NorFlash.write, Chip.write, hc, if_true, hl]
    rfl
  · have hc : ¬ c.Accepts ((l.info a).address + offset)
        ((l.info a).address + offset + bytes.size) := fun h' => hl (hacc.mp h')
    simp only [NorFlash.write, Chip.write, hc, if_false, hl]
    rfl

theorem erase_run (h : l.Inside c.cells.size) (a : Area) :
    (l.erase a : FlashM Chip Unit).run.run c =
      if c.Live then
        (.ok (), { c with
          cells := Chip.overwriteCells c.cells (l.info a).address
            (ByteArray.mk (Array.replicate l.areaSize 0xFF))
          erases := c.erases + 1 })
      else (.error .writeError, c) := by
  have hin := info_address_add_le h a
  have hacc : c.Accepts (l.info a).address ((l.info a).address + l.areaSize) ↔ c.Live := by
    rw [Chip.accepts_iff]
    exact ⟨fun h' => h'.1, fun hl => ⟨hl, by omega, by omega⟩⟩
  simp only [erase, FlashM.run_bind, FlashM.run_modifyGet]
  by_cases hl : c.Live
  · have hc := hacc.mpr hl
    simp only [NorFlash.erase, Chip.erase, hc, if_true, hl, Nat.add_sub_cancel_left]
    rfl
  · have hc : ¬ c.Accepts (l.info a).address ((l.info a).address + l.areaSize) :=
      fun h' => hl (hacc.mp h')
    simp only [NorFlash.erase, Chip.erase, hc, if_false, hl]
    rfl

end Layout

end NorStore
