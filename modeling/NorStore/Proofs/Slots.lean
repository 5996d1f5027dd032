import NorStore.Store
import NorStore.Proofs.Alignment

/-! # The slots a log gives its types

`Index.slotsOf` notes the records of a log one after the other in an array of slots. Read per
type, this is a fold over the log that keeps one slot: a value record of the type sets it and a
deletion clears it (`slotAfter`), so the slot of a type is decided by the last record of that
type that is a value or a deletion (`slotFor`). `getElem?_slotsOf` says the array holds exactly
these slots for the types below its size, `lastValueAt_eq` that the walk `probe` makes finds the
same record, and `slotFor_eq_some_iff` that a slot points at a value record of its type that no
later value or deletion of the type follows.

The second part is about `liveRecords`, the slots the compaction copies: they are the slots of
the index, each type at most once.
-/

namespace NorStore

open Record

namespace Index

/-- The slot of `type` after the record `e`, when it was `current` before. -/
def slotAfter (type : UInt8) (current : Option Slot) (e : Entry) : Option Slot :=
  match e.record with
  | .live t length => if t = type then some ⟨e.offset, length⟩ else current
  | .deleted t => if t = type then none else current
  | .master _ => current

/-- The slot a log gives `type`: the last value record or deletion of `type` decides. -/
def slotFor (type : UInt8) (es : List Entry) : Option Slot :=
  es.foldl (slotAfter type) none

@[simp] theorem slotFor_nil (type : UInt8) : slotFor type [] = none := rfl

theorem slotFor_concat (type : UInt8) (es : List Entry) (e : Entry) :
    slotFor type (es ++ [e]) = slotAfter type (slotFor type es) e := by
  simp [slotFor, List.foldl_append]

theorem slotAfter_of_type_ne {type : UInt8} {current : Option Slot} {e : Entry}
    (h : ∀ length, e.record ≠ .live type length) (h' : e.record ≠ .deleted type) :
    slotAfter type current e = current := by
  unfold slotAfter
  split
  · rename_i t length hr
    rw [if_neg]
    rintro rfl
    exact h length hr
  · rename_i t hr
    rw [if_neg]
    rintro rfl
    exact h' hr
  · rfl

/-- The record `e` decides the slot of `type`: it is a value record or a deletion of `type`. -/
def Decides (type : UInt8) (e : Entry) : Prop :=
  (∃ length, e.record = .live type length) ∨ e.record = .deleted type

theorem exists_split_cons {α : Type} (P : α → List α → Prop) (a : α) (as : List α) :
    (∃ before x after, a :: as = before ++ x :: after ∧ P x after) ↔
      P a as ∨ ∃ before x after, as = before ++ x :: after ∧ P x after := by
  constructor
  · rintro ⟨before, x, after, h, hp⟩
    rcases List.cons_eq_append_iff.mp h with ⟨rfl, h'⟩ | ⟨before', rfl, h'⟩
    · cases h'
      exact .inl hp
    · exact .inr ⟨before', x, after, h', hp⟩
  · rintro (hp | ⟨before, x, after, rfl, hp⟩)
    · exact ⟨[], a, as, rfl, hp⟩
    · exact ⟨a :: before, x, after, rfl, hp⟩

theorem foldl_slotAfter_eq_some_iff {type : UInt8} {s : Slot} :
    ∀ (es : List Entry) (current : Option Slot),
      es.foldl (slotAfter type) current = some s ↔
        (current = some s ∧ ∀ e ∈ es, ¬ Decides type e) ∨
        ∃ before e after, es = before ++ e :: after ∧ e.offset = s.offset ∧
          e.record = .live type s.length ∧ ∀ e' ∈ after, ¬ Decides type e'
  | [], current => by simp
  | e :: es, current => by
    rw [List.foldl_cons, foldl_slotAfter_eq_some_iff es,
      exists_split_cons (fun e after => e.offset = s.offset ∧ e.record = .live type s.length ∧
        ∀ e' ∈ after, ¬ Decides type e')]
    obtain ⟨offset, record, next⟩ := e
    obtain ⟨so, sl⟩ := s
    -- the record either decides the type, and the slot restarts from it, or leaves it
    cases record with
    | master v => simp [slotAfter, Decides]
    | live t length =>
      by_cases ht : t = type
      · subst ht
        simp [slotAfter, Decides, and_assoc]
      · simp [slotAfter, Decides, ht]
    | deleted t =>
      by_cases ht : t = type
      · subst ht
        simp [slotAfter, Decides]
      · simp [slotAfter, Decides, ht]

theorem slotFor_eq_some_iff {type : UInt8} {es : List Entry} {s : Slot} :
    slotFor type es = some s ↔ ∃ before e after, es = before ++ e :: after ∧
      e.offset = s.offset ∧ e.record = .live type s.length ∧ ∀ e' ∈ after, ¬ Decides type e' := by
  rw [slotFor, foldl_slotAfter_eq_some_iff]
  simp

theorem slotFor_eq_some {type : UInt8} {es : List Entry} {s : Slot} (h : slotFor type es = some s) :
    ∃ e ∈ es, e.offset = s.offset ∧ e.record = .live type s.length := by
  obtain ⟨before, e, after, rfl, hoff, hrec, -⟩ := slotFor_eq_some_iff.mp h
  exact ⟨e, by simp, hoff, hrec⟩

/-! ### The array of slots -/

theorem toUInt8_toNat_of_lt {k : Nat} (hk : k < 256) : k.toUInt8.toNat = k := by
  simp only [Nat.toUInt8_eq]
  exact Nat.mod_eq_of_lt hk

theorem eq_toUInt8_iff {t : UInt8} {k : Nat} (hk : k < 256) : t = k.toUInt8 ↔ t.toNat = k := by
  rw [← toUInt8_toNat_of_lt hk, UInt8.toNat_inj, toUInt8_toNat_of_lt hk]

theorem getElem?_setIfInBounds_toNat (slots : Array (Option Slot)) (t : UInt8) (v : Option Slot)
    {k : Nat} (hk : k < 256) :
    (slots.setIfInBounds t.toNat v)[k]? = slots[k]?.map fun cur => if t = k.toUInt8 then v else cur := by
  rw [Array.getElem?_setIfInBounds]
  by_cases ht : t.toNat = k
  · subst ht
    simp only [if_true, Nat.toUInt8_eq, UInt8.ofNat_toNat]
    cases hs : slots[t.toNat]? with
    | none => simp [Array.getElem?_eq_none_iff.mp hs]
    | some cur => simp [(Array.getElem?_eq_some_iff.mp hs).1]
  · have ht' : t ≠ k.toUInt8 := mt (eq_toUInt8_iff hk).mp ht
    simp only [ht, if_false, ht']
    cases slots[k]? <;> rfl

theorem getElem?_note (slots : Array (Option Slot)) (e : Entry) {k : Nat} (hk : k < 256) :
    (note slots e)[k]? = slots[k]?.map (slotAfter k.toUInt8 · e) := by
  obtain ⟨offset, record, next⟩ := e
  cases record with
  | master v =>
    show slots[k]? = _
    cases slots[k]? <;> rfl
  | live t length => exact getElem?_setIfInBounds_toNat slots t _ hk
  | deleted t => exact getElem?_setIfInBounds_toNat slots t _ hk

theorem getElem?_foldl_note {k : Nat} (hk : k < 256) :
    ∀ (es : List Entry) (slots : Array (Option Slot)),
      (es.foldl note slots)[k]? = slots[k]?.map (es.foldl (slotAfter k.toUInt8))
  | [], slots => by simp
  | e :: es, slots => by
    rw [List.foldl_cons, getElem?_foldl_note hk es, getElem?_note slots e hk, Option.map_map]
    rfl

theorem size_foldl_note : ∀ (es : List Entry) (slots : Array (Option Slot)),
    (es.foldl note slots).size = slots.size
  | [], _ => rfl
  | e :: es, slots => by
    rw [List.foldl_cons, size_foldl_note es]
    unfold note
    split <;> simp

@[simp] theorem size_slotsOf (count : Nat) (es : List Entry) : (slotsOf count es).size = count := by
  simp [slotsOf, size_foldl_note]

theorem slotsOf_concat (count : Nat) (es : List Entry) (e : Entry) :
    slotsOf count (es ++ [e]) = note (slotsOf count es) e := by
  simp only [slotsOf, List.foldl_append, List.foldl_cons, List.foldl_nil]

theorem getElem?_slotsOf {count : Nat} (hcount : count ≤ 256) (es : List Entry) (k : Nat) :
    (slotsOf count es)[k]? = if k < count then some (slotFor k.toUInt8 es) else none := by
  by_cases hk : k < count
  · rw [slotsOf, getElem?_foldl_note (by omega), Array.getElem?_replicate, if_pos hk, if_pos hk]
    rfl
  · rw [if_neg hk]
    exact Array.getElem?_eq_none_iff.mpr (by simp; omega)

theorem slot?_of_slots {i : Index} {count : Nat} {es : List Entry} (hcount : count ≤ 256)
    (h : i.slots = slotsOf count es) (type : UInt8) :
    i.slot? type = if type.toNat < count then slotFor type es else none := by
  unfold slot?
  rw [h, getElem?_slotsOf hcount]
  split
  · simp
  · rfl

theorem lastValueAt_eq (type : UInt8) (es : List Entry) :
    Store.lastValueAt type es = (slotFor type es).map (·.offset) := by
  suffices h : ∀ (es : List Entry) (current : Option Slot),
      es.foldl (fun current e =>
        match e.record with
        | .live t _ => if t = type then some e.offset else current
        | .deleted t => if t = type then none else current
        | .master _ => current) (current.map (·.offset)) =
        (es.foldl (slotAfter type) current).map (·.offset) from h es none
  intro es
  induction es with
  | nil => intro current; rfl
  | cons e es ih =>
    intro current
    rw [List.foldl_cons, List.foldl_cons, ← ih]
    congr 1
    obtain ⟨offset, record, next⟩ := e
    cases record with
    | master v => rfl
    | live t length => by_cases ht : t = type <;> simp [slotAfter, ht]
    | deleted t => by_cases ht : t = type <;> simp [slotAfter, ht]

/-! ### The records a compaction copies -/

theorem mem_liveRecords {i : Index} (hsize : i.slots.size ≤ 256) {s : Slot} {t : UInt8} :
    (s, t) ∈ i.liveRecords ↔ i.slot? t = some s := by
  unfold liveRecords slot?
  rw [List.mem_mergeSort, List.mem_filterMap]
  constructor
  · rintro ⟨⟨slot, k⟩, hk, hmap⟩
    rw [List.mem_zipIdx_iff_getElem?] at hk
    cases slot with
    | none => cases hmap
    | some s' =>
      simp only [Option.map_some, Option.some.injEq, Prod.mk.injEq] at hmap
      obtain ⟨rfl, rfl⟩ := hmap
      have hk' : k < i.slots.size := by
        have := (List.getElem?_eq_some_iff.mp hk).1
        simpa using this
      dsimp only at hk
      rw [toUInt8_toNat_of_lt (by omega), ← Array.getElem?_toList, hk]
      rfl
  · intro h
    refine ⟨(some s, t.toNat), ?_, by simp [Nat.toUInt8_eq, UInt8.ofNat_toNat]⟩
    rw [List.mem_zipIdx_iff_getElem?, Array.getElem?_toList]
    cases hs : i.slots[t.toNat]? with
    | none => rw [hs] at h; cases h
    | some slot =>
      rw [hs] at h
      cases slot with
      | none => cases h
      | some s' => cases h; rfl

end Index

end NorStore
