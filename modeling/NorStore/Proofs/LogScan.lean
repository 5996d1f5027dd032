import NorStore.Log
import NorStore.Proofs.Fetch

/-! # The log of an area

`Log.chain` walks the log of an area on its bytes: the records `decode` accepts one after the
other, until the log ends at erased flash or a record fails. It is the walk the device does
(`walkFrom_run`: a walk keeps the cells and answers `chain`, unless a fault is set and it stopped
with a read error). The records of a chain follow each other without gaps (`Contiguous`), each
of them is what `decode` reads at its offset, and a chain that ends at erased flash is extended,
not changed, by writing after its end (`chain_append`).
-/

namespace NorStore.Log

open Record

variable [Crc]

/-- The log of area bytes `A` from `offset` on: the records `decode` accepts, and where it ends. -/
def chain (g : Geometry) (A : ByteArray) (offset : Nat) : Walk :=
  match decode g A offset with
  | .error e => ⟨[], some e, offset⟩
  | .ok none => ⟨[], none, offset⟩
  | .ok (some e) =>
    match e.record with
    | .master _ => ⟨[], some .dataCorrupt, offset⟩
    | _ =>
      if offset < e.next ∧ e.next ≤ A.size then
        let rest := chain g A e.next
        { rest with entries := e :: rest.entries }
      else ⟨[e], none, e.next⟩
termination_by A.size - offset

variable {g : Geometry} {A : ByteArray} {offset : Nat}

/-! ### One step of a chain -/

theorem chain_of_error {e : Error} (hd : decode g A offset = .error e) :
    chain g A offset = ⟨[], some e, offset⟩ := by
  rw [chain, hd]

theorem chain_of_none (hd : decode g A offset = .ok none) :
    chain g A offset = ⟨[], none, offset⟩ := by
  rw [chain, hd]

theorem chain_of_master {e : Entry} {v : UInt16} (hd : decode g A offset = .ok (some e))
    (hm : e.record = .master v) : chain g A offset = ⟨[], some .dataCorrupt, offset⟩ := by
  rw [chain, hd]
  simp only [hm]

theorem chain_of_data {e : Entry} (hd : decode g A offset = .ok (some e))
    (hm : ∀ v, e.record ≠ .master v) :
    chain g A offset = { chain g A e.next with entries := e :: (chain g A e.next).entries } := by
  obtain ⟨-, hlt, hle⟩ := decode_next hd
  simp only [headerSize] at hlt
  rw [chain, hd]
  dsimp only
  split
  · rename_i v hv
    exact absurd hv (hm v)
  · rw [if_pos ⟨by omega, hle⟩]

theorem eq_dataCorrupt_of_decode {e : Error} (hd : decode g A offset = .error e) :
    e = .dataCorrupt := by
  unfold decode at hd
  dsimp only at hd
  split at hd
  · cases hd
  · split at hd
    · cases hd
    · split at hd
      · cases hd
      · split at hd
        · split at hd
          · cases hd
          · cases hd; rfl
        · cases hd; rfl

/-! ### What every chain is -/

/-- Records that follow each other from `start` to `stop`, each where the one before ended. -/
inductive Contiguous : Nat → List Entry → Nat → Prop
  | nil (n : Nat) : Contiguous n [] n
  | cons {start stop : Nat} {e : Entry} {es : List Entry} (hoffset : e.offset = start)
      (hlt : start < e.next) (rest : Contiguous e.next es stop) : Contiguous start (e :: es) stop

theorem chain_spec (g : Geometry) (A : ByteArray) (offset : Nat) (h : offset ≤ A.size) :
    Contiguous offset (chain g A offset).entries (chain g A offset).next ∧
      (∀ e ∈ (chain g A offset).entries,
        decode g A e.offset = .ok (some e) ∧ ∀ v, e.record ≠ .master v) ∧
      (chain g A offset).next ≤ A.size ∧
      ((chain g A offset).stop = none ∨ (chain g A offset).stop = some .dataCorrupt) := by
  cases hd : decode g A offset with
  | error err =>
    rw [chain_of_error hd, eq_dataCorrupt_of_decode hd]
    exact ⟨.nil _, by simp, h, .inr rfl⟩
  | ok r =>
    cases r with
    | none =>
      rw [chain_of_none hd]
      exact ⟨.nil _, by simp, h, .inl rfl⟩
    | some e =>
      by_cases hm : ∃ v, e.record = .master v
      · obtain ⟨v, hv⟩ := hm
        rw [chain_of_master hd hv]
        exact ⟨.nil _, by simp, h, .inr rfl⟩
      · have hm' : ∀ v, e.record ≠ .master v := fun v hv => hm ⟨v, hv⟩
        obtain ⟨hoff, hlt, hle⟩ := decode_next hd
        simp only [headerSize] at hlt
        obtain ⟨hc, he, hnext, hstop⟩ := chain_spec g A e.next hle
        rw [chain_of_data hd hm']
        refine ⟨.cons hoff (by omega) hc, ?_, hnext, hstop⟩
        intro e' he'
        rcases List.mem_cons.mp he' with rfl | he'
        · exact ⟨hoff ▸ hd, hm'⟩
        · exact he e' he'
termination_by A.size - offset
decreasing_by
  all_goals (obtain ⟨-, hlt, -⟩ := decode_next hd; simp only [headerSize] at hlt; omega)

omit [Crc] in
theorem Contiguous.le {start stop : Nat} {es : List Entry} (h : Contiguous start es stop) :
    start ≤ stop := by
  induction h with
  | nil => exact Nat.le_refl _
  | cons _ hlt _ ih => omega

omit [Crc] in
theorem Contiguous.next_le {start stop : Nat} {es : List Entry} (h : Contiguous start es stop) :
    ∀ e ∈ es, e.next ≤ stop := by
  induction h with
  | nil => simp
  | cons _ _ rest ih =>
    intro e he
    rcases List.mem_cons.mp he with rfl | he
    · exact rest.le
    · exact ih e he

omit [Crc] in
theorem Contiguous.start_le {start stop : Nat} {es : List Entry} (h : Contiguous start es stop) :
    ∀ e ∈ es, start ≤ e.offset := by
  induction h with
  | nil => simp
  | cons hoffset hlt _ ih =>
    intro e he
    rcases List.mem_cons.mp he with rfl | he
    · exact Nat.le_of_eq hoffset.symm
    · have := ih e he; omega

theorem start_le_next (g : Geometry) (A : ByteArray) (offset : Nat) (h : offset ≤ A.size) :
    offset ≤ (chain g A offset).next :=
  (chain_spec g A offset h).1.le

theorem chain_append (g : Geometry) {A A' : ByteArray} (offset : Nat) (hsize : A'.size = A.size)
    (hstop : (chain g A offset).stop = none)
    (hagree : A'.extract offset (chain g A offset).next = A.extract offset (chain g A offset).next) :
    chain g A' offset = { chain g A' (chain g A offset).next with
      entries := (chain g A offset).entries ++ (chain g A' (chain g A offset).next).entries } := by
  cases hd : decode g A offset with
  | error err =>
    rw [chain_of_error hd] at hstop
    cases hstop
  | ok r =>
    cases r with
    | none =>
      rw [chain_of_none hd]
      simp only [List.nil_append]
    | some e =>
      by_cases hm : ∃ v, e.record = .master v
      · obtain ⟨v, hv⟩ := hm
        rw [chain_of_master hd hv] at hstop
        cases hstop
      · have hm' : ∀ v, e.record ≠ .master v := fun v hv => hm ⟨v, hv⟩
        obtain ⟨hoff, hlt, hle⟩ := decode_next hd
        simp only [headerSize] at hlt
        have hrest := chain_of_data hd hm'
        have hge := start_le_next g A e.next hle
        rw [hrest] at hstop hagree ⊢
        dsimp only at hstop hagree ⊢
        -- the first record is read the same, since the new bytes agree on it
        have hsub : ∀ x y, offset ≤ x → x ≤ y → y ≤ (chain g A e.next).next →
            A'.extract x y = A.extract x y := by
          intro x y hx hxy hy
          have h1 := congrArg (fun B => B.extract (x - offset) (y - offset)) hagree
          simp only [ByteArray.extract_extract] at h1
          rwa [show offset + (x - offset) = x by omega,
            show min (offset + (y - offset)) (chain g A e.next).next = y by omega] at h1
        have hd' : decode g A' offset = .ok (some e) :=
          decode_congr hsize hd (hsub _ _ (Nat.le_refl _) (by omega) hge)
        rw [chain_of_data hd' hm',
          chain_append g e.next hsize hstop (hsub _ _ (by omega) hge (Nat.le_refl _))]
        simp only [List.cons_append]
termination_by A.size - offset
decreasing_by
  obtain ⟨-, hlt, -⟩ := decode_next hd; simp only [headerSize] at hlt; omega

/-! ### The walk on the device -/

variable {l : Layout} {c : Chip}

variable [LawfulCrc]

theorem walkFrom_run (hl : l.Valid) (a : Area) (offset : Nat) (c : Chip)
    (h : l.Inside c.cells.size) :
    Chip.Keeps c ((walkFrom l a offset).run c).2 ∧
      (((walkFrom l a offset).run c).1 = chain l.geometry (l.bytes c.cells a) offset ∨
        (c.failFrom ≠ none ∧ ((walkFrom l a offset).run c).1.stop = some .readError)) := by
  have hA := Layout.size_bytes h a
  rw [walkFrom, StateM.run_bind]
  obtain ⟨hk, hr⟩ := readAt_run hl h a offset none
  generalize (readAt l a offset none).run c = q at hk hr ⊢
  obtain ⟨fetch, c1⟩ := q
  dsimp only at hk hr ⊢
  rcases hr with rfl | ⟨hf, hout⟩
  · rw [fetch_outcome_none hA]
    cases hd : decode l.geometry (l.bytes c.cells a) offset with
    | error err =>
      rw [chain_of_error hd]
      exact ⟨hk, .inl rfl⟩
    | ok r =>
      cases r with
      | none =>
        rw [chain_of_none hd]
        exact ⟨hk, .inl rfl⟩
      | some e =>
        dsimp only
        by_cases hm : ∃ v, e.record = .master v
        · obtain ⟨v, hv⟩ := hm
          rw [chain_of_master hd hv]
          simp only [hv]
          exact ⟨hk, .inl rfl⟩
        · have hm' : ∀ v, e.record ≠ .master v := fun v hv => hm ⟨v, hv⟩
          obtain ⟨-, hlt, hle⟩ := decode_next hd
          simp only [headerSize] at hlt
          rw [hA] at hle
          rw [chain_of_data hd hm']
          split
          · rename_i v hv
            exact absurd hv (hm' v)
          · rw [if_pos ⟨by omega, hle⟩, StateM.run_bind]
            have h1 : l.Inside c1.cells.size := by rw [hk.cells]; exact h
            obtain ⟨hk', hr'⟩ := walkFrom_run hl a e.next c1 h1
            refine ⟨hk.trans hk', ?_⟩
            rw [hk.cells] at hr'
            rcases hr' with hr' | ⟨hf, hstop⟩
            · left
              rw [← hr']
              rfl
            · exact .inr ⟨by rwa [hk.failFrom] at hf, hstop⟩
  · rw [hout]
    exact ⟨hk, .inr ⟨hf, rfl⟩⟩
termination_by l.areaSize - offset
decreasing_by
  obtain ⟨-, hlt, -⟩ := decode_next hd; simp only [headerSize] at hlt; omega

/-! ### Erased space after a log -/

/-- The area whose bytes are `A` is erased from `offset` to its end. -/
def Blank (A : ByteArray) (offset : Nat) : Prop := Erased A offset A.size

instance (A : ByteArray) (offset : Nat) : Decidable (Blank A offset) := by
  unfold Blank Erased; infer_instance

/-- Whether every piece `(p, n)` of `A` reads as erased. -/
def erasedPieces (A : ByteArray) (ps : List (Nat × Nat)) : Bool :=
  ps.all fun p => (A.extract p.1 (p.1 + p.2)).toList.all (· == 0xFF)

omit [Crc] [LawfulCrc] in
theorem all_extract_iff {A : ByteArray} {start stop : Nat} (h : stop ≤ A.size) :
    (A.extract start stop).toList.all (· == 0xFF) = true ↔ Erased A start stop := by
  rw [List.all_eq_true, ByteArray.toList_eq_data_toList]
  constructor
  · intro hall i hi h1 h2
    have hj : i - start < (A.extract start stop).size := by
      simp only [ByteArray.size_extract]; omega
    have hmem := hall _ (Array.getElem_mem_toList (show i - start < (A.extract start stop).data.size from hj))
    rw [← ByteArray.getElem_eq_getElem_data, ByteArray.getElem_extract] at hmem
    simpa [show start + (i - start) = i by omega] using hmem
  · intro he b hb
    rw [Array.mem_toList_iff, Array.mem_iff_getElem] at hb
    obtain ⟨j, hj, rfl⟩ := hb
    have hj' : j < (A.extract start stop).size := hj
    simp only [ByteArray.size_extract] at hj'
    rw [← ByteArray.getElem_eq_getElem_data, ByteArray.getElem_extract]
    simp [he (start + j) (by omega) (by omega) (by omega)]

omit [Crc] [LawfulCrc] in
theorem erasedPieces_pieces {A : ByteArray} {start stop : Nat} (h : stop ≤ A.size) :
    erasedPieces A (pieces start stop) = true ↔ Erased A start stop := by
  fun_induction pieces start stop with
  | case1 start hlt n ih =>
    have hn : n = min (stop - start) scratchSize := rfl
    simp only [scratchSize] at hn
    simp only [erasedPieces, List.all_cons, Bool.and_eq_true] at ih ⊢
    rw [ih, all_extract_iff (by omega)]
    constructor
    · rintro ⟨h1, h2⟩ i hi hs ht
      by_cases hin : i < start + n
      · exact h1 i hi hs hin
      · exact h2 i hi (by omega) ht
    · intro he
      exact ⟨he.mono (Nat.le_refl _) (by omega), he.mono (by omega) (Nat.le_refl _)⟩
  | case2 start hge =>
    simp only [erasedPieces, List.all_nil, true_iff]
    intro i _ h1 h2
    omega

variable {l : Layout} {c : Chip}

omit [Crc] [LawfulCrc] in
theorem allErased_run (a : Area) :
    ∀ (ps : List (Nat × Nat)) (c : Chip), l.Inside c.cells.size →
      (∀ p ∈ ps, p.1 + p.2 ≤ l.areaSize) →
      Chip.Keeps c ((allErased l a ps).run.run c).2 ∧
        (((allErased l a ps).run.run c).1 = .ok (erasedPieces (l.bytes c.cells a) ps) ∨
          (c.failFrom ≠ none ∧ ((allErased l a ps).run.run c).1 = .error .readError))
  | [], c, _, _ => ⟨Chip.Keeps.refl c, .inl rfl⟩
  | (p, n) :: rest, c, h, hps => by
    have hp := hps (p, n) List.mem_cons_self
    dsimp only at hp
    rw [allErased, FlashM.run_bind, Layout.read_run h a hp]
    by_cases hlive : c.Live
    · rw [if_pos hlive]
      dsimp only
      by_cases hall : ((l.bytes c.cells a).extract p (p + n)).toList.all (· == 0xFF) = true
      · rw [if_pos hall]
        obtain ⟨hk, hr⟩ := allErased_run a rest { c with reads := c.reads + 1 } h
          (fun q hq => hps q (List.mem_cons_of_mem _ hq))
        refine ⟨(Chip.keeps_read c).trans hk, ?_⟩
        rcases hr with hr | hr
        · left
          rw [hr]
          simp only [erasedPieces, List.all_cons, hall, Bool.true_and]
        · exact .inr hr
      · rw [if_neg hall]
        refine ⟨Chip.keeps_read c, .inl ?_⟩
        have hfalse : erasedPieces (l.bytes c.cells a) ((p, n) :: rest) = false := by
          simp only [erasedPieces, List.all_cons, Bool.and_eq_false_iff]
          exact .inl (Bool.eq_false_iff.mpr hall)
        rw [hfalse]
        rfl
    · rw [if_neg hlive]
      exact ⟨Chip.Keeps.refl c, .inr ⟨Chip.failFrom_ne_none_of_not_live hlive, rfl⟩⟩

omit [Crc] [LawfulCrc] in
theorem isBlankFrom_run (h : l.Inside c.cells.size) (a : Area) (offset : Nat) :
    Chip.Keeps c ((isBlankFrom l a offset).run.run c).2 ∧
      (((isBlankFrom l a offset).run.run c).1 = .ok (decide (Blank (l.bytes c.cells a) offset)) ∨
        (c.failFrom ≠ none ∧ ((isBlankFrom l a offset).run.run c).1 = .error .readError)) := by
  have hA := Layout.size_bytes h a
  obtain ⟨hk, hr⟩ := allErased_run a (pieces offset l.areaSize) c h
    (fun p hp => (bounds_of_mem_pieces hp).2.2.2)
  refine ⟨hk, ?_⟩
  unfold isBlankFrom
  rcases hr with hr | hr
  · left
    rw [hr]
    congr 1
    rw [Bool.eq_iff_iff, decide_eq_true_iff, Blank, hA]
    exact erasedPieces_pieces (by omega)
  · exact .inr hr

end NorStore.Log
