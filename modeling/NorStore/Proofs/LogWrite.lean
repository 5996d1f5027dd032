import NorStore.Proofs.Scan

/-! # Writing after the end of a log

The store only ever programs an area past the end of its log, into erased flash: a record
appended in place, a record copied by a compaction, or the master record of an erased area.
This module says what that does to the log, on the area's bytes: writing a block that reads as
a data record where a clean log ends extends the log by that record and leaves the rest erased
(`chain_overwrite_block`), whether the block is a record's image (`chain_overwrite_image`) or a
verbatim copy of a record of another area (`chain_overwrite_copy`); writing before the log's
start leaves the log as it was (`chain_congr_from`).
-/

namespace NorStore.Log

open Record

/-! ### Overwritten bytes -/

theorem extract_eq_of_getElem {A A' : ByteArray} {x y : Nat} (hsize : A'.size = A.size)
    (h : ∀ i (hi : i < A.size) (hi' : i < A'.size), x ≤ i → i < y → A'[i] = A[i]) :
    A'.extract x y = A.extract x y := by
  apply ByteArray.ext_getElem
  · simp [hsize]
  · intro k hk hk'
    simp only [ByteArray.size_extract] at hk
    rw [ByteArray.getElem_extract, ByteArray.getElem_extract]
    exact h _ (by omega) (by omega) (by omega) (by omega)

theorem extract_eq_of_extract_eq {A A' : ByteArray} {x y x' y' : Nat}
    (h : A'.extract x y = A.extract x y) (h1 : x ≤ x') (h2 : y' ≤ y) :
    A'.extract x' y' = A.extract x' y' := by
  by_cases hxy : x' ≤ y'
  · have h' := congrArg (fun B => B.extract (x' - x) (y' - x)) h
    simp only [ByteArray.extract_extract] at h'
    rwa [show x + (x' - x) = x' by omega, show min (x + (y' - x)) y = y' by omega] at h'
  · rw [(ByteArray.extract_eq_empty_iff).mpr (by omega),
      (ByteArray.extract_eq_empty_iff).mpr (by omega)]

theorem Blank.erased {A : ByteArray} {n : Nat} (h : Blank A n) (k : Nat) : Erased A n k :=
  fun i hi h1 _ => h i hi h1 hi

section Overwrite

variable {A B : ByteArray} {free : Nat}

theorem size_overwrite (hfit : free + B.size ≤ A.size) :
    (Chip.overwriteCells A free B).size = A.size :=
  Chip.size_overwriteCells A free B hfit

theorem extract_overwrite_before (hfit : free + B.size ≤ A.size) {x y : Nat} (hy : y ≤ free) :
    (Chip.overwriteCells A free B).extract x y = A.extract x y := by
  apply extract_eq_of_getElem (size_overwrite hfit)
  intro i hi hi' _ hiy
  rw [Chip.getElem_overwriteCells hfit i hi hi', dif_neg (by omega)]

theorem extract_overwrite_after (hfit : free + B.size ≤ A.size) {x y : Nat}
    (hx : free + B.size ≤ x) : (Chip.overwriteCells A free B).extract x y = A.extract x y := by
  apply extract_eq_of_getElem (size_overwrite hfit)
  intro i hi hi' hxi _
  rw [Chip.getElem_overwriteCells hfit i hi hi', dif_neg (by omega)]

theorem extract_overwrite_self (hfit : free + B.size ≤ A.size) :
    (Chip.overwriteCells A free B).extract free (free + B.size) = B := by
  have hsize := size_overwrite (A := A) hfit
  apply ByteArray.ext_getElem
  · simp only [ByteArray.size_extract, hsize]; omega
  · intro k hk hk'
    simp only [ByteArray.size_extract, hsize] at hk
    rw [ByteArray.getElem_extract, Chip.getElem_overwriteCells hfit _ (by omega),
      dif_pos (by omega)]
    simp

theorem erased_overwrite_before (hfit : free + B.size ≤ A.size) {x y : Nat} (he : Erased A x y)
    (hy : y ≤ free) : Erased (Chip.overwriteCells A free B) x y := by
  intro i hi h1 h2
  have hi' : i < A.size := by rwa [size_overwrite hfit] at hi
  rw [Chip.getElem_overwriteCells hfit i hi' hi, dif_neg (by omega)]
  exact he i hi' h1 h2

theorem erased_overwrite_after (hfit : free + B.size ≤ A.size) {x y : Nat} (he : Erased A x y)
    (hx : free + B.size ≤ x) : Erased (Chip.overwriteCells A free B) x y := by
  intro i hi h1 h2
  have hi' : i < A.size := by rwa [size_overwrite hfit] at hi
  rw [Chip.getElem_overwriteCells hfit i hi' hi, dif_neg (by omega)]
  exact he i hi' h1 h2

theorem blank_overwrite (hfit : free + B.size ≤ A.size) (hblank : Blank A free) :
    Blank (Chip.overwriteCells A free B) (free + B.size) := by
  intro i hi h1 _
  have hi' : i < A.size := by rwa [size_overwrite hfit] at hi
  rw [Chip.getElem_overwriteCells hfit i hi' hi, dif_neg (by omega)]
  exact hblank i hi' (by omega) hi'

theorem blank_overwrite_before (hfit : free + B.size ≤ A.size) {x : Nat} (hblank : Blank A x)
    (hx : free + B.size ≤ x) : Blank (Chip.overwriteCells A free B) x := by
  intro i hi h1 _
  have hi' : i < A.size := by rwa [size_overwrite hfit] at hi
  rw [Chip.getElem_overwriteCells hfit i hi' hi, dif_neg (by omega)]
  exact hblank i hi' h1 hi'

end Overwrite

/-! ### The log after a write -/

variable {g : Geometry}

variable [Crc]

theorem chain_of_blank {A : ByteArray} {n : Nat} (h : Blank A n) : chain g A n = ⟨[], none, n⟩ :=
  chain_of_none (decode_of_erased (h.erased _))

theorem chain_congr_from {A A' : ByteArray} (offset : Nat) (hsize : A'.size = A.size)
    (hagree : ∀ x y, offset ≤ x → A'.extract x y = A.extract x y) :
    chain g A' offset = chain g A offset := by
  have hd : decode g A' offset = decode g A offset :=
    decode_congr_extract hsize (hagree _ _ (Nat.le_refl _))
      (fun _ _ _ => hagree _ _ (by omega))
  cases hr : decode g A offset with
  | error err => rw [chain_of_error (hd.trans hr), chain_of_error hr]
  | ok r =>
    cases r with
    | none => rw [chain_of_none (hd.trans hr), chain_of_none hr]
    | some e =>
      by_cases hm : ∃ v, e.record = .master v
      · obtain ⟨v, hv⟩ := hm
        rw [chain_of_master (hd.trans hr) hv, chain_of_master hr hv]
      · have hm' : ∀ v, e.record ≠ .master v := fun v hv => hm ⟨v, hv⟩
        obtain ⟨-, hlt, -⟩ := decode_next hr
        simp only [headerSize] at hlt
        rw [chain_of_data (hd.trans hr) hm', chain_of_data hr hm',
          chain_congr_from e.next hsize (fun x y hx => hagree x y (by omega))]
termination_by A.size - offset
decreasing_by
  obtain ⟨-, hlt, -⟩ := decode_next hr; simp only [headerSize] at hlt; omega

theorem chain_overwrite_block {A B : ByteArray} {offset free : Nat} {copied : List Entry}
    {e : Entry} (hchain : chain g A offset = ⟨copied, none, free⟩) (hblank : Blank A free)
    (hfit : free + B.size ≤ A.size)
    (hd : decode g (Chip.overwriteCells A free B) free = .ok (some e))
    (hnext : e.next = free + B.size) (hmaster : ∀ v, e.record ≠ .master v) :
    chain g (Chip.overwriteCells A free B) offset = ⟨copied ++ [e], none, e.next⟩ ∧
      Blank (Chip.overwriteCells A free B) e.next := by
  have hstop : (chain g A offset).stop = none := by rw [hchain]
  have hfree : (chain g A offset).next = free := by rw [hchain]
  have hblank' := blank_overwrite hfit hblank
  rw [← hnext] at hblank'
  refine ⟨?_, hblank'⟩
  rw [chain_append g offset (size_overwrite hfit) hstop
    (by rw [hfree]; exact extract_overwrite_before hfit (Nat.le_refl _)), hfree,
    chain_of_data hd hmaster, chain_of_blank hblank', hchain]

theorem chain_overwrite_image {A : ByteArray} {offset free : Nat} {copied : List Entry}
    {type : UInt8} (flags : UInt8) {data : ByteArray} (hchain : chain g A offset = ⟨copied, none, free⟩)
    (hblank : Blank A free) (hfit : free + size g data.size ≤ A.size) (htype : type < masterType)
    (hl : data.size ≤ 0xFFFF) :
    chain g (Chip.overwriteCells A free (image g type flags data)) offset =
        ⟨copied ++ [⟨free, (Header.ofPayload type flags data).record data, free + size g data.size⟩],
          none, free + size g data.size⟩ ∧
      Blank (Chip.overwriteCells A free (image g type flags data)) (free + size g data.size) := by
  have hsize := size_image g type flags data
  have hfit' : free + (image g type flags data).size ≤ A.size := by rw [hsize]; exact hfit
  have hne : type ≠ masterType := by
    intro h; rw [h] at htype; exact absurd htype (by decide)
  have himage : (Chip.overwriteCells A free (image g type flags data)).extract free
      (free + size g data.size) = image g type flags data := by
    rw [← hsize]; exact extract_overwrite_self hfit'
  have hd := decode_image himage
    (by rw [size_overwrite hfit']; exact hfit)
    (by intro h; rw [h] at htype; exact absurd htype (by decide)) (fun h => absurd h hne) hl
  have hmaster : ∀ v, (Header.ofPayload type flags data).record data ≠ .master v := by
    intro v
    rw [Header.record_ofPayload hne hl]
    split <;> simp
  exact chain_overwrite_block hchain hblank hfit' hd (by rw [hsize]) hmaster

theorem chain_overwrite_copy {A T : ByteArray} {offset free source : Nat} {copied : List Entry}
    {e : Entry} (hchain : chain g T offset = ⟨copied, none, free⟩) (hblank : Blank T free)
    (hd : decode g A source = .ok (some e)) (hmaster : ∀ v, e.record ≠ .master v)
    (hfit : free + (e.next - source) ≤ T.size) :
    chain g (Chip.overwriteCells T free (A.extract source e.next)) offset =
        ⟨copied ++ [⟨free, e.record, free + (e.next - source)⟩], none, free + (e.next - source)⟩ ∧
      Blank (Chip.overwriteCells T free (A.extract source e.next)) (free + (e.next - source)) := by
  obtain ⟨-, -, hle⟩ := decode_next hd
  have hsize : (A.extract source e.next).size = e.next - source := by
    simp only [ByteArray.size_extract]; omega
  have hfit' : free + (A.extract source e.next).size ≤ T.size := by rw [hsize]; exact hfit
  have hd' := decode_shift hd (by rw [← hsize]; exact extract_overwrite_self hfit')
    (by rw [size_overwrite hfit']; exact hfit)
  exact chain_overwrite_block hchain hblank hfit' hd' (by rw [hsize]) hmaster

/-! ### The values a log holds -/

theorem payload_end_le {A : ByteArray} {e : Entry} {t : UInt8} {length : Nat}
    (hd : decode g A e.offset = .ok (some e)) (hrec : e.record = .live t length) :
    e.offset + headerSize + length ≤ e.next := by
  obtain ⟨h, -, -, -, -, -, he⟩ := decode_eq_ok_some hd
  have hlen : h.payloadSize = length := by
    have hlive : h.record (A.extract (e.offset + headerSize) (e.offset + headerSize + h.payloadSize)) =
        .live t length := by
      rw [← hrec, he]
    exact payloadSize_of_record_live hlive
  have hnext : e.next = e.offset + size g h.payloadSize := by rw [he]
  have := headerSize_add_le_size g h.payloadSize
  omega

/-- The value each type holds in the log `es`: the payload its slot points at. -/
def values (A : ByteArray) (es : List Entry) (t : UInt8) : Option ByteArray :=
  (Index.slotFor t es).map fun s => A.extract (s.offset + headerSize) (s.offset + headerSize + s.length)

theorem values_congr {A A' : ByteArray} {es : List Entry}
    (hdec : ∀ e ∈ es, decode g A e.offset = .ok (some e))
    (hagree : ∀ e ∈ es, A'.extract e.offset e.next = A.extract e.offset e.next) :
    values A' es = values A es := by
  funext t
  unfold values
  cases hs : Index.slotFor t es with
  | none => rfl
  | some s =>
    obtain ⟨e, he, hoff, hrec⟩ := Index.slotFor_eq_some hs
    have hend := payload_end_le (hdec e he) hrec
    simp only [Option.map_some]
    rw [extract_eq_of_extract_eq (hagree e he) (by omega) (by omega)]

theorem values_overwrite_after {A B : ByteArray} {offset free : Nat} {copied : List Entry}
    {stop : Option Error} (hchain : chain g A offset = ⟨copied, stop, free⟩)
    (hoff : offset ≤ A.size) (hfit : free + B.size ≤ A.size) :
    values (Chip.overwriteCells A free B) copied = values A copied := by
  obtain ⟨hcontig, hdec, -, -⟩ := chain_spec g A offset hoff
  rw [hchain] at hcontig hdec
  exact values_congr (fun e he => (hdec e he).1)
    (fun e he => extract_overwrite_before hfit (hcontig.next_le e he))

theorem values_overwrite_before {A B : ByteArray} {offset free : Nat} {copied : List Entry}
    {stop : Option Error} {next : Nat} (hchain : chain g A offset = ⟨copied, stop, next⟩)
    (hoff : offset ≤ A.size) (hfit : free + B.size ≤ A.size) (hbefore : free + B.size ≤ offset) :
    values (Chip.overwriteCells A free B) copied = values A copied := by
  obtain ⟨hcontig, hdec, -, -⟩ := chain_spec g A offset hoff
  rw [hchain] at hcontig hdec
  exact values_congr (fun e he => (hdec e he).1)
    (fun e he => extract_overwrite_after hfit (by have := hcontig.start_le e he; omega))

omit [Crc] in
theorem values_concat (A : ByteArray) (es : List Entry) (e : Entry) (t : UInt8) :
    values A (es ++ [e]) t =
      match e.record with
      | .live t' length =>
        if t' = t then some (A.extract (e.offset + headerSize) (e.offset + headerSize + length))
        else values A es t
      | .deleted t' => if t' = t then none else values A es t
      | .master _ => values A es t := by
  obtain ⟨offset, record, next⟩ := e
  unfold values
  rw [Index.slotFor_concat]
  cases record with
  | master v => rfl
  | live t' length => by_cases ht : t' = t <;> simp [Index.slotAfter, ht]
  | deleted t' => by_cases ht : t' = t <;> simp [Index.slotAfter, ht]

end NorStore.Log
