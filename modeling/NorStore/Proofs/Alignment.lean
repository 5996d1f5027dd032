import NorStore.Layout

/-! # Alignment of records and transfers

A layout that `Layout.create` accepts has access units that are powers of two, a record
alignment between 4 and 64 that every access unit divides, and areas that are a whole number of
record alignments. These facts are what keeps every record on the grid, every transfer inside
its area and every record that fits an area readable piece by piece. `Layout.Valid` collects
them, and `Layout.valid_of_create` says that every accepted partition has them.
-/

namespace NorStore

theorem alignUp_mono {m n a : Nat} (h : m ≤ n) : alignUp m a ≤ alignUp n a := by
  unfold alignUp
  exact Nat.mul_le_mul_right _ (Nat.div_le_div_right (by omega))

theorem alignUp_mul_add (k a n : Nat) (ha : 0 < a) : alignUp (k * a + n) a = k * a + alignUp n a := by
  unfold alignUp
  have h : k * a + n + a - 1 = (n + a - 1) + a * k := by
    rw [Nat.mul_comm a k]
    omega
  rw [h, Nat.add_mul_div_left _ _ ha, Nat.add_mul]
  omega

theorem alignUp_lt_add (n a : Nat) (ha : 0 < a) : alignUp n a < n + a := by
  have h1 := Nat.div_add_mod (n + a - 1) a
  have h2 := Nat.mod_lt (n + a - 1) ha
  rw [Nat.mul_comm] at h1
  unfold alignUp
  omega

theorem alignUp_of_dvd {n a : Nat} (h : a ∣ n) (ha : 0 < a) : alignUp n a = n := by
  obtain ⟨k, rfl⟩ := h
  have := alignUp_mul_add k a 0 ha
  simp only [Nat.add_zero, Nat.mul_comm k a] at this
  rw [this]
  simp [alignUp, Nat.div_eq_of_lt (show a - 1 < a by omega)]

theorem alignUp_le_alignUp_of_dvd {n a b : Nat} (h : a ∣ b) (ha : 0 < a) (hb : 0 < b) :
    alignUp n a ≤ alignUp n b := by
  have hle : n ≤ alignUp n b := le_alignUp n b hb
  have hdvd : a ∣ alignUp n b := Nat.dvd_trans h (Nat.dvd_of_mod_eq_zero (alignUp_mod n b))
  calc alignUp n a ≤ alignUp (alignUp n b) a := alignUp_mono hle
    _ = alignUp n b := alignUp_of_dvd hdvd ha

theorem dvd_sixtyFour_of_isPowerOfTwo {n : Nat} (h : IsPowerOfTwo n) (hn : n ≤ 64) : n ∣ 64 := by
  have key : ∀ m < 65, m ≠ 0 → m &&& (m - 1) = 0 → m ∣ 64 := by decide
  exact key n (by omega) h.1 h.2

namespace Geometry

variable {g : Geometry}

theorem readSize_le_recordAlignment (g : Geometry) : g.readSize ≤ g.recordAlignment := by
  unfold recordAlignment
  omega

theorem writeSize_le_recordAlignment (g : Geometry) : g.writeSize ≤ g.recordAlignment := by
  unfold recordAlignment
  omega

theorem recordAlignment_pos (g : Geometry) : 0 < g.recordAlignment := by
  have := g.four_le_recordAlignment
  omega

theorem Supported.readSize_pos (h : g.Supported) : 0 < g.readSize :=
  Nat.pos_of_ne_zero h.1.1

theorem Supported.writeSize_pos (h : g.Supported) : 0 < g.writeSize :=
  Nat.pos_of_ne_zero h.2.1.1

theorem Supported.recordAlignment_dvd (h : g.Supported) : g.recordAlignment ∣ 64 := by
  -- the alignment is the largest of four and two powers of two, so it is one of them
  have h64 := h.2.2
  have hr := dvd_sixtyFour_of_isPowerOfTwo h.1 (by have := g.readSize_le_recordAlignment; omega)
  have hw := dvd_sixtyFour_of_isPowerOfTwo h.2.1 (by have := g.writeSize_le_recordAlignment; omega)
  unfold recordAlignment
  rcases Nat.le_total 4 (max g.readSize g.writeSize) with h4 | h4
  · rw [Nat.max_eq_right h4]
    rcases Nat.le_total g.readSize g.writeSize with hrw | hrw
    · rwa [Nat.max_eq_right hrw]
    · rwa [Nat.max_eq_left hrw]
  · rw [Nat.max_eq_left h4]
    decide

theorem dvd_of_dvd_sixtyFour {m n : Nat} (hm : m ∣ 64) (hn : n ∣ 64) (hle : m ≤ n) : m ∣ n := by
  have key : ∀ m < 65, ∀ n < 65, m ∣ 64 → n ∣ 64 → m ≤ n → m ∣ n := by decide
  exact key m (by have := Nat.le_of_dvd (by decide) hm; omega) n
    (by have := Nat.le_of_dvd (by decide) hn; omega) hm hn hle

theorem Supported.readSize_dvd (h : g.Supported) : g.readSize ∣ g.recordAlignment :=
  dvd_of_dvd_sixtyFour
    (dvd_sixtyFour_of_isPowerOfTwo h.1 (by have := g.readSize_le_recordAlignment; have := h.2.2; omega))
    h.recordAlignment_dvd g.readSize_le_recordAlignment

theorem Supported.writeSize_dvd (h : g.Supported) : g.writeSize ∣ g.recordAlignment :=
  dvd_of_dvd_sixtyFour
    (dvd_sixtyFour_of_isPowerOfTwo h.2.1 (by have := g.writeSize_le_recordAlignment; have := h.2.2; omega))
    h.recordAlignment_dvd g.writeSize_le_recordAlignment

theorem Supported.readSize_dvd_sixtyFour (h : g.Supported) : g.readSize ∣ 64 :=
  Nat.dvd_trans h.readSize_dvd h.recordAlignment_dvd

end Geometry

namespace Record

variable {g : Geometry}

theorem size_mod (g : Geometry) (length : Nat) : size g length % g.recordAlignment = 0 :=
  alignUp_mod _ _

theorem size_lt (g : Geometry) (length : Nat) :
    size g length < headerSize + length + g.recordAlignment :=
  alignUp_lt_add _ _ g.recordAlignment_pos

theorem size_mono (g : Geometry) {m n : Nat} (h : m ≤ n) : size g m ≤ size g n :=
  alignUp_mono (by omega)

theorem size_le_sixtyFour (hg : g.Supported) {length : Nat} (h : headerSize + length ≤ 64) :
    size g length ≤ 64 := by
  have hdvd := hg.recordAlignment_dvd
  calc size g length ≤ alignUp 64 g.recordAlignment := alignUp_mono h
    _ = 64 := alignUp_of_dvd hdvd g.recordAlignment_pos

theorem masterSize_le_sixtyFour (hg : g.Supported) : masterSize g ≤ 64 :=
  size_le_sixtyFour hg (by decide)

theorem masterSize_mod (g : Geometry) : masterSize g % g.recordAlignment = 0 :=
  size_mod _ _

end Record

/-- What `Layout.create` establishes about a layout, and what the record format relies on. -/
structure Layout.Valid (l : Layout) : Prop where
  supported : l.geometry.Supported
  aligned : l.areaSize % l.geometry.recordAlignment = 0
  roomy : l.masterSize + l.recordSize 0 ≤ l.areaSize

theorem Layout.valid_of_create {g : Geometry} {offset size : Nat} {l : Layout}
    (h : Layout.create g offset size = .ok l) : l.Valid := by
  obtain ⟨⟨-, -, -, -, hs, ha, hr⟩, rfl⟩ := Layout.create_eq_ok_iff.mp h
  exact ⟨hs, ha, hr⟩

namespace Layout.Valid

variable {l : Layout} (hl : l.Valid)
include hl

theorem masterSize_le_areaSize : l.masterSize ≤ l.areaSize := by
  have := hl.roomy
  omega

theorem headerSize_add_masterSize_le : Record.headerSize + l.masterSize ≤ l.areaSize := by
  have h1 := hl.roomy
  have h2 := Record.headerSize_add_le_size l.geometry 0
  simp only [recordSize] at h1
  omega

end Layout.Valid

end NorStore
