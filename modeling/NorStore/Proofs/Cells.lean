import NorStore.Flash.Chip
import NorStore.Proofs.Alignment

/-! # Cells of a chip and the bytes of an area

A chip's cells are one byte array; an area is the window `[address, address + areaSize)` of it
(`Layout.bytes`). Programming clears bits, so programming bytes into erased cells writes exactly
those bytes (`programCells_eq_overwriteCells`), and an overwrite of one area shows in that
area's bytes as the same overwrite (`bytes_overwriteCells_self`) and leaves the other area as it
was (`bytes_overwriteCells_other`). Everything later about flash contents is said through these
area views.
-/

namespace NorStore

/-! ### Byte arrays -/

theorem foldlM_loop_eq {β : Type} (f : β → UInt8 → β) (as : ByteArray) (stop : Nat)
    (h : stop ≤ as.size) :
    ∀ (i j : Nat) (b : β), stop ≤ i + j →
      ByteArray.foldlM.loop (m := Id) (fun b a => pure (f b a)) as stop h i j b =
        ((as.data.toList.take stop).drop j).foldl f b := by
  intro i
  induction i with
  | zero =>
    intro j b hij
    have hd : (as.data.toList.take stop).drop j = [] := by simp; omega
    unfold ByteArray.foldlM.loop
    split <;> simp only [hd, List.foldl_nil] <;> rfl
  | succ i ih =>
    intro j b hij
    unfold ByteArray.foldlM.loop
    split
    · have hj : j < (as.data.toList.take stop).length := by simp; omega
      rw [List.drop_eq_getElem_cons hj, List.foldl_cons, ← ih (j + 1) _ (by omega)]
      simp [ByteArray.getElem_eq_getElem_data]
    · have hd : (as.data.toList.take stop).drop j = [] := by simp; omega
      simp only [hd, List.foldl_nil]
      rfl

theorem ByteArray.foldl_eq_foldl_toList {β : Type} (f : β → UInt8 → β) (init : β)
    (as : ByteArray) : as.foldl f init = as.data.toList.foldl f init := by
  simp only [ByteArray.foldl, ByteArray.foldlM, Id.run]
  rw [dif_pos (Nat.le_refl _), foldlM_loop_eq f as as.size _ _ 0 init (by omega), List.drop_zero,
    List.take_of_length_le (by simp)]

theorem toList_loop_eq (as : ByteArray) :
    ∀ (n i : Nat) (r : List UInt8), as.size = i + n →
      ByteArray.toList.loop as i r = r.reverse ++ as.data.toList.drop i := by
  intro n
  induction n with
  | zero =>
    intro i r h
    unfold ByteArray.toList.loop
    have hd : as.data.toList.drop i = [] := by simp; omega
    simp [hd, show ¬ i < as.size by omega]
  | succ n ih =>
    intro i r h
    unfold ByteArray.toList.loop
    have hi : i < as.size := by omega
    have hl : i < as.data.toList.length := by simp; omega
    have hget : as.get! i = as.data.toList[i] := by
      cases as
      simp only [ByteArray.get!, Array.getElem_toList]
      rw [getElem!_pos]
    rw [if_pos hi, ih (i + 1) _ (by omega), List.drop_eq_getElem_cons hl, hget]
    simp

theorem ByteArray.toList_eq_data_toList (as : ByteArray) : as.toList = as.data.toList := by
  simp [ByteArray.toList, toList_loop_eq as as.size 0 [] (by omega)]

/-- The bytes of `A` from `start` to `stop` that lie in `A` are erased. -/
def Erased (A : ByteArray) (start stop : Nat) : Prop :=
  ∀ i (h : i < A.size), start ≤ i → i < stop → A[i] = 0xFF

theorem Erased.mono {A : ByteArray} {start stop start' stop' : Nat} (h : Erased A start stop)
    (h1 : start ≤ start') (h2 : stop' ≤ stop) : Erased A start' stop' :=
  fun i hi hs ht => h i hi (by omega) (by omega)

theorem size_replicate_erased (n : Nat) : (ByteArray.mk (Array.replicate n 0xFF)).size = n := by
  simp [ByteArray.size]

theorem getElem_replicate_erased {n i : Nat} (h : i < (ByteArray.mk (Array.replicate n 0xFF)).size) :
    (ByteArray.mk (Array.replicate n 0xFF))[i] = 0xFF := by
  rw [ByteArray.getElem_eq_getElem_data]
  simp

/-! ### Programming and overwriting cells -/

theorem erased_and (b : UInt8) : 0xFF &&& b = b := by
  apply UInt8.toNat_inj.mp
  rw [UInt8.toNat_and, Nat.and_comm, show (0xFF : UInt8).toNat = 2 ^ 8 - 1 from rfl,
    Nat.and_two_pow_sub_one_eq_mod]
  exact Nat.mod_eq_of_lt b.toNat_lt

namespace Chip

theorem size_clearBits (cells : ByteArray) (i : Nat) (b : UInt8) :
    (clearBits cells i b).size = cells.size := by
  unfold clearBits
  split
  · rw [← ByteArray.size_data, ← ByteArray.size_data, ByteArray.data_set, Array.size_set]
  · rfl

theorem getElem_clearBits (cells : ByteArray) (i j : Nat) (b : UInt8) (hj : j < cells.size)
    (h : j < (clearBits cells i b).size) :
    (clearBits cells i b)[j] = if i = j then cells[j] &&& b else cells[j] := by
  unfold clearBits
  split
  · rename_i hi
    simp only [ByteArray.getElem_eq_getElem_data, ByteArray.data_set]
    rw [Array.getElem_set]
    split <;> simp_all
  · rename_i hi
    have hne : i ≠ j := by rw [size_clearBits] at h; omega
    simp [hne]

/-- One step of programming: clear the bits of a cell, then move to the next. -/
def programStep (acc : ByteArray × Nat) (b : UInt8) : ByteArray × Nat :=
  (clearBits acc.1 acc.2 b, acc.2 + 1)

theorem programCells_eq_foldl (cells : ByteArray) (address : Nat) (bytes : ByteArray) :
    programCells cells address bytes = (bytes.data.toList.foldl programStep (cells, address)).1 := by
  rw [programCells, ByteArray.foldl_eq_foldl_toList]
  rfl

theorem size_foldl_programStep (bs : List UInt8) :
    ∀ (cells : ByteArray) (k : Nat), (bs.foldl programStep (cells, k)).1.size = cells.size := by
  induction bs with
  | nil => intro cells k; rfl
  | cons b bs ih =>
    intro cells k
    rw [List.foldl_cons, programStep, ih, size_clearBits]

theorem getElem_foldl_programStep (bs : List UInt8) :
    ∀ (cells : ByteArray) (k i : Nat) (hi : i < cells.size)
      (h : i < (bs.foldl programStep (cells, k)).1.size),
      (bs.foldl programStep (cells, k)).1[i] =
        if hk : k ≤ i ∧ i < k + bs.length then cells[i] &&& bs[i - k] else cells[i] := by
  induction bs with
  | nil =>
    intro cells k i hi h
    simp only [List.length_nil, Nat.add_zero, List.foldl_nil]
    rw [dif_neg (by omega)]
  | cons b bs ih =>
    intro cells k i hi h
    simp only [List.foldl_cons, programStep] at h ⊢
    rw [ih (clearBits cells k b) (k + 1) i (by rwa [size_clearBits]) h,
      getElem_clearBits _ _ _ _ hi]
    by_cases hk : k = i
    · subst hk
      rw [dif_neg (by omega), dif_pos (by simp), if_pos rfl]
      simp
    · rw [if_neg hk]
      by_cases hin : k + 1 ≤ i ∧ i < k + 1 + bs.length
      · rw [dif_pos hin, dif_pos (by simp; omega)]
        congr 1
        simp only [show i - k = (i - (k + 1)) + 1 by omega, List.getElem_cons_succ]
      · rw [dif_neg hin, dif_neg (by simp; omega)]

theorem size_programCells (cells : ByteArray) (address : Nat) (bytes : ByteArray) :
    (programCells cells address bytes).size = cells.size := by
  rw [programCells_eq_foldl, size_foldl_programStep]

theorem snd_foldl_programStep (bs : List UInt8) :
    ∀ (cells : ByteArray) (k : Nat), (bs.foldl programStep (cells, k)).2 = k + bs.length := by
  induction bs with
  | nil => intro cells k; rfl
  | cons b bs ih =>
    intro cells k
    rw [List.foldl_cons, programStep, ih, List.length_cons]
    omega

@[simp] theorem programCells_empty (cells : ByteArray) (address : Nat) :
    programCells cells address ByteArray.empty = cells := rfl

theorem programCells_append (cells : ByteArray) (address : Nat) (x y : ByteArray) :
    programCells cells address (x ++ y) =
      programCells (programCells cells address x) (address + x.size) y := by
  have hx : x.data.toList.foldl programStep (cells, address) =
      (programCells cells address x, address + x.size) :=
    Prod.ext (programCells_eq_foldl cells address x).symm
      (by rw [snd_foldl_programStep, Array.length_toList, ByteArray.size_data])
  rw [programCells_eq_foldl cells address (x ++ y), ByteArray.data_append, Array.toList_append,
    List.foldl_append, hx, ← programCells_eq_foldl]

theorem getElem_programCells (cells : ByteArray) (address : Nat) (bytes : ByteArray) (i : Nat)
    (hi : i < cells.size) (h : i < (programCells cells address bytes).size) :
    (programCells cells address bytes)[i] =
      if hk : address ≤ i ∧ i < address + bytes.size then cells[i] &&& bytes[i - address]
      else cells[i] := by
  have h' : i < (bytes.data.toList.foldl programStep (cells, address)).1.size := by
    rwa [programCells_eq_foldl] at h
  have key := getElem_foldl_programStep bytes.data.toList cells address i hi h'
  simp only [Array.length_toList, ByteArray.size_data, Array.getElem_toList] at key
  simp only [programCells_eq_foldl, key, ByteArray.getElem_eq_getElem_data]

theorem overwriteCells_eq_append (cells : ByteArray) (address : Nat) (bytes : ByteArray) :
    overwriteCells cells address bytes =
      cells.extract 0 address ++ bytes ++ cells.extract (address + bytes.size) cells.size := by
  rw [overwriteCells, ByteArray.copySlice_eq_append]
  simp only [ByteArray.size_data, Nat.sub_zero, Nat.min_self, Nat.zero_add,
    ByteArray.extract_zero_size]

theorem getElem_overwriteCells {cells : ByteArray} {address : Nat} {bytes : ByteArray}
    (hfit : address + bytes.size ≤ cells.size) (i : Nat) (hi : i < cells.size)
    (h : i < (overwriteCells cells address bytes).size) :
    (overwriteCells cells address bytes)[i] =
      if hk : address ≤ i ∧ i < address + bytes.size then bytes[i - address] else cells[i] := by
  have hs := size_overwriteCells _ _ _ hfit
  simp only [overwriteCells_eq_append]
  split
  · rename_i hi
    rw [ByteArray.getElem_append_left (by simp; omega), ByteArray.getElem_append_right (by simp; omega)]
    congr 1
    simp only [ByteArray.size_extract]
    omega
  · rename_i hi
    by_cases hlo : i < address
    · rw [ByteArray.getElem_append_left (by simp; omega), ByteArray.getElem_append_left (by simp; omega),
        ByteArray.getElem_extract]
      simp
    · rw [ByteArray.getElem_append_right (by simp; omega), ByteArray.getElem_extract]
      congr 1
      simp only [ByteArray.size_append, ByteArray.size_extract]
      omega

theorem programCells_eq_overwriteCells {cells : ByteArray} {address : Nat} {bytes : ByteArray}
    (hfit : address + bytes.size ≤ cells.size) (he : Erased cells address (address + bytes.size)) :
    programCells cells address bytes = overwriteCells cells address bytes := by
  apply ByteArray.ext_getElem
  · rw [size_programCells, size_overwriteCells _ _ _ hfit]
  · intro i h1 h2
    have hi : i < cells.size := by rwa [size_programCells] at h1
    rw [getElem_programCells _ _ _ _ hi, getElem_overwriteCells hfit _ hi]
    split
    · rename_i hk
      rw [he i hi hk.1 hk.2, erased_and]
    · rfl

end Chip

/-! ### The bytes of an area -/

namespace Layout

/-- The contents of area `a` on a flash whose cells are `cells`. -/
def bytes (l : Layout) (cells : ByteArray) (a : Area) : ByteArray :=
  cells.extract (l.info a).address ((l.info a).address + l.areaSize)

/-- Both areas of the partition lie on a flash of `size` bytes. -/
def Inside (l : Layout) (size : Nat) : Prop := l.base + 2 * l.areaSize ≤ size

instance (l : Layout) (size : Nat) : Decidable (l.Inside size) := by
  unfold Inside; infer_instance

variable {l : Layout} {cells : ByteArray}

theorem info_address_add_le (h : l.Inside cells.size) (a : Area) :
    (l.info a).address + l.areaSize ≤ cells.size := by
  unfold Inside at h
  cases a <;> simp [info, Area.index] <;> omega

theorem size_bytes (h : l.Inside cells.size) (a : Area) : (l.bytes cells a).size = l.areaSize := by
  have := info_address_add_le h a
  simp only [bytes, ByteArray.size_extract]
  omega

theorem getElem_bytes (a : Area) (i : Nat)
    (hi : i < (l.bytes cells a).size) (hc : (l.info a).address + i < cells.size) :
    (l.bytes cells a)[i] = cells[(l.info a).address + i] :=
  ByteArray.getElem_extract hi

theorem extract_bytes (a : Area) {offset length : Nat}
    (hr : offset + length ≤ l.areaSize) :
    (l.bytes cells a).extract offset (offset + length) =
      cells.extract ((l.info a).address + offset) ((l.info a).address + offset + length) := by
  simp only [bytes, ByteArray.extract_extract]
  congr 1
  omega

theorem info_disjoint {a a' : Area} (hne : a' ≠ a) {i j : Nat} (hi : i < l.areaSize)
    (hj : j < l.areaSize) : (l.info a).address + i ≠ (l.info a').address + j := by
  cases a <;> cases a' <;> simp_all [info, Area.index] <;> omega

theorem bytes_overwriteCells_self (h : l.Inside cells.size) (a : Area) {offset : Nat}
    {data : ByteArray} (hr : offset + data.size ≤ l.areaSize) :
    l.bytes (Chip.overwriteCells cells ((l.info a).address + offset) data) a =
      Chip.overwriteCells (l.bytes cells a) offset data := by
  have hin := info_address_add_le h a
  have hfit : (l.info a).address + offset + data.size ≤ cells.size := by omega
  have hsize := Chip.size_overwriteCells cells _ data hfit
  have h' : l.Inside (Chip.overwriteCells cells ((l.info a).address + offset) data).size := by
    rw [hsize]; exact h
  have hfit' : offset + data.size ≤ (l.bytes cells a).size := by rw [size_bytes h]; exact hr
  apply ByteArray.ext_getElem
  · rw [size_bytes h', Chip.size_overwriteCells _ _ _ hfit', size_bytes h]
  · intro i h1 h2
    have hi : i < l.areaSize := by rwa [size_bytes h'] at h1
    have hc : (l.info a).address + i < cells.size := by omega
    have hb : i < (l.bytes cells a).size := by rw [size_bytes h]; exact hi
    rw [getElem_bytes a i h1 (by omega), Chip.getElem_overwriteCells hfit _ hc,
      Chip.getElem_overwriteCells hfit' _ hb]
    split
    · rw [dif_pos (by omega)]
      congr 1
      omega
    · rw [dif_neg (by omega), getElem_bytes a i hb hc]

theorem bytes_overwriteCells_other (h : l.Inside cells.size) {a a' : Area} (hne : a' ≠ a)
    {offset : Nat} {data : ByteArray} (hr : offset + data.size ≤ l.areaSize) :
    l.bytes (Chip.overwriteCells cells ((l.info a).address + offset) data) a' = l.bytes cells a' := by
  have hin := info_address_add_le h a
  have hfit : (l.info a).address + offset + data.size ≤ cells.size := by omega
  have hsize := Chip.size_overwriteCells cells _ data hfit
  have h' : l.Inside (Chip.overwriteCells cells ((l.info a).address + offset) data).size := by
    rw [hsize]; exact h
  apply ByteArray.ext_getElem
  · rw [size_bytes h', size_bytes h]
  · intro i h1 h2
    have hj : i < l.areaSize := by rwa [size_bytes h] at h2
    have hc : (l.info a').address + i < cells.size := by
      have := info_address_add_le h a'; omega
    rw [getElem_bytes a' i h1 (by omega), Chip.getElem_overwriteCells hfit _ hc,
      getElem_bytes a' i h2 hc, dif_neg]
    intro hi
    exact info_disjoint hne (i := offset + (((l.info a').address + i) - ((l.info a).address + offset)))
      (by omega) hj (by omega)

theorem bytes_programCells_self (h : l.Inside cells.size) (a : Area) {offset : Nat}
    {data : ByteArray} (hr : offset + data.size ≤ l.areaSize)
    (he : Erased (l.bytes cells a) offset (offset + data.size)) :
    l.bytes (Chip.programCells cells ((l.info a).address + offset) data) a =
      Chip.overwriteCells (l.bytes cells a) offset data := by
  have hin := info_address_add_le h a
  have he' : Erased cells ((l.info a).address + offset) ((l.info a).address + offset + data.size) := by
    intro i hi h1 h2
    have hj : i - (l.info a).address < (l.bytes cells a).size := by rw [size_bytes h]; omega
    have := he _ hj (by omega) (by omega)
    rw [getElem_bytes a _ hj (by omega)] at this
    simpa [show (l.info a).address + (i - (l.info a).address) = i by omega] using this
  rw [Chip.programCells_eq_overwriteCells (by omega) he', bytes_overwriteCells_self h a hr]

theorem bytes_programCells_other (h : l.Inside cells.size) {a a' : Area} (hne : a' ≠ a)
    {offset : Nat} {data : ByteArray} (hr : offset + data.size ≤ l.areaSize) :
    l.bytes (Chip.programCells cells ((l.info a).address + offset) data) a' = l.bytes cells a' := by
  have hin := info_address_add_le h a
  have hsize := Chip.size_programCells cells ((l.info a).address + offset) data
  have h' : l.Inside (Chip.programCells cells ((l.info a).address + offset) data).size := by
    rw [hsize]; exact h
  apply ByteArray.ext_getElem
  · rw [size_bytes h', size_bytes h]
  · intro i h1 h2
    have hj : i < l.areaSize := by rwa [size_bytes h] at h2
    have hc : (l.info a').address + i < cells.size := by
      have := info_address_add_le h a'; omega
    rw [getElem_bytes a' i h1 (by omega), Chip.getElem_programCells _ _ _ _ hc,
      getElem_bytes a' i h2 hc, dif_neg]
    intro hi
    exact info_disjoint hne (i := offset + (((l.info a').address + i) - ((l.info a).address + offset)))
      (by omega) hj (by omega)

theorem size_erasedArea (l : Layout) : (ByteArray.mk (Array.replicate l.areaSize 0xFF)).size =
    l.areaSize := size_replicate_erased _

theorem bytes_erase_self (h : l.Inside cells.size) (a : Area) :
    l.bytes (Chip.overwriteCells cells (l.info a).address
      (ByteArray.mk (Array.replicate l.areaSize 0xFF))) a =
      ByteArray.mk (Array.replicate l.areaSize 0xFF) := by
  have key := @bytes_overwriteCells_self l cells h a 0
    (ByteArray.mk (Array.replicate l.areaSize 0xFF)) (by rw [size_erasedArea]; omega)
  simp only [Nat.add_zero] at key
  rw [key, Chip.overwriteCells_eq_append]
  simp only [size_erasedArea, Nat.zero_add, ByteArray.extract_same, ByteArray.empty_append]
  rw [size_bytes h, ByteArray.extract_same, ByteArray.append_empty]

theorem bytes_erase_other (h : l.Inside cells.size) {a a' : Area} (hne : a' ≠ a) :
    l.bytes (Chip.overwriteCells cells (l.info a).address
      (ByteArray.mk (Array.replicate l.areaSize 0xFF))) a' = l.bytes cells a' := by
  have key := @bytes_overwriteCells_other l cells h a a' hne 0
    (ByteArray.mk (Array.replicate l.areaSize 0xFF)) (by rw [size_erasedArea]; omega)
  simpa using key

end Layout

end NorStore
