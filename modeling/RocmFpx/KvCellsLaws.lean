import RocmFpx.KvCells

/-!
The abstract content of the cells is one record per index. `Coherent` says that
the `used` set and the ordered position sets are the ones computed from these
records, so a coherent object is determined by them (`Coherent.ext_cells`), and
every operation on cell `i` is a function update of `cell` at `i`. The later
modules reason about `cell` only.
-/

namespace RocmFpx

structure KvCell where
  pos : ℤ
  ext : KvCellExt
  shift : ℤ
  seq : Finset ℕ
  deriving DecidableEq

namespace KvCell

def empty : KvCell := ⟨-1, {}, 0, ∅⟩

/-- What `pos_add` leaves behind when it frees a cell. -/
def freed (e : KvCellExt) : KvCell := ⟨-1, e, 0, ∅⟩

/-! The effect of each operation of `KvCells` on the record of its cell. -/

def seqRm (x : KvCell) (s : ℕ) : KvCell :=
  if x.seq.erase s = ∅ then empty else { x with seq := x.seq.erase s }

def seqKeep (x : KvCell) (s : ℕ) : KvCell :=
  if s ∈ x.seq then { x with seq := {s} } else if x.seq ≠ ∅ then empty else x

def posAdd (x : KvCell) (d : ℤ) : KvCell :=
  if x.pos + d < 0 then freed x.ext else { x with pos := x.pos + d, shift := x.shift + d }

def posDiv (x : KvCell) (d : ℤ) : KvCell :=
  { x with pos := x.pos.tdiv d, shift := x.shift + (x.pos - x.pos.tdiv d) }

/-- `set` copies everything but the shift. -/
def overwrite (x y : KvCell) : KvCell := { y with shift := x.shift }

end KvCell

namespace KvCells

def cell (c : KvCells) (i : ℕ) : KvCell := ⟨c.pos i, c.ext i, c.shift i, c.seq i⟩

@[simp] theorem cell_pos (c : KvCells) (i : ℕ) : (c.cell i).pos = c.pos i := rfl
@[simp] theorem cell_ext (c : KvCells) (i : ℕ) : (c.cell i).ext = c.ext i := rfl
@[simp] theorem cell_shift (c : KvCells) (i : ℕ) : (c.cell i).shift = c.shift i := rfl
@[simp] theorem cell_seq (c : KvCells) (i : ℕ) : (c.cell i).seq = c.seq i := rfl

/-- The redundant sets agree with the arrays, an empty cell has no sequence, and
nothing lives past the end. -/
structure Coherent (c : KvCells) : Prop where
  used_iff : ∀ i, i ∈ c.used ↔ c.pos i ≠ -1
  seqPos_iff : ∀ s p i, toLex (p, i) ∈ c.seqPos s ↔ s ∈ c.seq i ∧ c.pos i = p
  empty_seq : ∀ i, c.pos i = -1 → c.seq i = ∅
  bounded : ∀ i, c.pos i ≠ -1 → i < c.size

theorem Coherent.ext_cells {c d : KvCells} (hc : Coherent c) (hd : Coherent d)
    (hsize : c.size = d.size) (hshift : c.hasShift = d.hasShift)
    (hcell : ∀ i, c.cell i = d.cell i) : c = d := by
  have hpos : c.pos = d.pos := funext fun i => congrArg KvCell.pos (hcell i)
  have hext : c.ext = d.ext := funext fun i => congrArg KvCell.ext (hcell i)
  have hsh : c.shift = d.shift := funext fun i => congrArg KvCell.shift (hcell i)
  have hseq : c.seq = d.seq := funext fun i => congrArg KvCell.seq (hcell i)
  have hused : c.used = d.used := by
    ext i
    rw [hc.used_iff, hd.used_iff, hpos]
  have hsp : c.seqPos = d.seqPos := by
    funext s
    ext x
    obtain ⟨⟨p, i⟩, rfl⟩ := toLex.surjective x
    rw [hc.seqPos_iff, hd.seqPos_iff, hpos, hseq]
  cases c
  cases d
  simp_all

theorem init_coherent : Coherent init :=
  ⟨by simp [init], by simp [init], by simp [init], by simp [init]⟩

theorem reset_coherent (c : KvCells) : Coherent c.reset :=
  ⟨by simp [reset, init], by simp [reset, init], by simp [reset, init], by simp [reset, init]⟩

@[simp] theorem resize_size (c : KvCells) (n : ℕ) : (c.resize n).size = n := rfl

theorem resize_coherent (c : KvCells) (n : ℕ) : Coherent (c.resize n) := reset_coherent _

theorem resetShift_coherent {c : KvCells} (h : Coherent c) : Coherent c.resetShift :=
  ⟨h.used_iff, h.seqPos_iff, h.empty_seq, h.bounded⟩

/-! ## One coherence proof for all operations on a single cell -/

theorem mem_seqPosInc (c : KvCells) (s i t : ℕ) (p : ℤ) (j : ℕ) :
    toLex (p, j) ∈ (c.seqPosInc s i).seqPos t ↔
      (t = s ∧ j = i ∧ p = c.pos i) ∨ toLex (p, j) ∈ c.seqPos t := by
  by_cases ht : t = s
  · subst ht
    simp [seqPosInc, and_comm]
  · simp [seqPosInc, ht]

theorem mem_seqPosDec (c : KvCells) (s i t : ℕ) (p : ℤ) (j : ℕ) :
    toLex (p, j) ∈ (c.seqPosDec s i).seqPos t ↔
      ¬(t = s ∧ j = i ∧ p = c.pos i) ∧ toLex (p, j) ∈ c.seqPos t := by
  by_cases ht : t = s
  · subst ht
    simp [seqPosDec, and_comm]
  · simp [seqPosDec, ht]

theorem mem_seqPosAdd (c : KvCells) (i t : ℕ) (p : ℤ) (j : ℕ) :
    toLex (p, j) ∈ (c.seqPosAdd i).seqPos t ↔
      (t ∈ c.seq i ∧ j = i ∧ p = c.pos i) ∨ toLex (p, j) ∈ c.seqPos t := by
  by_cases ht : t ∈ c.seq i <;> simp [seqPosAdd, ht, and_comm]

theorem mem_seqPosRm_iff (c : KvCells) (i s : ℕ) (p : ℤ) (j : ℕ) :
    toLex (p, j) ∈ (c.seqPosRm i).seqPos s ↔
      ¬(s ∈ c.seq i ∧ j = i ∧ p = c.pos i) ∧ toLex (p, j) ∈ c.seqPos s := by
  by_cases hs : s ∈ c.seq i <;> simp [seqPosRm, hs, and_comm]

theorem mem_seqPosRm {c : KvCells} (h : Coherent c) (i s : ℕ) (p : ℤ) (j : ℕ) :
    toLex (p, j) ∈ (c.seqPosRm i).seqPos s ↔ j ≠ i ∧ s ∈ c.seq j ∧ c.pos j = p := by
  rw [mem_seqPosRm_iff, h.seqPos_iff]
  constructor
  · rintro ⟨hnot, hmem, hp⟩
    refine ⟨?_, hmem, hp⟩
    rintro rfl
    exact hnot ⟨hmem, rfl, hp.symm⟩
  · rintro ⟨hne, hmem, hp⟩
    exact ⟨fun hall => hne hall.2.1, hmem, hp⟩

/-- An operation that only touches cell `i` and keeps the two sets in step there
keeps the object coherent. -/
theorem coherent_of_cell_update {c d : KvCells} (h : Coherent c) (i : ℕ) (hsize : d.size = c.size)
    (hother : ∀ j, j ≠ i → d.cell j = c.cell j)
    (hused : ∀ j, j ∈ d.used ↔ if j = i then d.pos i ≠ -1 else j ∈ c.used)
    (hseqPos : ∀ s p j, toLex (p, j) ∈ d.seqPos s ↔
      if j = i then s ∈ d.seq i ∧ d.pos i = p else s ∈ c.seq j ∧ c.pos j = p)
    (hempty : d.pos i = -1 → d.seq i = ∅) (hbound : d.pos i ≠ -1 → i < c.size) : Coherent d := by
  have hpos : ∀ j, j ≠ i → d.pos j = c.pos j := fun j hj => congrArg KvCell.pos (hother j hj)
  have hseq : ∀ j, j ≠ i → d.seq j = c.seq j := fun j hj => congrArg KvCell.seq (hother j hj)
  constructor
  · intro j
    rw [hused]
    split_ifs with hj
    · rw [hj]
    · rw [h.used_iff, hpos j hj]
  · intro s p j
    rw [hseqPos]
    split_ifs with hj
    · rw [hj]
    · rw [hpos j hj, hseq j hj]
  · intro j hj
    by_cases hji : j = i
    · subst hji
      exact hempty hj
    · rw [hseq j hji]
      exact h.empty_seq j (hpos j hji ▸ hj)
  · intro j hj
    rw [hsize]
    by_cases hji : j = i
    · subst hji
      exact hbound hj
    · exact h.bounded j (hpos j hji ▸ hj)

/-! ## Effect and coherence of each operation -/

@[simp] theorem rm_size (c : KvCells) (i : ℕ) : (c.rm i).size = c.size := rfl
@[simp] theorem rm_hasShift (c : KvCells) (i : ℕ) : (c.rm i).hasShift = c.hasShift := rfl

theorem rm_cell (c : KvCells) (i : ℕ) : (c.rm i).cell = Function.update c.cell i .empty := by
  funext j
  by_cases hj : j = i
  · subst hj
    simp [rm, cell, KvCell.empty]
  · simp [rm, cell, seqPosRm, hj]

theorem rm_coherent {c : KvCells} (h : Coherent c) (i : ℕ) : Coherent (c.rm i) := by
  refine coherent_of_cell_update h i rfl ?_ ?_ ?_ ?_ ?_
  · intro j hj
    simp [rm_cell, hj]
  · intro j
    by_cases hj : j = i <;> simp [rm, seqPosRm, hj]
  · intro s p j
    rw [show (c.rm i).seqPos = (c.seqPosRm i).seqPos from rfl, mem_seqPosRm h]
    by_cases hj : j = i <;> simp [rm, hj]
  · simp [rm]
  · simp [rm]

@[simp] theorem posSet_size (c : KvCells) (i : ℕ) (p : ℤ) : (c.posSet i p).size = c.size := rfl
@[simp] theorem posSet_hasShift (c : KvCells) (i : ℕ) (p : ℤ) :
    (c.posSet i p).hasShift = c.hasShift := rfl

theorem posSet_cell (c : KvCells) (i : ℕ) (p : ℤ) :
    (c.posSet i p).cell = Function.update c.cell i { c.cell i with pos := p } := by
  funext j
  by_cases hj : j = i
  · subst hj
    simp [posSet, cell]
  · simp [posSet, cell, hj]

theorem posSet_coherent {c : KvCells} (h : Coherent c) {i : ℕ} {p : ℤ} (hi : i < c.size)
    (hempty : c.pos i = -1) (hp : p ≠ -1) : Coherent (c.posSet i p) := by
  have hseq : c.seq i = ∅ := h.empty_seq i hempty
  refine coherent_of_cell_update h i rfl ?_ ?_ ?_ ?_ ?_
  · intro j hj
    simp [posSet_cell, hj]
  · intro j
    by_cases hj : j = i <;> simp [posSet, hj, hp]
  · intro s q j
    rw [show (c.posSet i p).seqPos = c.seqPos from rfl, h.seqPos_iff]
    by_cases hj : j = i
    · subst hj
      simp [posSet, hseq]
    · simp [hj]
  · simp [posSet, hp]
  · exact fun _ => hi

@[simp] theorem extSet_size (c : KvCells) (i : ℕ) (e : KvCellExt) : (c.extSet i e).size = c.size := rfl
@[simp] theorem extSet_hasShift (c : KvCells) (i : ℕ) (e : KvCellExt) :
    (c.extSet i e).hasShift = c.hasShift := rfl

theorem extSet_cell (c : KvCells) (i : ℕ) (e : KvCellExt) :
    (c.extSet i e).cell = Function.update c.cell i { c.cell i with ext := e } := by
  funext j
  by_cases hj : j = i
  · subst hj
    simp [extSet, cell]
  · simp [extSet, cell, hj]

theorem extSet_coherent {c : KvCells} (h : Coherent c) (i : ℕ) (e : KvCellExt) :
    Coherent (c.extSet i e) :=
  ⟨h.used_iff, h.seqPos_iff, h.empty_seq, h.bounded⟩

@[simp] theorem seqAdd_size (c : KvCells) (i s : ℕ) : (c.seqAdd i s).size = c.size := rfl
@[simp] theorem seqAdd_hasShift (c : KvCells) (i s : ℕ) : (c.seqAdd i s).hasShift = c.hasShift := rfl

theorem seqAdd_cell (c : KvCells) (i s : ℕ) :
    (c.seqAdd i s).cell =
      Function.update c.cell i { c.cell i with seq := insert s (c.seq i) } := by
  funext j
  by_cases hj : j = i
  · subst hj
    simp [seqAdd, seqPosInc, cell]
  · simp [seqAdd, seqPosInc, cell, hj]

theorem seqAdd_coherent {c : KvCells} (h : Coherent c) {i : ℕ} (s : ℕ) (hi : c.pos i ≠ -1) :
    Coherent (c.seqAdd i s) := by
  refine coherent_of_cell_update h i rfl ?_ ?_ ?_ ?_ ?_
  · intro j hj
    simp [seqAdd_cell, hj]
  · intro j
    by_cases hj : j = i
    · subst hj
      simp [seqAdd, seqPosInc, h.used_iff]
    · simp [seqAdd, seqPosInc, hj]
  · intro t p j
    rw [seqAdd, mem_seqPosInc, h.seqPos_iff]
    by_cases hj : j = i
    · subst hj
      simp only [seqPosInc, Function.update_self, Finset.mem_insert, if_true]
      grind
    · simp [hj]
  · intro hpos
    exact absurd hpos hi
  · exact h.bounded i

theorem seqRm_size (c : KvCells) (i s : ℕ) : (c.seqRm i s).1.size = c.size := by
  simp only [seqRm]
  split_ifs <;> rfl

theorem seqRm_hasShift (c : KvCells) (i s : ℕ) : (c.seqRm i s).1.hasShift = c.hasShift := by
  simp only [seqRm]
  split_ifs <;> rfl

theorem seqRm_of_shared {c : KvCells} {i s : ℕ} (hmore : (c.seq i).erase s ≠ ∅) :
    (c.seqRm i s).1 =
      { c with seq := Function.update c.seq i ((c.seq i).erase s) }.seqPosDec s i := by
  simp only [seqRm, seqPosDec, Function.update_self, if_neg hmore]

theorem seqRm_cell (c : KvCells) (i s : ℕ) :
    (c.seqRm i s).1.cell = Function.update c.cell i ((c.cell i).seqRm s) := by
  funext j
  by_cases hlast : (c.seq i).erase s = ∅
  · have hx : (c.cell i).seqRm s = .empty := if_pos hlast
    rw [hx]
    by_cases hj : j = i
    · subst hj
      simp [seqRm, seqPosDec, cell, KvCell.empty, hlast]
    · simp [seqRm, seqPosDec, cell, hlast, hj]
  · have hx : (c.cell i).seqRm s = { c.cell i with seq := (c.seq i).erase s } := if_neg hlast
    rw [hx, seqRm_of_shared hlast]
    by_cases hj : j = i
    · subst hj
      simp [seqPosDec, cell]
    · simp [seqPosDec, cell, hj]

theorem seqRm_of_last {c : KvCells} (h : Coherent c) {i s : ℕ} (hlast : (c.seq i).erase s = ∅) :
    (c.seqRm i s).1 = c.rm i := by
  have hsub : ∀ t ∈ c.seq i, t = s := by
    intro t ht
    by_contra hne
    exact Finset.notMem_empty t (hlast ▸ Finset.mem_erase.mpr ⟨hne, ht⟩)
  have hseqPos : Function.update c.seqPos s ((c.seqPos s).erase (toLex (c.pos i, i))) =
      (c.seqPosRm i).seqPos := by
    funext t
    by_cases ht : t = s
    · subst ht
      by_cases hin : t ∈ c.seq i
      · simp [seqPosRm, hin]
      · have : toLex (c.pos i, i) ∉ c.seqPos t := by simp [h.seqPos_iff, hin]
        simp [seqPosRm, hin, this]
    · have : t ∉ c.seq i := fun hin => ht (hsub t hin)
      simp [seqPosRm, this, ht]
  simp only [seqRm, seqPosDec, Function.update_self, hlast, if_true]
  rw [hseqPos]
  simp [rm, seqPosRm]

theorem seqRm_coherent {c : KvCells} (h : Coherent c) (i s : ℕ) : Coherent (c.seqRm i s).1 := by
  by_cases hlast : (c.seq i).erase s = ∅
  · rw [seqRm_of_last h hlast]
    exact rm_coherent h i
  have hin : c.pos i ≠ -1 := fun hpos => hlast (by simp [h.empty_seq i hpos])
  rw [seqRm_of_shared hlast]
  refine coherent_of_cell_update h i rfl ?_ ?_ ?_ ?_ ?_
  · intro j hj
    simp [cell, seqPosDec, hj]
  · intro j
    by_cases hj : j = i
    · subst hj
      simp [seqPosDec, h.used_iff]
    · simp [seqPosDec, hj]
  · intro t p j
    rw [mem_seqPosDec, h.seqPos_iff]
    by_cases hj : j = i
    · subst hj
      simp only [seqPosDec, Function.update_self, Finset.mem_erase, if_true]
      grind
    · simp [hj]
  · exact fun hpos => absurd hpos hin
  · exact fun _ => h.bounded i hin

theorem seqKeep_of_mem {c : KvCells} {i s : ℕ} (hs : s ∈ c.seq i) :
    c.seqKeep i s =
      ({ c.seqPosRm i with seq := Function.update c.seq i {s} }.seqPosInc s i, false) := by
  simp [seqKeep, hs, seqPosRm]

theorem seqKeep_of_other {c : KvCells} {i s : ℕ} (hs : s ∉ c.seq i) (hne : c.seq i ≠ ∅) :
    c.seqKeep i s = (c.rm i, true) := by
  simp [seqKeep, hs, hne]

theorem seqKeep_of_empty {c : KvCells} {i : ℕ} (s : ℕ) (hempty : c.seq i = ∅) :
    c.seqKeep i s = (c, false) := by
  simp [seqKeep, hempty]

theorem seqKeep_size (c : KvCells) (i s : ℕ) : (c.seqKeep i s).1.size = c.size := by
  simp only [seqKeep]
  split_ifs <;> rfl

theorem seqKeep_cell (c : KvCells) (i s : ℕ) :
    (c.seqKeep i s).1.cell = Function.update c.cell i ((c.cell i).seqKeep s) := by
  by_cases hs : s ∈ c.seq i
  · have hx : (c.cell i).seqKeep s = { c.cell i with seq := {s} } := if_pos hs
    rw [hx, seqKeep_of_mem hs]
    funext j
    by_cases hj : j = i
    · subst hj
      simp [cell, seqPosRm, seqPosInc]
    · simp [cell, seqPosRm, seqPosInc, hj]
  by_cases hempty : c.seq i = ∅
  · have hx : (c.cell i).seqKeep s = c.cell i := by simp [KvCell.seqKeep, hempty]
    rw [hx, seqKeep_of_empty s hempty, Function.update_eq_self]
  · have hx : (c.cell i).seqKeep s = .empty := by simp [KvCell.seqKeep, hs, hempty]
    rw [hx, seqKeep_of_other hs hempty, rm_cell]

theorem seqKeep_coherent {c : KvCells} (h : Coherent c) (i s : ℕ) :
    Coherent (c.seqKeep i s).1 := by
  by_cases hs : s ∈ c.seq i
  · have hin : c.pos i ≠ -1 := by
      intro hpos
      simp [h.empty_seq i hpos] at hs
    rw [seqKeep_of_mem hs]
    refine coherent_of_cell_update h i rfl ?_ ?_ ?_ ?_ ?_
    · intro j hj
      simp [cell, seqPosRm, seqPosInc, hj]
    · intro j
      by_cases hj : j = i
      · subst hj
        simp [seqPosRm, seqPosInc, h.used_iff]
      · simp [seqPosRm, seqPosInc, hj]
    · intro t p j
      have hold := mem_seqPosRm h i t p j
      rw [mem_seqPosInc]
      by_cases hj : j = i
      · subst hj
        simp only [seqPosInc, Function.update_self, Finset.mem_singleton, if_true]
        grind [seqPosRm]
      · simp [hold, hj]
    · exact fun hpos => absurd hpos hin
    · exact fun _ => h.bounded i hin
  by_cases hempty : c.seq i = ∅
  · rw [seqKeep_of_empty s hempty]
    exact h
  · rw [seqKeep_of_other hs hempty]
    exact rm_coherent h i

theorem posAdd_of_neg {c : KvCells} {i : ℕ} {d : ℤ} (hneg : c.pos i + d < 0) :
    c.posAdd i d =
      ({ c.seqPosRm i with
          hasShift := true
          pos := Function.update (Function.update c.pos i (c.pos i + d)) i (-1)
          shift := Function.update (Function.update c.shift i (c.shift i + d)) i 0
          seq := Function.update c.seq i ∅
          used := c.used.erase i }, true) := by
  simp [posAdd, seqPosRm, hneg]

theorem posAdd_of_nonneg {c : KvCells} {i : ℕ} {d : ℤ} (hpos : 0 ≤ c.pos i + d) :
    c.posAdd i d =
      ({ c.seqPosRm i with
          hasShift := true
          pos := Function.update c.pos i (c.pos i + d)
          shift := Function.update c.shift i (c.shift i + d) }.seqPosAdd i, false) := by
  simp [posAdd, seqPosRm, not_lt.mpr hpos]

theorem posAdd_size (c : KvCells) (i : ℕ) (d : ℤ) : (c.posAdd i d).1.size = c.size := by
  simp only [posAdd]
  split_ifs <;> rfl

theorem posAdd_cell (c : KvCells) (i : ℕ) (d : ℤ) :
    (c.posAdd i d).1.cell = Function.update c.cell i ((c.cell i).posAdd d) := by
  funext j
  by_cases hneg : c.pos i + d < 0
  · have hx : (c.cell i).posAdd d = .freed (c.ext i) := if_pos hneg
    rw [hx, posAdd_of_neg hneg]
    by_cases hj : j = i
    · subst hj
      simp [cell, KvCell.freed, seqPosRm]
    · simp [cell, seqPosRm, hj]
  · have hx : (c.cell i).posAdd d =
        { c.cell i with pos := c.pos i + d, shift := c.shift i + d } := if_neg hneg
    rw [hx, posAdd_of_nonneg (not_lt.mp hneg)]
    by_cases hj : j = i
    · subst hj
      simp [cell, seqPosRm, seqPosAdd]
    · simp [cell, seqPosRm, seqPosAdd, hj]

theorem posAdd_coherent {c : KvCells} (h : Coherent c) {i : ℕ} (d : ℤ) (hi : c.pos i ≠ -1) :
    Coherent (c.posAdd i d).1 := by
  have hother : ∀ j, j ≠ i → (c.posAdd i d).1.cell j = c.cell j := by
    intro j hj
    rw [posAdd_cell, Function.update_of_ne hj]
  refine coherent_of_cell_update h i (posAdd_size c i d) hother ?_ ?_ ?_ ?_
  · intro j
    by_cases hneg : c.pos i + d < 0
    · rw [posAdd_of_neg hneg]
      by_cases hj : j = i <;> simp [hj]
    · rw [posAdd_of_nonneg (not_lt.mp hneg)]
      by_cases hj : j = i
      · subst hj
        simp only [seqPosAdd, seqPosRm, Function.update_self, if_true, h.used_iff]
        omega
      · simp [seqPosAdd, seqPosRm, hj]
  · intro s p j
    by_cases hneg : c.pos i + d < 0
    · rw [posAdd_of_neg hneg]
      simp only [mem_seqPosRm h, Function.update_self]
      by_cases hj : j = i <;> simp [hj]
    · rw [posAdd_of_nonneg (not_lt.mp hneg)]
      simp only [mem_seqPosAdd, mem_seqPosRm h]
      by_cases hj : j = i
      · subst hj
        simp [seqPosAdd, seqPosRm, eq_comm]
      · simp [hj]
  · intro hpos
    by_cases hneg : c.pos i + d < 0
    · simp [posAdd_of_neg hneg]
    · rw [posAdd_of_nonneg (not_lt.mp hneg)] at hpos
      simp only [seqPosAdd, seqPosRm, Function.update_self] at hpos
      omega
  · exact fun _ => h.bounded i hi

@[simp] theorem posDiv_size (c : KvCells) (i : ℕ) (d : ℤ) : (c.posDiv i d).size = c.size := rfl
@[simp] theorem posDiv_hasShift (c : KvCells) (i : ℕ) (d : ℤ) : (c.posDiv i d).hasShift = true := rfl

theorem posDiv_cell (c : KvCells) (i : ℕ) (d : ℤ) :
    (c.posDiv i d).cell = Function.update c.cell i ((c.cell i).posDiv d) := by
  funext j
  by_cases hj : j = i
  · subst hj
    simp [posDiv, KvCell.posDiv, cell, seqPosRm, seqPosAdd]
  · simp [posDiv, cell, seqPosRm, seqPosAdd, hj]

theorem posDiv_coherent {c : KvCells} (h : Coherent c) {i : ℕ} {d : ℤ} (hi : c.pos i ≠ -1)
    (hd : (c.pos i).tdiv d ≠ -1) : Coherent (c.posDiv i d) := by
  have hpos : (c.posDiv i d).pos i = (c.pos i).tdiv d := by
    simp [posDiv, seqPosRm, seqPosAdd]
  refine coherent_of_cell_update h i rfl ?_ ?_ ?_ ?_ ?_
  · intro j hj
    rw [posDiv_cell, Function.update_of_ne hj]
  · intro j
    rw [hpos]
    by_cases hj : j = i
    · subst hj
      simp [posDiv, seqPosRm, seqPosAdd, h.used_iff, hi, hd]
    · simp [posDiv, seqPosRm, seqPosAdd, hj]
  · intro s p j
    simp only [posDiv, mem_seqPosAdd, mem_seqPosRm h]
    by_cases hj : j = i
    · subst hj
      simp [seqPosAdd, seqPosRm, eq_comm]
    · simp [hj]
  · rw [hpos]
    exact fun h' => absurd h' hd
  · exact fun _ => h.bounded i hi

/-! ## The bounds of a sequence -/

theorem Coherent.mem_seqPos {c : KvCells} (h : Coherent c) (s : ℕ) (x : ℤ ×ₗ ℕ) :
    x ∈ c.seqPos s ↔ s ∈ c.seq (ofLex x).2 ∧ c.pos (ofLex x).2 = (ofLex x).1 :=
  h.seqPos_iff s (ofLex x).1 (ofLex x).2

theorem Coherent.pos_of_seq {c : KvCells} (h : Coherent c) {s i : ℕ} (hs : s ∈ c.seq i) :
    c.pos i ≠ -1 := by
  intro hpos
  rw [h.empty_seq i hpos] at hs
  exact Finset.notMem_empty s hs

theorem Coherent.lt_size {c : KvCells} (h : Coherent c) {s i : ℕ} (hs : s ∈ c.seq i) :
    i < c.size := h.bounded i (h.pos_of_seq hs)

theorem Coherent.seqPosMin_of_absent {c : KvCells} (h : Coherent c) {s : ℕ}
    (habs : ∀ i, s ∉ c.seq i) : c.seqPosMin s = -1 := by
  rw [seqPosMin, dif_neg]
  rintro ⟨x, hx⟩
  exact habs _ ((h.mem_seqPos s x).mp hx).1

theorem Coherent.seqPosMax_of_absent {c : KvCells} (h : Coherent c) {s : ℕ}
    (habs : ∀ i, s ∉ c.seq i) : c.seqPosMax s = -1 := by
  rw [seqPosMax, dif_neg]
  rintro ⟨x, hx⟩
  exact habs _ ((h.mem_seqPos s x).mp hx).1

theorem Coherent.seqPosMin_le {c : KvCells} (h : Coherent c) {s i : ℕ} (hs : s ∈ c.seq i) :
    c.seqPosMin s ≤ c.pos i := by
  have hmem : toLex (c.pos i, i) ∈ c.seqPos s := (h.seqPos_iff s _ i).mpr ⟨hs, rfl⟩
  rw [seqPosMin, dif_pos ⟨_, hmem⟩]
  have hle := Finset.min'_le _ _ hmem
  rcases Prod.Lex.le_iff.mp hle with hlt | ⟨heq, -⟩
  · exact hlt.le
  · exact heq.le

theorem Coherent.le_seqPosMax {c : KvCells} (h : Coherent c) {s i : ℕ} (hs : s ∈ c.seq i) :
    c.pos i ≤ c.seqPosMax s := by
  have hmem : toLex (c.pos i, i) ∈ c.seqPos s := (h.seqPos_iff s _ i).mpr ⟨hs, rfl⟩
  rw [seqPosMax, dif_pos ⟨_, hmem⟩]
  have hle := Finset.le_max' _ _ hmem
  rcases Prod.Lex.le_iff.mp hle with hlt | ⟨heq, -⟩
  · exact hlt.le
  · exact heq.le

theorem Coherent.seqPosMin_mem {c : KvCells} (h : Coherent c) {s i : ℕ} (hs : s ∈ c.seq i) :
    ∃ j, s ∈ c.seq j ∧ c.pos j = c.seqPosMin s := by
  have hmem : toLex (c.pos i, i) ∈ c.seqPos s := (h.seqPos_iff s _ i).mpr ⟨hs, rfl⟩
  rw [seqPosMin, dif_pos ⟨_, hmem⟩]
  exact ⟨_, (h.mem_seqPos s _).mp (Finset.min'_mem _ _)⟩

theorem Coherent.seqPosMax_mem {c : KvCells} (h : Coherent c) {s i : ℕ} (hs : s ∈ c.seq i) :
    ∃ j, s ∈ c.seq j ∧ c.pos j = c.seqPosMax s := by
  have hmem : toLex (c.pos i, i) ∈ c.seqPos s := (h.seqPos_iff s _ i).mpr ⟨hs, rfl⟩
  rw [seqPosMax, dif_pos ⟨_, hmem⟩]
  exact ⟨_, (h.mem_seqPos s _).mp (Finset.max'_mem _ _)⟩

end KvCells
end RocmFpx
