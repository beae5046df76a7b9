import RocmFpx.KvCellsLaws
import RocmFpx.PointwiseLoop

/-!
`cp` and `set`. The argument of `set` need not be a copy taken by `cp`, so the cells
written may be empty and still carry sequences; `Synced` is what survives in general.
-/

namespace RocmFpx
namespace KvCells

open PointwiseLoop

/-- `Coherent` without the clause on empty cells. -/
structure Synced (c : KvCells) : Prop where
  used_iff : ∀ i, i ∈ c.used ↔ c.pos i ≠ -1
  seqPos_iff : ∀ s p i, toLex (p, i) ∈ c.seqPos s ↔ c.pos i ≠ -1 ∧ s ∈ c.seq i ∧ c.pos i = p
  bounded : ∀ i, c.pos i ≠ -1 → i < c.size

theorem Coherent.synced {c : KvCells} (h : Coherent c) : Synced c := by
  refine ⟨h.used_iff, fun s p i => ?_, h.bounded⟩
  rw [h.seqPos_iff]
  exact ⟨fun hs => ⟨h.pos_of_seq hs.1, hs⟩, fun hs => hs.2⟩

theorem Synced.coherent {c : KvCells} (h : Synced c) (hempty : ∀ i, c.pos i = -1 → c.seq i = ∅) :
    Coherent c := by
  refine ⟨h.used_iff, fun s p i => ?_, hempty, h.bounded⟩
  rw [h.seqPos_iff]
  refine ⟨fun hs => hs.2, fun hs => ⟨fun hpos => ?_, hs⟩⟩
  rw [hempty i hpos] at hs
  exact Finset.notMem_empty s hs.1

/-! ## Writing one cell -/

@[simp] theorem setCell_size (c : KvCells) (idx : ℕ) (other : KvCells) (j : ℕ) :
    (c.setCell idx other j).size = c.size := by
  simp only [setCell]
  split_ifs <;> rfl

@[simp] theorem setCell_hasShift (c : KvCells) (idx : ℕ) (other : KvCells) (j : ℕ) :
    (c.setCell idx other j).hasShift = c.hasShift := by
  simp only [setCell]
  split_ifs <;> rfl

theorem setCell_cell (c : KvCells) (idx : ℕ) (other : KvCells) (j : ℕ) :
    (c.setCell idx other j).cell =
      Function.update c.cell idx ((c.cell idx).overwrite (other.cell j)) := by
  funext k
  by_cases hk : k = idx
  · subst hk
    simp only [setCell, Function.update_self]
    split_ifs <;> simp [cell, seqPosRm, seqPosAdd, KvCell.overwrite]
  · simp only [setCell, Function.update_of_ne hk]
    split_ifs <;> simp [cell, seqPosRm, seqPosAdd, hk]

theorem setCell_used (c : KvCells) (idx : ℕ) (other : KvCells) (j : ℕ) (h : Synced c) (k : ℕ) :
    k ∈ (c.setCell idx other j).used ↔ if k = idx then other.pos j ≠ -1 else k ∈ c.used := by
  have hidx := h.used_iff idx
  simp only [setCell]
  by_cases hk : k = idx
  · subst hk
    split_ifs <;> simp_all [seqPosRm, seqPosAdd]
  · split_ifs <;> simp_all [seqPosRm, seqPosAdd]

theorem setCell_mem_seqPos (c : KvCells) (idx : ℕ) (other : KvCells) (j : ℕ) (h : Synced c)
    (s : ℕ) (p : ℤ) (k : ℕ) :
    toLex (p, k) ∈ (c.setCell idx other j).seqPos s ↔
      if k = idx then other.pos j ≠ -1 ∧ s ∈ other.seq j ∧ other.pos j = p
      else toLex (p, k) ∈ c.seqPos s := by
  -- after the removal nothing of `idx` is left
  have removed : ∀ d : KvCells, d.seqPos = c.seqPos → d.pos = c.pos → d.seq = c.seq →
      (toLex (p, k) ∈ (if d.pos idx ≠ -1 then d.seqPosRm idx else d).seqPos s ↔
        k ≠ idx ∧ toLex (p, k) ∈ c.seqPos s) := by
    intro d hd hp hs
    have hmem := h.seqPos_iff s p k
    split_ifs with hpos
    · rw [mem_seqPosRm_iff, hd, hp, hs, hmem]
      grind
    · rw [hd, hmem]
      grind
  have added : ∀ d : KvCells, d.pos idx = other.pos j → d.seq idx = other.seq j →
      (toLex (p, k) ∈ d.seqPos s ↔ k ≠ idx ∧ toLex (p, k) ∈ c.seqPos s) →
      (toLex (p, k) ∈ (if d.pos idx ≠ -1 then d.seqPosAdd idx else d).seqPos s ↔
        if k = idx then other.pos j ≠ -1 ∧ s ∈ other.seq j ∧ other.pos j = p
        else toLex (p, k) ∈ c.seqPos s) := by
    intro d hp hs hmem
    by_cases hpos : d.pos idx = -1
    · rw [if_neg (not_not.mpr hpos), hmem]
      by_cases hk : k = idx <;> simp [hk, hp ▸ hpos]
    · rw [if_pos hpos, mem_seqPosAdd, hmem, hp, hs]
      by_cases hk : k = idx
      · simp [hk, hp ▸ hpos, eq_comm]
      · simp [hk]
  refine added _ (by simp) (by simp) ?_
  refine removed _ ?_ ?_ ?_ <;> split_ifs <;> rfl

theorem setCell_synced {c : KvCells} (h : Synced c) {idx : ℕ} (hidx : idx < c.size)
    (other : KvCells) (j : ℕ) : Synced (c.setCell idx other j) := by
  have hcell := setCell_cell c idx other j
  have hpos : ∀ k, (c.setCell idx other j).pos k =
      if k = idx then other.pos j else c.pos k := by
    intro k
    rw [← cell_pos, hcell]
    by_cases hk : k = idx <;> simp [hk, KvCell.overwrite]
  have hseq : ∀ k, (c.setCell idx other j).seq k =
      if k = idx then other.seq j else c.seq k := by
    intro k
    rw [← cell_seq, hcell]
    by_cases hk : k = idx <;> simp [hk, KvCell.overwrite]
  refine ⟨fun k => ?_, fun s p k => ?_, fun k hk => ?_⟩
  · rw [setCell_used c idx other j h, hpos]
    split_ifs
    · rfl
    · exact h.used_iff k
  · rw [setCell_mem_seqPos c idx other j h, hpos, hseq]
    split_ifs
    · rfl
    · exact h.seqPos_iff s p k
  · rw [setCell_size]
    rw [hpos] at hk
    split_ifs at hk with hki
    · exact hki ▸ hidx
    · exact h.bounded k hk

theorem setCell_coherent {c : KvCells} (h : Coherent c) {idx : ℕ} (hidx : idx < c.size)
    {other : KvCells} {j : ℕ} (hclean : other.pos j = -1 → other.seq j = ∅) :
    Coherent (c.setCell idx other j) := by
  refine (setCell_synced h.synced hidx other j).coherent fun k hk => ?_
  have hcell := congrFun (setCell_cell c idx other j) k
  rw [← cell_pos, hcell] at hk
  rw [← cell_seq, hcell]
  by_cases hki : k = idx
  · subst hki
    rw [Function.update_self] at hk ⊢
    exact hclean hk
  · rw [Function.update_of_ne hki] at hk ⊢
    exact h.empty_seq k hk

/-! ## Writing a whole copy -/

theorem setCell_pointwise (other : KvCells) (slot : ℕ → ℕ) :
    Pointwise cell (fun c j => c.setCell (slot j) other j) slot
      (fun j x => x.overwrite (other.cell j)) :=
  fun c j => setCell_cell c (slot j) other j

/-- Both overloads of `set` are this loop over the slots. -/
def setLoop (c : KvCells) (slot : ℕ → ℕ) (other : KvCells) : KvCells :=
  (List.range other.size).foldl (fun c j => c.setCell (slot j) other j) c

theorem set_eq_setLoop (c : KvCells) (i : ℕ) (other : KvCells) :
    c.set i other = c.setLoop (i + ·) other := rfl

theorem setIdxs_eq_setLoop (c : KvCells) (idxs : List ℕ) (other : KvCells) :
    c.setIdxs idxs other = c.setLoop (idxs.getD · 0) other := rfl

theorem setLoop_synced {c : KvCells} (h : Synced c) {slot : ℕ → ℕ} {other : KvCells}
    (hslot : ∀ j < other.size, slot j < c.size) :
    Synced (c.setLoop slot other) ∧ (c.setLoop slot other).size = c.size := by
  have hinv := List.foldlRecOn (List.range other.size) (fun c j => c.setCell (slot j) other j)
    (motive := fun d => Synced d ∧ d.size = c.size) ⟨h, rfl⟩ (fun d hd j hj => by
      refine ⟨setCell_synced hd.1 ?_ other j, by rw [setCell_size, hd.2]⟩
      rw [hd.2]
      exact hslot j (List.mem_range.mp hj))
  exact hinv

theorem setLoop_size (c : KvCells) (slot : ℕ → ℕ) (other : KvCells) :
    (c.setLoop slot other).size = c.size :=
  List.foldlRecOn _ _ (motive := fun d : KvCells => d.size = c.size) rfl
    (fun d hd j _ => by rw [setCell_size, hd])

theorem setLoop_hasShift (c : KvCells) (slot : ℕ → ℕ) (other : KvCells) :
    (c.setLoop slot other).hasShift = c.hasShift :=
  List.foldlRecOn _ _ (motive := fun d : KvCells => d.hasShift = c.hasShift) rfl
    (fun d hd j _ => by rw [setCell_hasShift, hd])

theorem setLoop_cell_other (c : KvCells) (slot : ℕ → ℕ) (other : KvCells) {k : ℕ}
    (hk : ∀ j < other.size, slot j ≠ k) : (c.setLoop slot other).cell k = c.cell k := by
  refine (setCell_pointwise other slot).foldl_of_notMem _ c ?_
  rw [List.mem_map]
  rintro ⟨j, hj, rfl⟩
  exact hk j (List.mem_range.mp hj) rfl

theorem setLoop_cell_last (c : KvCells) (slot : ℕ → ℕ) (other : KvCells) {j : ℕ}
    (hj : j < other.size) (hlast : ∀ k, j < k → k < other.size → slot k ≠ slot j) :
    (c.setLoop slot other).cell (slot j) = (c.cell (slot j)).overwrite (other.cell j) :=
  (setCell_pointwise other slot).foldl_range_last (fun _ _ _ => rfl) c hj hlast

/-! ## Copies -/

theorem cpIdxs_cell (c : KvCells) (idxs : List ℕ) {j : ℕ} (hj : j < idxs.length) :
    (c.cpIdxs idxs).cell j = { c.cell idxs[j] with shift := 0 } := by
  simp [cpIdxs, cell, init, hj]

end KvCells
end RocmFpx
