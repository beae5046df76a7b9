import RocmFpx.KvCache
import RocmFpx.KvCellsLaws
import RocmFpx.PointwiseLoop

/-!
The loops of the sequence operations, read cell by cell: `CellBody` says which function
of the cell record a loop body computes, and the loop then applies it to every cell.
-/

namespace RocmFpx

open PointwiseLoop

namespace KvCell

def posIn (x : KvCell) (p₀ p₁ : ℤ) : Bool := decide (x.pos ≥ p₀) && decide (x.pos < p₁)

def seqRmIn (s : ℕ) (p₀ p₁ : ℤ) (x : KvCell) : KvCell :=
  if x.posIn p₀ p₁ ∧ s ∈ x.seq then x.seqRm s else x

def rmIn (p₀ p₁ : ℤ) (x : KvCell) : KvCell := if x.posIn p₀ p₁ then empty else x

def seqAddIn (s : ℕ) (p₀ p₁ d : ℤ) (x : KvCell) : KvCell :=
  if x.posIn p₀ p₁ ∧ s ∈ x.seq then x.posAdd d else x

def seqDivIn (s : ℕ) (p₀ p₁ d : ℤ) (x : KvCell) : KvCell :=
  if x.posIn p₀ p₁ ∧ s ∈ x.seq then x.posDiv d else x

def seqCpIn (src dst : ℕ) (p₀ p₁ : ℤ) (x : KvCell) : KvCell :=
  if x.posIn p₀ p₁ ∧ src ∈ x.seq then { x with seq := insert dst x.seq } else x

end KvCell

theorem rangeBegin_nonneg (p₀ : ℤ) : 0 ≤ rangeBegin p₀ := by
  rw [rangeBegin]
  split_ifs <;> omega

theorem rangeBegin_of_nonneg {p₀ : ℤ} (h : 0 ≤ p₀) : rangeBegin p₀ = p₀ := if_neg (not_lt.mpr h)

theorem rangeEnd_of_nonneg {p₁ : ℤ} (h : 0 ≤ p₁) : rangeEnd p₁ = p₁ := if_neg (not_lt.mpr h)

theorem KvCell.posIn_iff {x : KvCell} {p₀ p₁ : ℤ} :
    x.posIn p₀ p₁ = true ↔ p₀ ≤ x.pos ∧ x.pos < p₁ := by
  simp only [KvCell.posIn, Bool.and_eq_true, decide_eq_true_eq, ge_iff_le]

theorem KvCell.posIn_ne {x : KvCell} {p₀ p₁ : ℤ} (h : x.posIn (rangeBegin p₀) p₁ = true) :
    x.pos ≠ -1 := by
  have := (KvCell.posIn_iff.1 h).1
  have := rangeBegin_nonneg p₀
  omega

namespace KvCache

/-! ## The loops over a stream -/

theorem guard_iff (cells : KvCells) (i s : ℕ) (p₀ p₁ : ℤ) :
    (cells.posIn i p₀ p₁ && cells.seqHas i s) = true ↔
      (cells.cell i).posIn p₀ p₁ = true ∧ s ∈ (cells.cell i).seq := by
  rw [Bool.and_eq_true, KvCells.seqHas, decide_eq_true_eq]
  exact Iff.rfl

theorem seqRmBody_cell (s : ℕ) (p₀ p₁ : ℤ) (cells : KvCells) (i : ℕ) :
    (seqRmBody s p₀ p₁ cells i).1.cell =
      Function.update cells.cell i ((cells.cell i).seqRmIn s p₀ p₁) := by
  simp only [seqRmBody, KvCell.seqRmIn]
  by_cases h : (cells.cell i).posIn p₀ p₁ = true ∧ s ∈ (cells.cell i).seq
  · rw [if_pos ((guard_iff ..).mpr h), KvCells.seqRm_cell, if_pos h]
  · rw [if_neg (mt (guard_iff ..).mp h), if_neg h, Function.update_eq_self]

theorem rmBody_cell (p₀ p₁ : ℤ) (cells : KvCells) (i : ℕ) :
    (rmBody p₀ p₁ cells i).1.cell = Function.update cells.cell i ((cells.cell i).rmIn p₀ p₁) := by
  simp only [rmBody, KvCell.rmIn]
  by_cases h : cells.posIn i p₀ p₁ = true
  · have hx : (cells.cell i).posIn p₀ p₁ = true := h
    rw [if_pos h, if_pos hx, KvCells.rm_cell]
  · have hx : ¬(cells.cell i).posIn p₀ p₁ = true := h
    rw [if_neg h, if_neg hx, Function.update_eq_self]

theorem seqAddBody_cell (s : ℕ) (p₀ p₁ d : ℤ) (cells : KvCells) (i : ℕ) :
    (seqAddBody s p₀ p₁ d cells i).1.cell =
      Function.update cells.cell i ((cells.cell i).seqAddIn s p₀ p₁ d) := by
  simp only [seqAddBody, KvCell.seqAddIn]
  by_cases h : (cells.cell i).posIn p₀ p₁ = true ∧ s ∈ (cells.cell i).seq
  · rw [if_pos ((guard_iff ..).mpr h), KvCells.posAdd_cell, if_pos h]
  · rw [if_neg (mt (guard_iff ..).mp h), if_neg h, Function.update_eq_self]

theorem seqDivBody_cell (s : ℕ) (p₀ p₁ d : ℤ) (cells : KvCells) (i : ℕ) :
    (seqDivBody s p₀ p₁ d cells i).cell =
      Function.update cells.cell i ((cells.cell i).seqDivIn s p₀ p₁ d) := by
  simp only [seqDivBody, KvCell.seqDivIn]
  by_cases h : (cells.cell i).posIn p₀ p₁ = true ∧ s ∈ (cells.cell i).seq
  · rw [if_pos ((guard_iff ..).mpr h), KvCells.posDiv_cell, if_pos h]
  · rw [if_neg (mt (guard_iff ..).mp h), if_neg h, Function.update_eq_self]

theorem seqCpBody_cell (src dst : ℕ) (p₀ p₁ : ℤ) (cells : KvCells) (i : ℕ) :
    (seqCpBody src dst p₀ p₁ cells i).cell =
      Function.update cells.cell i ((cells.cell i).seqCpIn src dst p₀ p₁) := by
  simp only [seqCpBody, KvCell.seqCpIn]
  by_cases h : (cells.cell i).posIn p₀ p₁ = true ∧ src ∈ (cells.cell i).seq
  · rw [if_pos ((guard_iff ..).mpr h), KvCells.seqAdd_cell, if_pos h]
    rfl
  · rw [if_neg (mt (guard_iff ..).mp h), if_neg h, Function.update_eq_self]

/-- What a loop body does to its cell, and that it keeps the sets in step. -/
structure CellBody (body : KvCells → ℕ → KvCells) (f : KvCell → KvCell) (P : KvCells → Prop) :
    Prop where
  cell : ∀ cells i, (body cells i).cell = Function.update cells.cell i (f (cells.cell i))
  size : ∀ cells i, (body cells i).size = cells.size
  keep : ∀ cells i, P cells → P (body cells i)
  untouched : ∀ x : KvCell, x.pos = -1 → x.seq = ∅ → f x = x

section

variable {f : KvCell → KvCell} {P : KvCells → Prop}

theorem CellBody.loop_cell {body : KvCells → ℕ → KvCells} (h : CellBody body f P) {cells : KvCells}
    (hc : cells.Coherent) (i : ℕ) :
    ((List.range cells.size).foldl body cells).cell i = f (cells.cell i) := by
  have hp : Pointwise KvCells.cell body id (fun _ => f) := fun c i => h.cell c i
  rw [hp.foldl_range]
  split_ifs with hi
  · rfl
  · have hpos : cells.pos i = -1 := by
      by_contra hne
      exact hi (hc.bounded i hne)
    exact (h.untouched _ hpos (hc.empty_seq i hpos)).symm

theorem CellBody.loop_size {body : KvCells → ℕ → KvCells} (h : CellBody body f P) (cells : KvCells)
    (n : ℕ) : ((List.range n).foldl body cells).size = cells.size :=
  List.foldlRecOn _ _ (motive := fun d : KvCells => d.size = cells.size) rfl
    (fun d hd i _ => by rw [h.size, hd])

theorem CellBody.loop_keep {body : KvCells → ℕ → KvCells} (h : CellBody body f P) {cells : KvCells}
    (hP : P cells) (n : ℕ) : P ((List.range n).foldl body cells) :=
  List.foldlRecOn _ _ (motive := P) hP (fun d hd i _ => h.keep d i hd)

/-- The first component of `freeLoop` is the plain loop. -/
theorem freeLoop_fst (body : KvCells → ℕ → KvCells × Bool) (cells : KvCells) :
    (freeLoop body cells).1 =
      (List.range cells.size).foldl (fun c i => (body c i).1) cells := by
  have h : ∀ (is : List ℕ) (st : KvCells × ℕ),
      (is.foldl (fun st i =>
        let r := body st.1 i
        (r.1, if r.2 ∧ st.2 = cells.size then i else st.2)) st).1 =
      is.foldl (fun c i => (body c i).1) st.1 := by
    intro is
    induction is with
    | nil => exact fun st => rfl
    | cons i is ih => exact fun st => ih _
  exact h _ _

theorem freeLoop_snd_le (body : KvCells → ℕ → KvCells × Bool) (cells : KvCells) :
    (freeLoop body cells).2 ≤ cells.size := by
  refine List.foldlRecOn (List.range cells.size) _
    (motive := fun st : KvCells × ℕ => st.2 ≤ cells.size) le_rfl (fun st hst i hi => ?_)
  have := List.mem_range.mp hi
  change (if _ then i else st.2) ≤ cells.size
  split_ifs <;> omega

theorem lowerHead_le {head newHead size n : ℕ} (h : head ≤ n) : lowerHead head newHead size ≤ n := by
  rw [lowerHead]
  split_ifs <;> omega

end

/-! ## Setting one stream -/

section

variable (c : KvCache) (strm : ℕ)

@[simp] theorem setCells_vCells_self (cells : KvCells) : (c.setCells strm cells).vCells strm = cells := by
  simp [setCells]

theorem setCells_vCells_of_ne (cells : KvCells) {t : ℕ} (h : t ≠ strm) :
    (c.setCells strm cells).vCells t = c.vCells t := by
  simp [setCells, h]

@[simp] theorem setCells_vHeads (cells : KvCells) : (c.setCells strm cells).vHeads = c.vHeads := rfl
@[simp] theorem setHead_vCells (head : ℕ) : (c.setHead strm head).vCells = c.vCells := rfl

@[simp] theorem setHead_vHeads_self (head : ℕ) : (c.setHead strm head).vHeads strm = head := by
  simp [setHead]

theorem setHead_vHeads_of_ne (head : ℕ) {t : ℕ} (h : t ≠ strm) :
    (c.setHead strm head).vHeads t = c.vHeads t := by
  simp [setHead, h]

end

theorem freeStream_of_ne (c : KvCache) (body : KvCells → ℕ → KvCells × Bool) {strm t : ℕ}
    (h : t ≠ strm) : (c.freeStream strm body).vCells t = c.vCells t := by
  simp [freeStream, setCells_vCells_of_ne, h]

theorem freeStream_self (c : KvCache) (body : KvCells → ℕ → KvCells × Bool) (strm : ℕ) :
    (c.freeStream strm body).vCells strm =
      (List.range (c.vCells strm).size).foldl (fun c i => (body c i).1) (c.vCells strm) := by
  simp [freeStream, freeLoop_fst]

theorem freeStream_head_of_ne (c : KvCache) (body : KvCells → ℕ → KvCells × Bool) {strm t : ℕ}
    (h : t ≠ strm) : (c.freeStream strm body).vHeads t = c.vHeads t := by
  simp [freeStream, setHead_vHeads_of_ne, h]

theorem freeStream_head_le (c : KvCache) (body : KvCells → ℕ → KvCells × Bool) (strm t n : ℕ)
    (h : c.vHeads t ≤ n) : (c.freeStream strm body).vHeads t ≤ n := by
  by_cases ht : t = strm
  · subst ht
    simp only [freeStream, setHead_vHeads_self]
    exact lowerHead_le h
  · rw [freeStream_head_of_ne c body ht]
    exact h

/-! ## Each loop body -/

theorem seqRmBody_body (s : ℕ) (p₀ p₁ : ℤ) :
    CellBody (fun c i => (seqRmBody s p₀ p₁ c i).1) (.seqRmIn s p₀ p₁) KvCells.Coherent where
  cell := seqRmBody_cell s p₀ p₁
  size cells i := by
    simp only [seqRmBody]
    split_ifs
    · exact KvCells.seqRm_size cells i s
    · rfl
  keep cells i h := by
    simp only [seqRmBody]
    split_ifs
    · exact KvCells.seqRm_coherent h i s
    · exact h
  untouched x _ hx := if_neg (by simp [hx])

theorem rmBody_body (p₀ p₁ : ℤ) :
    CellBody (fun c i => (rmBody (rangeBegin p₀) p₁ c i).1) (.rmIn (rangeBegin p₀) p₁)
      KvCells.Coherent where
  cell := rmBody_cell (rangeBegin p₀) p₁
  size cells i := by
    simp only [rmBody]
    split_ifs <;> rfl
  keep cells i h := by
    simp only [rmBody]
    split_ifs
    · exact KvCells.rm_coherent h i
    · exact h
  untouched _ hx _ := if_neg fun h => KvCell.posIn_ne h hx

theorem seqKeep_body (s : ℕ) :
    CellBody (fun c i => (KvCells.seqKeep c i s).1) (.seqKeep · s) KvCells.Coherent where
  cell cells i := KvCells.seqKeep_cell cells i s
  size cells i := KvCells.seqKeep_size cells i s
  keep _ i h := KvCells.seqKeep_coherent h i s
  untouched x _ hx := by simp [KvCell.seqKeep, hx]

theorem seqAddBody_body (s : ℕ) (p₀ p₁ d : ℤ) :
    CellBody (fun c i => (seqAddBody s p₀ p₁ d c i).1) (.seqAddIn s p₀ p₁ d)
      KvCells.Coherent where
  cell := seqAddBody_cell s p₀ p₁ d
  size cells i := by
    simp only [seqAddBody]
    split_ifs
    · exact KvCells.posAdd_size cells i d
    · rfl
  keep cells i h := by
    simp only [seqAddBody]
    split_ifs with hg
    · exact KvCells.posAdd_coherent h d (h.pos_of_seq ((guard_iff ..).mp hg).2)
    · exact h
  untouched x _ hx := if_neg (by simp [hx])

theorem seqDivBody_body (s : ℕ) (p₀ p₁ : ℤ) {d : ℤ} (hd : 0 < d) :
    CellBody (seqDivBody s p₀ p₁ d) (.seqDivIn s p₀ p₁ d)
      (fun c => c.Coherent ∧ ∀ i, c.pos i ≠ -1 → 0 ≤ c.pos i) where
  cell := seqDivBody_cell s p₀ p₁ d
  size cells i := by
    simp only [seqDivBody]
    split_ifs <;> rfl
  keep cells i h := by
    obtain ⟨hc, hpos⟩ := h
    simp only [seqDivBody]
    split_ifs with hg
    · have hin : cells.pos i ≠ -1 := hc.pos_of_seq ((guard_iff ..).mp hg).2
      have hdiv : 0 ≤ (cells.pos i).tdiv d := Int.tdiv_nonneg (hpos i hin) hd.le
      refine ⟨KvCells.posDiv_coherent hc hin (by omega), fun j hj => ?_⟩
      rw [← KvCells.cell_pos, KvCells.posDiv_cell] at hj ⊢
      by_cases hji : j = i
      · subst hji
        rw [Function.update_self]
        exact hdiv
      · rw [Function.update_of_ne hji] at hj ⊢
        exact hpos j hj
    · exact ⟨hc, hpos⟩
  untouched x _ hx := if_neg (by simp [hx])

theorem seqCpBody_body (src dst : ℕ) (p₀ p₁ : ℤ) :
    CellBody (seqCpBody src dst p₀ p₁) (.seqCpIn src dst p₀ p₁) KvCells.Coherent where
  cell := seqCpBody_cell src dst p₀ p₁
  size cells i := by
    simp only [seqCpBody]
    split_ifs <;> rfl
  keep cells i h := by
    simp only [seqCpBody]
    split_ifs with hg
    · exact KvCells.seqAdd_coherent h dst (h.pos_of_seq ((guard_iff ..).mp hg).2)
    · exact h
  untouched x _ hx := if_neg (by simp [hx])

end KvCache
end RocmFpx
