import RocmFpx.GuardedRuns
import RocmFpx.KvRestore
import RocmFpx.KvPrepare

/-!
The bookkeeping of pending shifts. `base` records for each cell the position its key was
encoded at: the one it had when its shift was last reset, and for a cell copied from
another stream that of the cell it was copied from.
-/

namespace RocmFpx
namespace KvCache

open GuardedRuns

variable {E : Type*} (p : KvParams)

structure Encoded where
  cache : KvCache
  base : ℕ → ℕ → ℤ

inductive ShiftOp
  | seqRm (s : Option ℕ) (p₀ p₁ : ℤ)
  | seqAdd (s : ℕ) (p₀ p₁ shift : ℤ)
  | seqDiv (s : ℕ) (p₀ p₁ d : ℤ)
  | seqCp (src dst : ℕ) (p₀ p₁ : ℤ)
  | update (graphOk : Bool)

/-- The update applies the shifts and forgets them. -/
def resets (c : KvCache) (graphOk : Bool) : Bool := c.getHasShift p && !(p.hasRope && !graphOk)

/-- Additions that would overflow and factors `d` that the interface excludes are refused. -/
def shiftStep (m : Encoded) : ShiftOp → Option Encoded
  | .seqRm s p₀ p₁ => (m.cache.seqRm p s p₀ p₁).map fun c => ⟨c, m.base⟩
  | .seqAdd s p₀ p₁ shift =>
    if AddFits (p := p) m.cache s p₀ p₁ shift then
      (m.cache.seqAdd p s p₀ p₁ shift).map fun c => ⟨c, m.base⟩
    else none
  | .seqDiv s p₀ p₁ d =>
    if 0 < d then (m.cache.seqDiv p s p₀ p₁ d).map fun c => ⟨c, m.base⟩ else none
  | .seqCp src dst p₀ p₁ => (m.cache.seqCp p src dst p₀ p₁).map fun c =>
      ⟨c, if p.seqToStream src = p.seqToStream dst then m.base
        else Function.update m.base (p.seqToStream dst) (m.base (p.seqToStream src))⟩
  | .update graphOk => (m.cache.update p graphOk).map fun c =>
      ⟨c, if resets p m.cache graphOk then fun t i => (m.cache.vCells t).pos i else m.base⟩

/-- The pending shift is what separates a key from its present position, and it is what
the K-shift graph is given. -/
def Accounted (m : Encoded) : Prop := ∀ t i, (m.cache.vCells t).pos i ≠ -1 →
  (m.cache.vCells t).pos i = m.base t i + (m.cache.vCells t).shift i ∧
    (m.cache.vCells t).pos i = m.base t i + m.cache.setInputKShift t i

/-- A division moves no cell. -/
def DivStill (m : Encoded) : ShiftOp → Prop
  | .seqDiv s p₀ p₁ d => ∀ i,
      ((m.cache.cellsOf p s).cell i).posIn (rangeBegin p₀) (rangeEnd p₁) = true →
      s ∈ (m.cache.cellsOf p s).seq i →
      ((m.cache.cellsOf p s).pos i).tdiv d = (m.cache.cellsOf p s).pos i
  | _ => True

variable {p}

theorem accounted_iff (m : Encoded) : Accounted m ↔ ∀ t i,
    ((m.cache.vCells t).cell i).pos ≠ -1 →
    ((m.cache.vCells t).cell i).pos = m.base t i + ((m.cache.vCells t).cell i).shift := by
  refine forall_congr' fun t => forall_congr' fun i => ?_
  refine ⟨fun h hi => (h hi).1, fun h hi => ⟨h hi, ?_⟩⟩
  have hne : (m.cache.vCells t).isEmpty i = false := decide_eq_false hi
  rw [setInputKShift, hne]
  exact h hi

/-- A step that turns each record into one with the same difference of position and
shift, or into an empty one, keeps the accounts. -/
theorem Accounted.of_cells {m : Encoded} (h : Accounted m) {c : KvCache}
    (hcell : ∀ t i, ((c.vCells t).cell i).pos = -1 ∨
      (((m.cache.vCells t).cell i).pos ≠ -1 ∧
        ((c.vCells t).cell i).pos - ((c.vCells t).cell i).shift =
          ((m.cache.vCells t).cell i).pos - ((m.cache.vCells t).cell i).shift)) :
    Accounted ⟨c, m.base⟩ := by
  rw [accounted_iff] at h ⊢
  intro t i hne
  rcases hcell t i with hempty | ⟨hold, heq⟩
  · exact absurd hempty hne
  · have := h t i hold
    simp only at *
    omega

theorem shiftStep_inv {m m' : Encoded} {op : ShiftOp} (h : CacheInv p m.cache)
    (hstep : shiftStep p m op = some m') : CacheInv p m'.cache := by
  cases op with
  | seqRm s p₀ p₁ =>
    obtain ⟨c, hrun, rfl⟩ := Option.map_eq_some_iff.mp hstep
    exact seqRm_inv h hrun
  | seqAdd s p₀ p₁ shift =>
    simp only [shiftStep] at hstep
    split_ifs at hstep with hfit
    obtain ⟨c, hrun, rfl⟩ := Option.map_eq_some_iff.mp hstep
    exact seqAdd_inv h hfit hrun
  | seqDiv s p₀ p₁ d =>
    simp only [shiftStep] at hstep
    split_ifs at hstep with hd
    obtain ⟨c, hrun, rfl⟩ := Option.map_eq_some_iff.mp hstep
    exact seqDiv_inv h hd hrun
  | seqCp src dst p₀ p₁ =>
    obtain ⟨c, hrun, rfl⟩ := Option.map_eq_some_iff.mp hstep
    exact seqCp_inv h hrun
  | update graphOk =>
    obtain ⟨c, hrun, rfl⟩ := Option.map_eq_some_iff.mp hstep
    exact update_inv h hrun

/-! ## One step -/

section

variable {m : Encoded} (h : CacheInv p m.cache) (hacc : Accounted m)
include h hacc

theorem seqRm_accounted {s : Option ℕ} {p₀ p₁ : ℤ} {c : KvCache}
    (hrun : m.cache.seqRm p s p₀ p₁ = some c) : Accounted ⟨c, m.base⟩ := by
  refine hacc.of_cells fun t i => ?_
  by_cases hold : ((m.cache.vCells t).cell i).pos = -1
  · left
    rcases seqRm_cell h hrun t i with heq | heq | ⟨q, heq⟩
    · rw [heq, hold]
    · rw [heq]
      rfl
    · rw [heq]
      exact hold
  · rcases seqRm_cell h hrun t i with heq | heq | ⟨q, heq⟩
    · exact .inr ⟨hold, by rw [heq]⟩
    · exact .inl (by rw [heq]; rfl)
    · exact .inr ⟨hold, by rw [heq]⟩

theorem seqAdd_accounted {s : ℕ} {p₀ p₁ shift : ℤ} {c : KvCache}
    (hrun : m.cache.seqAdd p s p₀ p₁ shift = some c) : Accounted ⟨c, m.base⟩ := by
  refine hacc.of_cells fun t i => ?_
  rw [seqAdd_cell h hrun, KvCell.seqAddIn]
  split_ifs with hg
  · have hold : ((m.cache.vCells t).cell i).pos ≠ -1 := (h.coherent t).pos_of_seq hg.2
    rw [KvCell.posAdd]
    split_ifs
    · exact .inl rfl
    · refine .inr ⟨hold, ?_⟩
      simp only
      omega
  · by_cases hold : ((m.cache.vCells t).cell i).pos = -1
    · exact .inl hold
    · exact .inr ⟨hold, rfl⟩

theorem seqDiv_accounted {s : ℕ} {p₀ p₁ d : ℤ} (hd : 0 < d) {c : KvCache}
    (hrun : m.cache.seqDiv p s p₀ p₁ d = some c) :
    Accounted ⟨c, m.base⟩ ↔ DivStill p m (.seqDiv s p₀ p₁ d) := by
  have hcell := seqDiv_cell h hd hrun
  constructor
  · intro hnew i hin hs
    have hold : ((m.cache.cellsOf p s).cell i).pos ≠ -1 := (h.coherent _).pos_of_seq hs
    have hbefore := ((accounted_iff m).mp hacc (p.seqToStream s) i) hold
    have hnonneg : 0 ≤ ((m.cache.cellsOf p s).cell i).pos := h.pos_nonneg hold
    have hdiv := Int.tdiv_nonneg hnonneg hd.le
    have hx : (c.vCells (p.seqToStream s)).cell i = ((m.cache.cellsOf p s).cell i).posDiv d :=
      (hcell _ i).trans (if_pos ⟨hin, hs⟩)
    have hafter := (accounted_iff ⟨c, m.base⟩).mp hnew (p.seqToStream s) i
    simp only [hx, KvCell.posDiv, cellsOf] at hafter
    change ((m.cache.cellsOf p s).cell i).pos = m.base (p.seqToStream s) i +
      ((m.cache.cellsOf p s).cell i).shift at hbefore
    simp only [cellsOf, KvCells.cell_pos, KvCells.cell_shift] at *
    have := hafter (by omega)
    omega
  · intro hstill
    refine hacc.of_cells fun t i => ?_
    rw [hcell, KvCell.seqDivIn]
    split_ifs with hg
    · have hold : ((m.cache.vCells t).cell i).pos ≠ -1 := (h.coherent t).pos_of_seq hg.2
      have ht : p.seqToStream s = t := ((h.cells t i).home s hg.2).2
      have heq := hstill i (by rw [cellsOf, ht]; exact hg.1) (by rw [cellsOf, ht]; exact hg.2)
      rw [cellsOf, ht] at heq
      refine .inr ⟨hold, ?_⟩
      simp only [KvCell.posDiv, KvCells.cell_pos, KvCells.cell_shift]
      omega
    · by_cases hold : ((m.cache.vCells t).cell i).pos = -1
      · exact .inl hold
      · exact .inr ⟨hold, rfl⟩

theorem seqCp_accounted {src dst : ℕ} {p₀ p₁ : ℤ} {c : KvCache}
    (hrun : m.cache.seqCp p src dst p₀ p₁ = some c) :
    Accounted ⟨c, if p.seqToStream src = p.seqToStream dst then m.base
      else Function.update m.base (p.seqToStream dst) (m.base (p.seqToStream src))⟩ := by
  split_ifs with hstrm
  · refine hacc.of_cells fun t i => ?_
    rw [seqCp_cell_same h hstrm hrun, KvCell.seqCpIn]
    by_cases hold : ((m.cache.vCells t).cell i).pos = -1
    · left
      split_ifs <;> exact hold
    · right
      refine ⟨hold, ?_⟩
      split_ifs <;> rfl
  · have hcell := seqCp_cell_cross h hstrm hrun
    have hbefore := (accounted_iff m).mp hacc
    rw [accounted_iff]
    intro t i hne
    simp only [hcell] at hne ⊢
    split_ifs at hne ⊢ with ht
    · subst ht
      rw [Function.update_self]
      rw [cpCell] at hne ⊢
      split_ifs at hne ⊢
      · exact hbefore _ i hne
      · exact absurd rfl hne
    · rw [Function.update_of_ne ht]
      exact hbefore t i hne

omit h in
theorem update_accounted {graphOk : Bool} {c : KvCache} (hrun : m.cache.update p graphOk = some c) :
    Accounted ⟨c, if resets p m.cache graphOk then fun t i => (m.cache.vCells t).pos i
      else m.base⟩ := by
  simp only [update] at hrun
  rw [resets]
  have hbefore := (accounted_iff m).mp hacc
  split_ifs at hrun with hshift hcan hgraph <;> obtain rfl := Option.some.inj hrun
  · rw [if_neg (by simp [hgraph])]
    exact (accounted_iff _).mpr hbefore
  · rw [if_pos (by simp [hshift, hgraph])]
    rw [accounted_iff]
    intro t i _
    exact (add_zero _).symm
  · rw [if_neg (by simp [hshift])]
    exact (accounted_iff _).mpr hbefore

theorem shiftStep_accounted {m' : Encoded} {op : ShiftOp} (hstep : shiftStep p m op = some m') :
    Accounted m' ↔ DivStill p m op := by
  cases op with
  | seqRm s p₀ p₁ =>
    obtain ⟨c, hrun, rfl⟩ := Option.map_eq_some_iff.mp hstep
    exact iff_of_true (seqRm_accounted h hacc hrun) trivial
  | seqAdd s p₀ p₁ shift =>
    simp only [shiftStep] at hstep
    split_ifs at hstep with hfit
    obtain ⟨c, hrun, rfl⟩ := Option.map_eq_some_iff.mp hstep
    exact iff_of_true (seqAdd_accounted h hacc hrun) trivial
  | seqDiv s p₀ p₁ d =>
    simp only [shiftStep] at hstep
    split_ifs at hstep with hd
    obtain ⟨c, hrun, rfl⟩ := Option.map_eq_some_iff.mp hstep
    exact seqDiv_accounted h hacc hd hrun
  | seqCp src dst p₀ p₁ =>
    obtain ⟨c, hrun, rfl⟩ := Option.map_eq_some_iff.mp hstep
    exact iff_of_true (seqCp_accounted h hacc hrun) trivial
  | update graphOk =>
    obtain ⟨c, hrun, rfl⟩ := Option.map_eq_some_iff.mp hstep
    exact iff_of_true (update_accounted hacc hrun) trivial

end

/-- From a reachable cache whose accounts hold, they hold in every state a run reaches
exactly when no division of the run moves a cell. -/
theorem accounted_along_iff {m : Encoded} (h : Reachable E p m.cache) (hacc : Accounted m)
    (ops : List ShiftOp) :
    Along (shiftStep p) Accounted m ops ↔ Meets (shiftStep p) (DivStill p) m ops :=
  along_iff_meets_within (I := fun m => CacheInv p m.cache)
    (fun _ _ _ hI hstep => shiftStep_inv hI hstep)
    (fun _ _ _ hI hP hstep => shiftStep_accounted hI hP hstep) h.inv hacc

/-! ## One cell, moved and then halved -/

/-- Every key is encoded at its present position. -/
def encodedNow (c : KvCache) : Encoded := ⟨c, fun t i => (c.vCells t).pos i⟩

theorem encodedNow_accounted {c : KvCache} (hshift : ∀ x, (c.cellAt x).shift = 0) :
    Accounted (encodedNow c) := by
  rw [accounted_iff]
  intro t i _
  have hzero : ((c.vCells t).cell i).shift = 0 := hshift (t, i)
  simp only [encodedNow, hzero, add_zero]
  rfl

theorem init_shift (x : ℕ × ℕ) : ((init p).cellAt x).shift = 0 := by
  simp only [init, cellAt]
  split_ifs <;> rfl

theorem secondUsed_accounted : Accounted (encodedNow secondUsed) := by
  have hfit : Fits twoStreams (oneToken 1 0) := oneToken_fits (by decide) (by decide)
  have hfind : findSlot twoStreams (init twoStreams) (oneToken 1 0) =
      some (some ⟨1, 1, [(1, [0])]⟩) := by decide
  refine encodedNow_accounted fun x => ?_
  exact applyUbatch_shift init_inv hfit (findSlot_sound init_inv hfit hfind) x (init_shift x)

/-- The key of the one token lies at 0; the token is moved to 4 and divided down to 2,
and its key would be rotated by 6. -/
theorem accounted_broken_by_seqDiv : ¬ ∀ (p : KvParams) (m : Encoded) (ops : List ShiftOp),
    Reachable Unit p m.cache → Accounted m → Along (shiftStep p) Accounted m ops := by
  intro hall
  have hrun := hall twoStreams (encodedNow secondUsed) [.seqAdd 1 0 (-1) 4, .seqDiv 1 0 (-1) 2]
    secondUsed_reachable secondUsed_accounted
  have hread : (run (shiftStep twoStreams) (encodedNow secondUsed)
      [.seqAdd 1 0 (-1) 4, .seqDiv 1 0 (-1) 2]).map
      (fun m => ((m.cache.vCells 1).pos 0, m.base 1 0, (m.cache.vCells 1).shift 0)) =
        some (2, 0, 6) := by decide +kernel
  obtain ⟨m, hm, hcell⟩ := Option.map_eq_some_iff.mp hread
  simp only [Prod.mk.injEq] at hcell
  obtain ⟨hpos, hbase, hshift⟩ := hcell
  have hend := (hrun.final hm 1 0 (by rw [hpos]; decide)).1
  omega

/-- The same addition without the division. -/
theorem accounted_along_seqAdd :
    Along (shiftStep twoStreams) Accounted (encodedNow secondUsed) [.seqAdd 1 0 (-1) 4] :=
  (accounted_along_iff secondUsed_reachable secondUsed_accounted _).mpr
    fun _ _ => ⟨trivial, trivial⟩

end KvCache
end RocmFpx
