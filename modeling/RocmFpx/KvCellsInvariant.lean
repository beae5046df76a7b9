import RocmFpx.GuardedRuns
import RocmFpx.KvCellsCopy

/-!
Runs of the mutating operations of `llama_kv_cells`. `Op.Pre` is what an operation
asserts when it is entered, together with the index ranges without which the C++
call is undefined; `step` refuses the call otherwise. The assertions inside the
bookkeeping helpers are not repeated: they follow from the invariant.
-/

namespace RocmFpx
namespace KvCells

open GuardedRuns PointwiseLoop

inductive Op
  | posSet (i : ℕ) (p : ℤ)
  | seqAdd (i s : ℕ)
  | extSet (i : ℕ) (e : KvCellExt)
  | seqRm (i s : ℕ)
  | seqKeep (i s : ℕ)
  | rm (i : ℕ)
  | posAdd (i : ℕ) (d : ℤ)
  | posDiv (i : ℕ) (d : ℤ)
  | set (i : ℕ) (other : KvCells)
  | setIdxs (idxs : List ℕ) (other : KvCells)
  | reset
  | resize (n : ℕ)

def Op.Pre (c : KvCells) : Op → Prop
  | .posSet i _ => i < c.size ∧ c.pos i = -1 ∧ c.seq i = ∅
  | .seqAdd i s => i < c.size ∧ s < llamaMaxSeq ∧ c.pos i ≠ -1 ∧ s ∉ c.seq i
  | .extSet i _ => i < c.size
  | .seqRm i s => i < c.size ∧ s < llamaMaxSeq ∧ s ∈ c.seq i ∧ c.pos i ≠ -1
  | .seqKeep i s => i < c.size ∧ s < llamaMaxSeq ∧ (c.seq i = ∅ → c.pos i = -1)
  | .rm i => i < c.size ∧ c.pos i ≠ -1
  | .posAdd i _ => i < c.size ∧ c.pos i ≠ -1
  | .posDiv i d => i < c.size ∧ c.pos i ≠ -1 ∧ d ≠ 0
  | .set i other => i + other.size ≤ c.size ∧ ∀ j < other.size, c.shift (i + j) = 0
  | .setIdxs idxs other => idxs.length = other.size ∧
      ∀ j < other.size, idxs.getD j 0 < c.size ∧ c.shift (idxs.getD j 0) = 0
  | .reset => True
  | .resize _ => True

instance (c : KvCells) (op : Op) : Decidable (op.Pre c) := by
  cases op <;> dsimp only [Op.Pre] <;> infer_instance

def Op.apply (c : KvCells) : Op → KvCells
  | .posSet i p => c.posSet i p
  | .seqAdd i s => c.seqAdd i s
  | .extSet i e => c.extSet i e
  | .seqRm i s => (c.seqRm i s).1
  | .seqKeep i s => (c.seqKeep i s).1
  | .rm i => c.rm i
  | .posAdd i d => (c.posAdd i d).1
  | .posDiv i d => c.posDiv i d
  | .set i other => c.set i other
  | .setIdxs idxs other => c.setIdxs idxs other
  | .reset => c.reset
  | .resize n => c.resize n

/-- The cells together with a record of the indices whose present content was made
by `pos_set` and then `seq_add`, here or before it was copied in by `set`. -/
structure Tracked where
  cells : KvCells
  created : Finset ℕ

def Tracked.init : Tracked := ⟨KvCells.init, ∅⟩

def createdLoop (g : Finset ℕ) (slot : ℕ → ℕ) (other : KvCells) : Finset ℕ :=
  (List.range other.size).foldl
    (fun g j => if other.seq j = ∅ then g.erase (slot j) else insert (slot j) g) g

def Op.track (g : Finset ℕ) : Op → Finset ℕ
  | .posSet i _ => g.erase i
  | .seqAdd i _ => insert i g
  | .set i other => createdLoop g (i + ·) other
  | .setIdxs idxs other => createdLoop g (idxs.getD · 0) other
  | .reset => ∅
  | .resize _ => ∅
  | _ => g

def step (m : Tracked) (op : Op) : Option Tracked :=
  if op.Pre m.cells then some ⟨op.apply m.cells, op.track m.created⟩ else none

/-! ## The representation invariant -/

/-- `seq_pos_min` and `seq_pos_max` are the true bounds, `-1` for an absent sequence. -/
def BoundsExact (c : KvCells) : Prop := ∀ s,
  ((∀ i, s ∉ c.seq i) ∧ c.seqPosMin s = -1 ∧ c.seqPosMax s = -1) ∨
  ((∃ i, s ∈ c.seq i ∧ c.pos i = c.seqPosMin s) ∧ (∃ i, s ∈ c.seq i ∧ c.pos i = c.seqPosMax s) ∧
    ∀ i, s ∈ c.seq i → c.seqPosMin s ≤ c.pos i ∧ c.pos i ≤ c.seqPosMax s)

structure RepInv (m : Tracked) : Prop where
  used_iff : ∀ i, i ∈ m.cells.used ↔ m.cells.pos i ≠ -1
  seqPos_iff : ∀ s p i, toLex (p, i) ∈ m.cells.seqPos s ↔ s ∈ m.cells.seq i ∧ m.cells.pos i = p
  bounds : BoundsExact m.cells
  empty_default : ∀ i, m.cells.pos i = -1 →
    m.cells.seq i = ∅ ∧ m.cells.shift i = 0 ∧ m.cells.ext i = {}
  created_seq : ∀ i ∈ m.created, m.cells.pos i ≠ -1 → m.cells.seq i ≠ ∅
  in_range : ∀ i, m.cells.pos i ≠ -1 → i < m.cells.size

theorem RepInv.coherent {m : Tracked} (h : RepInv m) : Coherent m.cells :=
  ⟨h.used_iff, h.seqPos_iff, fun i hi => (h.empty_default i hi).1, h.in_range⟩

theorem RepInv.cell_empty {m : Tracked} (h : RepInv m) {i : ℕ} (hi : m.cells.pos i = -1) :
    m.cells.cell i = .empty := by
  obtain ⟨hseq, hshift, hext⟩ := h.empty_default i hi
  simp [cell, KvCell.empty, hi, hseq, hshift, hext]

theorem Coherent.boundsExact {c : KvCells} (h : Coherent c) : BoundsExact c := by
  intro s
  by_cases habs : ∀ i, s ∉ c.seq i
  · exact .inl ⟨habs, h.seqPosMin_of_absent habs, h.seqPosMax_of_absent habs⟩
  · obtain ⟨i, hi⟩ := not_forall_not.mp habs
    exact .inr ⟨h.seqPosMin_mem hi, h.seqPosMax_mem hi,
      fun j hj => ⟨h.seqPosMin_le hj, h.le_seqPosMax hj⟩⟩

/-- Coherence supplies everything about the redundant sets. -/
theorem RepInv.of_coherent {c : KvCells} {g : Finset ℕ} (h : Coherent c)
    (hempty : ∀ i, c.pos i = -1 → c.cell i = .empty)
    (hg : ∀ i ∈ g, c.pos i ≠ -1 → c.seq i ≠ ∅) : RepInv ⟨c, g⟩ where
  used_iff := h.used_iff
  seqPos_iff := h.seqPos_iff
  bounds := h.boundsExact
  empty_default i hi := by
    have hcell := hempty i hi
    exact ⟨congrArg KvCell.seq hcell, congrArg KvCell.shift hcell, congrArg KvCell.ext hcell⟩
  created_seq := hg
  in_range := h.bounded

theorem init_repInv : RepInv Tracked.init :=
  .of_coherent init_coherent (fun _ _ => rfl) (by simp)

/-- An operation on one cell keeps the invariant if it keeps the sets in step, leaves
nothing in a cell it empties and takes no created cell its last sequence. -/
theorem RepInv.update {m : Tracked} (h : RepInv m) {d : KvCells} {g : Finset ℕ} {i : ℕ} {x : KvCell}
    (hd : Coherent d) (hcell : d.cell = Function.update m.cells.cell i x)
    (hx : x.pos = -1 → x = .empty) (hgi : i ∈ g → x.pos ≠ -1 → x.seq ≠ ∅)
    (hg : ∀ j ∈ g, j ≠ i → j ∈ m.created) : RepInv ⟨d, g⟩ := by
  refine .of_coherent hd (fun j hj => ?_) (fun j hjg hj => ?_)
  · rw [← cell_pos] at hj
    rw [hcell] at hj ⊢
    by_cases hji : j = i
    · subst hji
      rw [Function.update_self] at hj ⊢
      exact hx hj
    · rw [Function.update_of_ne hji] at hj ⊢
      exact h.cell_empty hj
  · rw [← cell_pos] at hj
    rw [← cell_seq]
    rw [hcell] at hj ⊢
    by_cases hji : j = i
    · subst hji
      rw [Function.update_self] at hj ⊢
      exact hgi hjg hj
    · rw [Function.update_of_ne hji] at hj ⊢
      exact h.created_seq j (hg j hjg hji) hj

theorem createdLoop_pointwise (slot : ℕ → ℕ) (other : KvCells) :
    Pointwise (fun (g : Finset ℕ) i => i ∈ g)
      (fun g j => if other.seq j = ∅ then g.erase (slot j) else insert (slot j) g) slot
      (fun j _ => other.seq j ≠ ∅) := by
  intro g j
  funext k
  by_cases hseq : other.seq j = ∅ <;> by_cases hk : k = slot j <;> simp [hseq, hk]

theorem createdLoop_last (g : Finset ℕ) (slot : ℕ → ℕ) {other : KvCells} {j : ℕ}
    (hj : j < other.size) (hlast : ∀ k, j < k → k < other.size → slot k ≠ slot j) :
    slot j ∈ createdLoop g slot other ↔ other.seq j ≠ ∅ :=
  iff_of_eq <| (createdLoop_pointwise slot other).foldl_range_last (fun _ _ _ => rfl) g hj hlast

/-! ## The steps that keep it -/

/-- What leaves an empty cell that is not default-constructed is excluded: `pos_add`
freeing a cell that stores an `ext`, `ext_set` on an empty cell, the position `-1`
given to `pos_set` or computed by `pos_div`, and a dirty empty cell written by `set`. -/
def Op.Clean (m : Tracked) : Op → Prop
  | .posSet _ p => p ≠ -1
  | .extSet i e => m.cells.pos i = -1 → e = {}
  | .posAdd i d => m.cells.pos i + d < 0 → m.cells.ext i = {}
  | .posDiv i d => (m.cells.pos i).tdiv d ≠ -1
  | .set _ other => ∀ j < other.size, other.pos j = -1 → other.seq j = ∅ ∧ other.ext j = {}
  | .setIdxs idxs other => ∀ j < other.size,
      (∀ k, j < k → k < other.size → idxs.getD k 0 ≠ idxs.getD j 0) →
      other.pos j = -1 → other.seq j = ∅ ∧ other.ext j = {}
  | _ => True

section

variable {m : Tracked} (h : RepInv m)
include h

theorem posSet_repInv {i : ℕ} {p : ℤ} (pre : (Op.posSet i p).Pre m.cells) :
    RepInv ⟨m.cells.posSet i p, m.created.erase i⟩ ↔ p ≠ -1 := by
  obtain ⟨hi, hempty, -⟩ := pre
  constructor
  · intro h' hp
    have hused := (h'.used_iff i).mp (by simp [posSet])
    exact hused (by simp [posSet, hp])
  · intro hp
    exact h.update (posSet_coherent h.coherent hi hempty hp) (posSet_cell _ i p)
      (fun hx => absurd hx hp) (by simp) (by simp +contextual)

theorem seqAdd_repInv {i s : ℕ} (pre : (Op.seqAdd i s).Pre m.cells) :
    RepInv ⟨m.cells.seqAdd i s, insert i m.created⟩ :=
  h.update (seqAdd_coherent h.coherent s pre.2.2.1) (seqAdd_cell _ i s)
    (fun hx => absurd hx pre.2.2.1) (by simp) (by simp +contextual [Finset.mem_insert])

theorem extSet_repInv {i : ℕ} {e : KvCellExt} :
    RepInv ⟨m.cells.extSet i e, m.created⟩ ↔ (m.cells.pos i = -1 → e = {}) := by
  constructor
  · intro h' hi
    have := (h'.empty_default i hi).2.2
    simpa [extSet] using this
  · intro he
    refine h.update (extSet_coherent h.coherent i e) (extSet_cell _ i e) (fun hx => ?_)
      (h.created_seq i) (fun _ hj _ => hj)
    obtain ⟨hseq, hshift, -⟩ := h.empty_default i hx
    simp [cell, KvCell.empty, hseq, hshift, he hx, show m.cells.pos i = -1 from hx]

theorem seqRm_repInv (i s : ℕ) : RepInv ⟨(m.cells.seqRm i s).1, m.created⟩ := by
  refine h.update (seqRm_coherent h.coherent i s) (seqRm_cell _ i s) (fun hx => ?_)
    (fun _ hx => ?_) (fun _ hj _ => hj)
  · rw [KvCell.seqRm] at hx ⊢
    split_ifs at hx ⊢ with hlast
    · rfl
    · exact absurd (by simp [h.coherent.empty_seq i hx]) hlast
  · rw [KvCell.seqRm] at hx ⊢
    split_ifs at hx ⊢ with hlast
    · exact absurd rfl hx
    · exact hlast

theorem seqKeep_repInv (i s : ℕ) : RepInv ⟨(m.cells.seqKeep i s).1, m.created⟩ := by
  refine h.update (seqKeep_coherent h.coherent i s) (seqKeep_cell _ i s) (fun hx => ?_)
    (fun hg hx => ?_) (fun _ hj _ => hj)
  · rw [KvCell.seqKeep] at hx ⊢
    split_ifs at hx ⊢ with hs hne
    · rw [cell_seq, h.coherent.empty_seq i hx] at hs
      exact absurd hs (Finset.notMem_empty s)
    · rfl
    · exact h.cell_empty hx
  · rw [KvCell.seqKeep] at hx ⊢
    split_ifs at hx ⊢
    · exact Finset.singleton_ne_empty s
    · exact absurd rfl hx
    · exact h.created_seq i hg hx

theorem rm_repInv (i : ℕ) : RepInv ⟨m.cells.rm i, m.created⟩ :=
  h.update (rm_coherent h.coherent i) (rm_cell _ i) (fun _ => rfl)
    (fun _ hx => absurd rfl hx) (fun _ hj _ => hj)

theorem posAdd_repInv {i : ℕ} {d : ℤ} (pre : (Op.posAdd i d).Pre m.cells) :
    RepInv ⟨(m.cells.posAdd i d).1, m.created⟩ ↔
      (m.cells.pos i + d < 0 → m.cells.ext i = {}) := by
  have hcell := posAdd_cell m.cells i d
  constructor
  · intro h' hneg
    have hx : (m.cells.posAdd i d).1.cell i = .freed (m.cells.ext i) := by
      rw [hcell, Function.update_self]
      exact if_pos hneg
    have hpos : (m.cells.posAdd i d).1.pos i = -1 := congrArg KvCell.pos hx
    rw [← (h'.empty_default i hpos).2.2]
    exact (congrArg KvCell.ext hx).symm
  · intro hext
    refine h.update (posAdd_coherent h.coherent d pre.2) hcell (fun hx => ?_) (fun hg hx => ?_)
      (fun _ hj _ => hj)
    · rw [KvCell.posAdd] at hx ⊢
      split_ifs at hx ⊢ with hneg
      · rw [cell_ext, hext hneg]
        rfl
      · simp only at hx
        omega
    · rw [KvCell.posAdd] at hx ⊢
      split_ifs at hx ⊢
      · exact absurd rfl hx
      · exact h.created_seq i hg pre.2

theorem posDiv_repInv {i : ℕ} {d : ℤ} (pre : (Op.posDiv i d).Pre m.cells) :
    RepInv ⟨m.cells.posDiv i d, m.created⟩ ↔ (m.cells.pos i).tdiv d ≠ -1 := by
  have hcell := posDiv_cell m.cells i d
  constructor
  · intro h' hd
    have hx : (m.cells.posDiv i d).pos i = -1 := by
      rw [← cell_pos, hcell, Function.update_self]
      exact hd
    have hused : i ∈ (m.cells.posDiv i d).used := (h.used_iff i).mpr pre.2.1
    exact (h'.used_iff i).mp hused hx
  · intro hd
    exact h.update (posDiv_coherent h.coherent pre.2.1 hd) hcell (fun hx => absurd hx hd)
      (fun hg _ => h.created_seq i hg pre.2.1) (fun _ hj _ => hj)

omit h in
theorem createdLoop_other {g : Finset ℕ} {slot : ℕ → ℕ} {other : KvCells} {k : ℕ}
    (hk : ∀ j < other.size, slot j ≠ k) : k ∈ createdLoop g slot other ↔ k ∈ g := by
  have hmem := (createdLoop_pointwise slot other).foldl_of_notMem (List.range other.size) g
    (i := k) (by simpa using hk)
  exact iff_of_eq hmem

theorem setLoop_repInv {slot : ℕ → ℕ} {other : KvCells}
    (pre : ∀ j < other.size, slot j < m.cells.size ∧ m.cells.shift (slot j) = 0) :
    RepInv ⟨m.cells.setLoop slot other, createdLoop m.created slot other⟩ ↔
      ∀ j < other.size, (∀ k, j < k → k < other.size → slot k ≠ slot j) →
        other.pos j = -1 → other.seq j = ∅ ∧ other.ext j = {} := by
  have written : ∀ j < other.size, (∀ k, j < k → k < other.size → slot k ≠ slot j) →
      (m.cells.setLoop slot other).cell (slot j) =
        ⟨other.pos j, other.ext j, 0, other.seq j⟩ := by
    intro j hj hlast
    rw [setLoop_cell_last m.cells slot other hj hlast, KvCell.overwrite, cell_shift, (pre j hj).2]
    rfl
  have kept : ∀ k, (∀ j < other.size, slot j ≠ k) →
      (m.cells.setLoop slot other).cell k = m.cells.cell k :=
    fun k => setLoop_cell_other m.cells slot other
  constructor
  · intro h' j hj hlast hpos
    have hx := written j hj hlast
    have hempty := h'.empty_default (slot j) ((congrArg KvCell.pos hx).trans hpos)
    exact ⟨(congrArg KvCell.seq hx).symm.trans hempty.1,
      (congrArg KvCell.ext hx).symm.trans hempty.2.2⟩
  · intro hclean
    have hcell : ∀ k, (m.cells.setLoop slot other).pos k = -1 →
        (m.cells.setLoop slot other).cell k = .empty := by
      intro k hk
      by_cases hw : ∃ j < other.size, slot j = k
      · obtain ⟨j, hj, rfl, hlast⟩ := exists_last_write slot other.size hw
        have hx := written j hj hlast
        have hpos : other.pos j = -1 := (congrArg KvCell.pos hx).symm.trans hk
        obtain ⟨hseq, hext⟩ := hclean j hj hlast hpos
        rw [hx, hpos, hseq, hext]
        rfl
      · have hother : ∀ j < other.size, slot j ≠ k := fun j hj hjk => hw ⟨j, hj, hjk⟩
        rw [kept k hother]
        exact h.cell_empty ((congrArg KvCell.pos (kept k hother)).symm.trans hk)
    have hsync := (setLoop_synced h.coherent.synced fun j hj => (pre j hj).1).1
    refine .of_coherent (hsync.coherent fun k hk => congrArg KvCell.seq (hcell k hk)) hcell ?_
    intro k hkg hk
    by_cases hw : ∃ j < other.size, slot j = k
    · obtain ⟨j, hj, rfl, hlast⟩ := exists_last_write slot other.size hw
      have hseq : (m.cells.setLoop slot other).seq (slot j) = other.seq j :=
        congrArg KvCell.seq (written j hj hlast)
      rw [hseq]
      exact (createdLoop_last m.created slot hj hlast).mp hkg
    · have hother : ∀ j < other.size, slot j ≠ k := fun j hj hjk => hw ⟨j, hj, hjk⟩
      have hx := kept k hother
      have hseq : (m.cells.setLoop slot other).seq k = m.cells.seq k := congrArg KvCell.seq hx
      have hpos : (m.cells.setLoop slot other).pos k = m.cells.pos k := congrArg KvCell.pos hx
      rw [hseq]
      exact h.created_seq k ((createdLoop_other hother).mp hkg) (hpos ▸ hk)

theorem step_repInv {m' : Tracked} {op : Op} (hstep : step m op = some m') :
    RepInv m' ↔ op.Clean m := by
  rw [step] at hstep
  split_ifs at hstep with pre
  obtain rfl := Option.some.inj hstep
  cases op with
  | posSet i p => exact posSet_repInv h pre
  | seqAdd i s => exact iff_of_true (seqAdd_repInv h pre) trivial
  | extSet i e => exact extSet_repInv h
  | seqRm i s => exact iff_of_true (seqRm_repInv h i s) trivial
  | seqKeep i s => exact iff_of_true (seqKeep_repInv h i s) trivial
  | rm i => exact iff_of_true (rm_repInv h i) trivial
  | posAdd i d => exact posAdd_repInv h pre
  | posDiv i d => exact posDiv_repInv h pre
  | set i other =>
    refine (setLoop_repInv h fun j hj => ⟨by have := pre.1; omega, pre.2 j hj⟩).trans ?_
    constructor
    · exact fun hall j hj => hall j hj fun k hk _ => by omega
    · exact fun hall j hj _ => hall j hj
  | setIdxs idxs other => exact setLoop_repInv h pre.2
  | reset =>
    exact iff_of_true (.of_coherent (reset_coherent _) (fun _ _ => rfl) (by simp [Op.track])) trivial
  | resize n =>
    exact iff_of_true (.of_coherent (resize_coherent _ n) (fun _ _ => rfl) (by simp [Op.track]))
      trivial

end

/-- From a new object, the invariant holds in every state a run reaches exactly when
every step of the run is clean. -/
theorem repInv_along_iff (ops : List Op) :
    Along step RepInv Tracked.init ops ↔ Meets step Op.Clean Tracked.init ops :=
  along_iff_meets (fun _ _ _ h hstep => step_repInv h hstep) init_repInv

/-- The frees of `rm`, `seq_rm` and `seq_keep` reset `ext`; that of `pos_add` does not. -/
theorem repInv_broken_by_posAdd : ¬ ∀ ops, Along step RepInv Tracked.init ops := by
  intro hall
  let ops : List Op := [.resize 1, .posSet 0 0, .seqAdd 0 0, .extSet 0 ⟨1, 0, -1⟩, .posAdd 0 (-1)]
  have hread : (run step Tracked.init ops).map (fun m => (m.cells.pos 0, m.cells.ext 0)) =
      some (-1, ⟨1, 0, -1⟩) := by decide
  obtain ⟨m, hm, hcell⟩ := Option.map_eq_some_iff.mp hread
  have hinv : RepInv m := (hall ops).final hm
  have hext := (hinv.empty_default 0 (congrArg Prod.fst hcell)).2.2
  exact absurd (hext.symm.trans (congrArg Prod.snd hcell)) (by decide)

end KvCells
end RocmFpx
