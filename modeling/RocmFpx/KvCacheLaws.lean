import RocmFpx.KvCacheLoops

/-!
The invariant `CacheInv` of the sequence operations: coherent cells of the right number,
heads inside the ring, positions that `int32_t` can step past, and sequences only in
their own stream; with the effect of each operation on the cells.
-/

namespace RocmFpx
namespace KvCache

open PointwiseLoop

variable (p : KvParams)

/-! ## The invariant -/

/-- The fields fit their `int32_t`. -/
structure ExtOk (e : KvCellExt) : Prop where
  x : -2147483648 ≤ e.x ∧ e.x ≤ 2147483647
  y : -2147483648 ≤ e.y ∧ e.y ≤ 2147483647
  tok : -2147483648 ≤ e.tok ∧ e.tok ≤ 2147483647

theorem extOk_default : ExtOk {} := by constructor <;> decide

/-- What holds of every cell of stream `strm`. -/
structure CellOk (strm : ℕ) (x : KvCell) : Prop where
  range : x.pos ≠ -1 → 0 ≤ x.pos ∧ x.pos < llamaPosMax
  home : ∀ s ∈ x.seq, s < p.seqToStreamSize ∧ p.seqToStream s = strm
  fresh : x.pos = -1 → x.shift = 0
  ext : ExtOk x.ext

structure CacheInv (c : KvCache) : Prop where
  coherent : ∀ t, (c.vCells t).Coherent
  size : ∀ t < p.nStream, (c.vCells t).size = p.kvSize
  head : ∀ t < p.nStream, c.vHeads t ≤ p.kvSize
  cells : ∀ t i, CellOk p t ((c.vCells t).cell i)

variable {p}

theorem empty_ok (strm : ℕ) : CellOk p strm .empty :=
  ⟨fun h => absurd rfl h, fun s hs => absurd hs (Finset.notMem_empty s), fun _ => rfl, extOk_default⟩

theorem CacheInv.pos_nonneg {c : KvCache} (h : CacheInv p c) {t i : ℕ} (hi : (c.vCells t).pos i ≠ -1) :
    0 ≤ (c.vCells t).pos i := ((h.cells t i).range hi).1

theorem init_inv : CacheInv p (init p) where
  coherent t := by
    simp only [init]
    split_ifs
    · exact KvCells.resize_coherent _ _
    · exact KvCells.init_coherent
  size t ht := by simp [init, ht]
  head _ _ := Nat.zero_le _
  cells t i := by
    have : ((init p).vCells t).cell i = .empty := by
      simp only [init]
      split_ifs <;> rfl
    rw [this]
    exact empty_ok t

theorem clear_inv {c : KvCache} (h : CacheInv p c) : CacheInv p c.clear where
  coherent _ := KvCells.reset_coherent _
  size t ht := h.size t ht
  head _ _ := Nat.zero_le _
  cells t _ := empty_ok t

/-- Replacing the cells of one stream. -/
theorem CacheInv.setCells {c : KvCache} (h : CacheInv p c) {strm : ℕ} {cells : KvCells}
    (hc : cells.Coherent) (hsize : cells.size = (c.vCells strm).size)
    (hok : ∀ i, CellOk p strm (cells.cell i)) : CacheInv p (c.setCells strm cells) where
  coherent t := by
    by_cases ht : t = strm
    · subst ht
      rw [setCells_vCells_self]
      exact hc
    · rw [setCells_vCells_of_ne c strm cells ht]
      exact h.coherent t
  size t ht := by
    by_cases hts : t = strm
    · subst hts
      rw [setCells_vCells_self, hsize]
      exact h.size t ht
    · rw [setCells_vCells_of_ne c strm cells hts]
      exact h.size t ht
  head t ht := h.head t ht
  cells t i := by
    by_cases ht : t = strm
    · subst ht
      rw [setCells_vCells_self]
      exact hok i
    · rw [setCells_vCells_of_ne c strm cells ht]
      exact h.cells t i

theorem CacheInv.setHead {c : KvCache} (h : CacheInv p c) (strm : ℕ) {head : ℕ}
    (hhead : head ≤ p.kvSize) : CacheInv p (c.setHead strm head) where
  coherent := h.coherent
  size := h.size
  head t ht := by
    by_cases hts : t = strm
    · subst hts
      rw [setHead_vHeads_self]
      exact hhead
    · rw [setHead_vHeads_of_ne c strm head hts]
      exact h.head t ht
  cells := h.cells

/-- A loop over one stream whose body keeps every cell in order. -/
theorem CacheInv.freeStream {c : KvCache} (h : CacheInv p c) {strm : ℕ}
    {body : KvCells → ℕ → KvCells × Bool} {f : KvCell → KvCell} {P : KvCells → Prop}
    (hb : CellBody (fun c i => (body c i).1) f P) (hP : P (c.vCells strm))
    (hco : ∀ d, P d → d.Coherent) (hok : ∀ x, CellOk p strm x → CellOk p strm (f x)) :
    CacheInv p (c.freeStream strm body) := by
  have hcells := hb.loop_keep hP (c.vCells strm).size
  refine ⟨fun t => ?_, fun t ht => ?_, fun t ht => ?_, fun t i => ?_⟩
  · by_cases hts : t = strm
    · subst hts
      rw [freeStream_self]
      exact hco _ hcells
    · rw [freeStream_of_ne c body hts]
      exact h.coherent t
  · by_cases hts : t = strm
    · subst hts
      rw [freeStream_self, hb.loop_size]
      exact h.size t ht
    · rw [freeStream_of_ne c body hts]
      exact h.size t ht
  · exact freeStream_head_le c body strm t _ (h.head t ht)
  · by_cases hts : t = strm
    · subst hts
      rw [freeStream_self, hb.loop_cell (h.coherent t)]
      exact hok _ (h.cells t i)
    · rw [freeStream_of_ne c body hts]
      exact h.cells t i

/-! ## Effect on the cells and preservation, operation by operation -/

theorem CellOk.seqRm {strm : ℕ} {x : KvCell} (h : CellOk p strm x) (s : ℕ) :
    CellOk p strm (x.seqRm s) := by
  rw [KvCell.seqRm]
  split_ifs
  · exact empty_ok strm
  · exact ⟨h.range, fun q hq => h.home q (Finset.mem_of_mem_erase hq), h.fresh, h.ext⟩

theorem seqRmOne_cell {c : KvCache} (h : CacheInv p c) (s : ℕ) (p₀ p₁ : ℤ) (t i : ℕ) :
    ((c.seqRmOne p s p₀ p₁).vCells t).cell i =
      ((c.vCells t).cell i).seqRmIn s (rangeBegin p₀) (rangeEnd p₁) := by
  by_cases ht : t = p.seqToStream s
  · subst ht
    rw [seqRmOne, freeStream_self]
    exact (seqRmBody_body s _ _).loop_cell (h.coherent _) i
  · rw [seqRmOne, freeStream_of_ne c _ ht, KvCell.seqRmIn, if_neg]
    exact fun hin => ht (((h.cells t i).home s hin.2).2).symm

theorem seqRmOne_inv {c : KvCache} (h : CacheInv p c) (s : ℕ) (p₀ p₁ : ℤ) :
    CacheInv p (c.seqRmOne p s p₀ p₁) := by
  refine h.freeStream (seqRmBody_body s _ _) (h.coherent _) (fun _ hd => hd) (fun x hx => ?_)
  rw [KvCell.seqRmIn]
  split_ifs
  · exact hx.seqRm s
  · exact hx

theorem seqRmAll_vCells (c : KvCache) (p₀ p₁ : ℤ) (t : ℕ) :
    (c.seqRmAll p p₀ p₁).vCells t =
      if t < p.nStream then
        (c.freeStream t (rmBody (rangeBegin p₀) (rangeEnd p₁))).vCells t
      else c.vCells t := by
  have hp : Pointwise KvCache.vCells
      (fun c strm => c.freeStream strm (rmBody (rangeBegin p₀) (rangeEnd p₁))) id
      (fun _ cells => (freeLoop (rmBody (rangeBegin p₀) (rangeEnd p₁)) cells).1) := fun c strm => rfl
  rw [seqRmAll, hp.foldl_range]
  simp [freeStream]

theorem seqRmAll_cell {c : KvCache} (h : CacheInv p c) (p₀ p₁ : ℤ) {t : ℕ} (ht : t < p.nStream)
    (i : ℕ) : ((c.seqRmAll p p₀ p₁).vCells t).cell i =
      ((c.vCells t).cell i).rmIn (rangeBegin p₀) (rangeEnd p₁) := by
  rw [seqRmAll_vCells, if_pos ht, freeStream_self]
  exact (rmBody_body p₀ _).loop_cell (h.coherent t) i

theorem seqRmAll_inv {c : KvCache} (h : CacheInv p c) (p₀ p₁ : ℤ) :
    CacheInv p (c.seqRmAll p p₀ p₁) := by
  refine List.foldlRecOn (List.range p.nStream) _ (motive := CacheInv p) h (fun d hd strm _ => ?_)
  refine hd.freeStream (rmBody_body p₀ _) (hd.coherent strm) (fun _ he => he) (fun x hx => ?_)
  rw [KvCell.rmIn]
  split_ifs
  · exact empty_ok strm
  · exact hx

theorem seqRm_inv {c c' : KvCache} (h : CacheInv p c) {seqId : Option ℕ} {p₀ p₁ : ℤ}
    (hrun : c.seqRm p seqId p₀ p₁ = some c') : CacheInv p c' := by
  cases seqId with
  | none =>
    obtain rfl := Option.some.inj hrun
    exact seqRmAll_inv h p₀ p₁
  | some s =>
    simp only [seqRm] at hrun
    split_ifs at hrun
    obtain rfl := Option.some.inj hrun
    exact seqRmOne_inv h s p₀ p₁

theorem seqKeep_inv {c c' : KvCache} (h : CacheInv p c) {s : ℕ} (hrun : c.seqKeep p s = some c') :
    CacheInv p c' := by
  rw [seqKeep] at hrun
  split_ifs at hrun
  obtain rfl := Option.some.inj hrun
  refine h.freeStream (seqKeep_body s) (h.coherent _) (fun _ hd => hd) (fun x hx => ?_)
  rw [KvCell.seqKeep]
  split_ifs with hs
  · exact ⟨hx.range, fun q hq => hx.home q (Finset.mem_singleton.mp hq ▸ hs), hx.fresh, hx.ext⟩
  · exact empty_ok _
  · exact hx

/-- What `seq_add` does to the cells of the stream when it does not return early. -/
def addLoop (c : KvCache) (s : ℕ) (p₀ p₁ shift : ℤ) : KvCells :=
  (freeLoop (seqAddBody s (rangeBegin p₀) (rangeEnd p₁) shift) (c.vCells (p.seqToStream s))).1

theorem addLoop_cell {c : KvCache} (h : CacheInv p c) (s : ℕ) (p₀ p₁ shift : ℤ) (i : ℕ) :
    (addLoop (p := p) c s p₀ p₁ shift).cell i =
      ((c.vCells (p.seqToStream s)).cell i).seqAddIn s (rangeBegin p₀) (rangeEnd p₁) shift := by
  rw [addLoop, freeLoop_fst]
  exact (seqAddBody_body s _ _ shift).loop_cell (h.coherent _) i

/-- The positions that the addition would make do not overflow. -/
def AddFits (c : KvCache) (s : ℕ) (p₀ p₁ shift : ℤ) : Prop :=
  ∀ i < (c.cellsOf p s).size, ((c.cellsOf p s).cell i).posIn (rangeBegin p₀) (rangeEnd p₁) = true →
    s ∈ (c.cellsOf p s).seq i → (c.cellsOf p s).pos i + shift < llamaPosMax

instance (c : KvCache) (s : ℕ) (p₀ p₁ shift : ℤ) : Decidable (AddFits (p := p) c s p₀ p₁ shift) :=
  inferInstanceAs (Decidable (∀ i < _, _ → _ → _))

theorem addLoop_ok {c : KvCache} (h : CacheInv p c) {s : ℕ} {p₀ p₁ shift : ℤ}
    (hfit : AddFits (p := p) c s p₀ p₁ shift) (i : ℕ) :
    CellOk p (p.seqToStream s) ((addLoop (p := p) c s p₀ p₁ shift).cell i) := by
  have hx := h.cells (p.seqToStream s) i
  rw [addLoop_cell h, KvCell.seqAddIn]
  split_ifs with hg
  · rw [KvCell.posAdd]
    split_ifs with hneg
    · exact ⟨fun hne => absurd rfl hne, fun q hq => absurd hq (Finset.notMem_empty q), fun _ => rfl,
        hx.ext⟩
    · refine ⟨fun _ => ⟨not_lt.mp hneg, hfit i ((h.coherent _).lt_size hg.2) hg.1 hg.2⟩, hx.home, fun hpos => ?_, hx.ext⟩
      simp only at hpos
      omega
  · exact hx

theorem seqAdd_inv {c c' : KvCache} (h : CacheInv p c) {s : ℕ} {p₀ p₁ shift : ℤ}
    (hfit : AddFits (p := p) c s p₀ p₁ shift) (hrun : c.seqAdd p s p₀ p₁ shift = some c') :
    CacheInv p c' := by
  rw [seqAdd] at hrun
  split_ifs at hrun with hs hret
  · obtain rfl := Option.some.inj hrun
    exact h
  · have hsize : (addLoop (p := p) c s p₀ p₁ shift).size = (c.vCells (p.seqToStream s)).size := by
      rw [addLoop, freeLoop_fst]
      exact (seqAddBody_body s _ _ shift).loop_size _ _
    have hco : (addLoop (p := p) c s p₀ p₁ shift).Coherent := by
      rw [addLoop, freeLoop_fst]
      exact (seqAddBody_body s _ _ shift).loop_keep (h.coherent _) _
    have hlt := p.seqToStream_lt hs.1
    have hle := freeLoop_snd_le (seqAddBody s (rangeBegin p₀) (rangeEnd p₁) shift)
      (c.vCells (p.seqToStream s))
    rw [h.size _ hlt] at hle
    obtain rfl := Option.some.inj hrun
    refine CacheInv.setHead (h.setCells hco hsize (addLoop_ok h hfit)) _ ?_
    split_ifs <;> omega

def divLoop (c : KvCache) (s : ℕ) (p₀ p₁ d : ℤ) : KvCells :=
  (List.range (c.cellsOf p s).size).foldl (seqDivBody s (rangeBegin p₀) (rangeEnd p₁) d)
    (c.cellsOf p s)

theorem divLoop_cell {c : KvCache} (h : CacheInv p c) (s : ℕ) (p₀ p₁ : ℤ) {d : ℤ} (hd : 0 < d)
    (i : ℕ) : (divLoop (p := p) c s p₀ p₁ d).cell i =
      ((c.cellsOf p s).cell i).seqDivIn s (rangeBegin p₀) (rangeEnd p₁) d :=
  (seqDivBody_body s _ _ hd).loop_cell (h.coherent _) i

theorem seqDiv_inv {c c' : KvCache} (h : CacheInv p c) {s : ℕ} {p₀ p₁ d : ℤ} (hd : 0 < d)
    (hrun : c.seqDiv p s p₀ p₁ d = some c') : CacheInv p c' := by
  rw [seqDiv] at hrun
  split_ifs at hrun with hs hret
  · obtain rfl := Option.some.inj hrun
    exact h
  · obtain rfl := Option.some.inj hrun
    have hkeep := (seqDivBody_body s (rangeBegin p₀) (rangeEnd p₁) hd).loop_keep
      ⟨h.coherent (p.seqToStream s), fun i hi => h.pos_nonneg hi⟩ (c.cellsOf p s).size
    refine h.setCells hkeep.1 ((seqDivBody_body s _ _ hd).loop_size _ _) (fun i => ?_)
    have hx := h.cells (p.seqToStream s) i
    have hcell := divLoop_cell h s p₀ p₁ hd i
    rw [divLoop, cellsOf] at hcell
    rw [hcell, KvCell.seqDivIn]
    split_ifs with hg
    · have hin : (c.vCells (p.seqToStream s)).pos i ≠ -1 := (h.coherent _).pos_of_seq hg.2
      have hr := hx.range hin
      have h0 := Int.tdiv_nonneg hr.1 hd.le
      have hle := Int.tdiv_le_self d hr.1
      refine ⟨fun _ => ⟨h0, ?_⟩, hx.home, fun hpos => ?_, hx.ext⟩
      · exact lt_of_le_of_lt hle hr.2
      · simp only [KvCell.posDiv] at hpos
        omega
    · exact hx

/-! ## Copies between streams -/

/-- The cell that a copy makes of cell `y`. -/
def cpCell (y : KvCell) (src dst : ℕ) : KvCell :=
  if src ∈ y.seq then { y with seq := {dst} } else .empty

theorem posSet_seqAdd_posAdd {cells : KvCells} (h : cells.Coherent) {i s : ℕ} {q d : ℤ}
    (hempty : cells.pos i = -1) (hq : 0 ≤ q + d) :
    (((cells.posSet i q).seqAdd i s).posAdd i d).1 =
      { (cells.posSet i (q + d)).seqAdd i s with
        shift := Function.update cells.shift i (cells.shift i + d), hasShift := true } := by
  have hseq : cells.seq i = ∅ := h.empty_seq i hempty
  have hnot : ∀ t x, toLex (x, i) ∉ cells.seqPos t := by
    intro t x hin
    rw [h.seqPos_iff, hseq] at hin
    exact Finset.notMem_empty t hin.1
  rw [KvCells.posAdd_of_nonneg (by simpa [KvCells.posSet, KvCells.seqAdd, KvCells.seqPosInc] using hq)]
  simp only [KvCells.posSet, KvCells.seqAdd, KvCells.seqPosInc, KvCells.seqPosRm, KvCells.seqPosAdd,
    Function.update_self, Function.update_idem, hseq]
  congr 1
  funext t
  by_cases ht : t = s
  · subst ht
    simp [hnot]
  · simp [ht]

theorem seqCpCell_step {from_ cells : KvCells} (hfrom : from_.Coherent) (h : cells.Coherent)
    (hpos : ∀ i, from_.pos i ≠ -1 → 0 ≤ from_.pos i) (src dst : ℕ) {i : ℕ} (hi : i < cells.size)
    (hempty : cells.cell i = .empty) :
    (seqCpCell from_ src dst cells i).Coherent ∧
      (seqCpCell from_ src dst cells i).size = cells.size ∧
      (seqCpCell from_ src dst cells i).cell =
        Function.update cells.cell i (cpCell (from_.cell i) src dst) := by
  have hpe : cells.pos i = -1 := congrArg KvCell.pos hempty
  have hse : cells.shift i = 0 := congrArg KvCell.shift hempty
  have hqe : cells.seq i = ∅ := congrArg KvCell.seq hempty
  by_cases hsrc : src ∈ from_.seq i
  · have hin : from_.pos i ≠ -1 := hfrom.pos_of_seq hsrc
    have hset := KvCells.posSet_coherent h hi hpe hin
    have hadd : ((cells.posSet i (from_.pos i)).seqAdd i dst).Coherent :=
      KvCells.seqAdd_coherent hset dst (by simpa [KvCells.posSet] using hin)
    have hcp : cpCell (from_.cell i) src dst = { from_.cell i with seq := {dst} } := if_pos hsrc
    by_cases hshift : from_.shift i = 0
    · have heq : seqCpCell from_ src dst cells i =
          ((cells.posSet i (from_.pos i)).seqAdd i dst).extSet i (from_.ext i) := by
        simp [seqCpCell, KvCells.seqHas, hsrc, hshift]
      rw [heq]
      refine ⟨KvCells.extSet_coherent hadd i _, rfl, ?_⟩
      rw [KvCells.extSet_cell, KvCells.seqAdd_cell, KvCells.posSet_cell, hcp]
      simp [hempty, KvCell.empty, KvCells.posSet, hqe, hshift]
    · have heq : seqCpCell from_ src dst cells i =
          ({ (cells.posSet i (from_.pos i)).seqAdd i dst with
            shift := Function.update cells.shift i (from_.shift i)
            hasShift := true } : KvCells).extSet i (from_.ext i) := by
        have hq : 0 ≤ from_.pos i - from_.shift i + from_.shift i := by
          have := hpos i hin
          omega
        have hthree := posSet_seqAdd_posAdd (s := dst) h hpe hq
        rw [sub_add_cancel, hse, zero_add] at hthree
        simp only [seqCpCell, KvCells.seqHas, hsrc, hshift, decide_true, if_true, ne_eq,
          not_false_eq_true]
        rw [hthree]
      have hshifted : KvCells.Coherent { (cells.posSet i (from_.pos i)).seqAdd i dst with
          shift := Function.update cells.shift i (from_.shift i)
          hasShift := true } :=
        ⟨hadd.used_iff, hadd.seqPos_iff, hadd.empty_seq, hadd.bounded⟩
      rw [heq]
      refine ⟨KvCells.extSet_coherent hshifted i _, rfl, ?_⟩
      rw [KvCells.extSet_cell, hcp]
      funext j
      by_cases hj : j = i
      · subst hj
        simp [KvCells.cell, KvCells.seqAdd, KvCells.posSet, KvCells.seqPosInc, hqe]
      · simp [KvCells.cell, KvCells.seqAdd, KvCells.posSet, KvCells.seqPosInc, hj]
  · have heq : seqCpCell from_ src dst cells i = cells := by simp [seqCpCell, KvCells.seqHas, hsrc]
    have hcp : cpCell (from_.cell i) src dst = .empty := if_neg hsrc
    rw [heq, hcp, ← hempty, Function.update_eq_self]
    exact ⟨h, rfl, rfl⟩

def cpLoop (from_ cells : KvCells) (src dst n : ℕ) : KvCells :=
  (List.range n).foldl (seqCpCell from_ src dst) cells.reset

theorem cpLoop_spec {from_ : KvCells} (hfrom : from_.Coherent)
    (hpos : ∀ i, from_.pos i ≠ -1 → 0 ≤ from_.pos i) (cells : KvCells) (src dst n : ℕ)
    (hn : n ≤ cells.size) :
    (cpLoop from_ cells src dst n).Coherent ∧ (cpLoop from_ cells src dst n).size = cells.size ∧
      ∀ i, (cpLoop from_ cells src dst n).cell i =
        if i < n then cpCell (from_.cell i) src dst else .empty := by
  induction n with
  | zero => exact ⟨KvCells.reset_coherent cells, rfl, fun i => rfl⟩
  | succ n ih =>
    obtain ⟨hco, hsize, hcell⟩ := ih (by omega)
    have hnext : cpLoop from_ cells src dst (n + 1) =
        seqCpCell from_ src dst (cpLoop from_ cells src dst n) n := by
      rw [cpLoop, List.range_succ, List.foldl_append]
      rfl
    obtain ⟨hco', hsize', hcell'⟩ := seqCpCell_step hfrom hco hpos src dst (i := n) (by omega)
      (by rw [hcell, if_neg (lt_irrefl n)])
    rw [hnext]
    refine ⟨hco', hsize'.trans hsize, fun i => ?_⟩
    rw [hcell']
    by_cases hi : i = n
    · subst hi
      rw [Function.update_self, if_pos (Nat.lt_succ_self i)]
    · rw [Function.update_of_ne hi, hcell]
      have : i < n ↔ i < n + 1 := by omega
      simp only [this]

theorem cpCell_ok {strm : ℕ} {y : KvCell} (hy : CellOk p strm y) {src dst : ℕ}
    (hdst : dst < p.seqToStreamSize) : CellOk p (p.seqToStream dst) (cpCell y src dst) := by
  rw [cpCell]
  split_ifs
  · refine ⟨hy.range, fun s hs => ?_, hy.fresh, hy.ext⟩
    rw [Finset.mem_singleton.mp hs]
    exact ⟨hdst, rfl⟩
  · exact empty_ok _

theorem seqCp_inv {c c' : KvCache} (h : CacheInv p c) {src dst : ℕ} {p₀ p₁ : ℤ}
    (hrun : c.seqCp p src dst p₀ p₁ = some c') : CacheInv p c' := by
  simp only [seqCp] at hrun
  split_ifs at hrun with hids hstrm hsame hfull
  · obtain rfl := Option.some.inj hrun
    exact h
  · obtain rfl := Option.some.inj hrun
    have hb := seqCpBody_body src dst (rangeBegin p₀) (rangeEnd p₁)
    refine h.setCells (hb.loop_keep (h.coherent _) _) (hb.loop_size _ _) (fun i => ?_)
    have hx := h.cells (p.seqToStream src) i
    rw [hb.loop_cell (h.coherent _), KvCell.seqCpIn]
    split_ifs
    · refine ⟨hx.range, fun s hs => ?_, hx.fresh, hx.ext⟩
      rcases Finset.mem_insert.mp hs with rfl | hs
      · exact ⟨hids.2, hstrm.symm⟩
      · exact hx.home s hs
    · exact hx
  · obtain rfl := Option.some.inj hrun
    have hs0 := p.seqToStream_lt hids.1
    have hs1 := p.seqToStream_lt hids.2
    have hsize : (c.vCells (p.seqToStream src)).size ≤ (c.vCells (p.seqToStream dst)).size := by
      rw [h.size _ hs0, h.size _ hs1]
    obtain ⟨hco, hsz, hcell⟩ := cpLoop_spec (h.coherent (p.seqToStream src))
      (fun i hi => h.pos_nonneg hi) (c.vCells (p.seqToStream dst)) src dst _ hsize
    have hinv : CacheInv p ((c.setCells (p.seqToStream dst) (cpLoop (c.vCells (p.seqToStream src))
        (c.vCells (p.seqToStream dst)) src dst (c.vCells (p.seqToStream src)).size)).setHead
        (p.seqToStream dst) (c.vHeads (p.seqToStream src))) := by
      refine CacheInv.setHead (h.setCells hco hsz fun i => ?_) _ (h.head _ hs0)
      rw [hcell]
      split_ifs
      · exact cpCell_ok (h.cells _ i) hids.2
      · exact empty_ok _
    exact ⟨hinv.coherent, hinv.size, hinv.head, hinv.cells⟩

theorem update_inv {c c' : KvCache} (h : CacheInv p c) {graphOk : Bool}
    (hrun : c.update p graphOk = some c') : CacheInv p c' := by
  simp only [update] at hrun
  split_ifs at hrun <;> obtain rfl := Option.some.inj hrun
  · exact ⟨h.coherent, h.size, h.head, h.cells⟩
  · refine ⟨fun t => KvCells.resetShift_coherent (h.coherent t), h.size, h.head, fun t i => ?_⟩
    have hx := h.cells t i
    exact ⟨hx.range, hx.home, fun _ => rfl, hx.ext⟩
  · exact ⟨h.coherent, h.size, h.head, h.cells⟩

/-! ## The cells after an operation, early returns included -/

theorem posIn_self_false {x : KvCell} {q : ℤ} : ¬x.posIn q q = true := by
  rw [KvCell.posIn_iff]
  omega

theorem seqAdd_cell {c c' : KvCache} (h : CacheInv p c) {s : ℕ} {p₀ p₁ shift : ℤ}
    (hrun : c.seqAdd p s p₀ p₁ shift = some c') (t i : ℕ) : (c'.vCells t).cell i =
      ((c.vCells t).cell i).seqAddIn s (rangeBegin p₀) (rangeEnd p₁) shift := by
  rw [seqAdd] at hrun
  split_ifs at hrun with hs hret
  · obtain rfl := Option.some.inj hrun
    rw [KvCell.seqAddIn]
    split_ifs with hg
    · rcases hret with rfl | heq
      · have hpos : (c.vCells t).pos i ≠ -1 := (h.coherent t).pos_of_seq hg.2
        have := h.pos_nonneg hpos
        rw [KvCell.posAdd, if_neg (by simpa using this)]
        simp only [add_zero]
      · rw [heq] at hg
        exact absurd hg.1 posIn_self_false
    · rfl
  · obtain rfl := Option.some.inj hrun
    rw [setHead_vCells]
    by_cases ht : t = p.seqToStream s
    · subst ht
      rw [setCells_vCells_self]
      exact addLoop_cell h s p₀ p₁ shift i
    · rw [setCells_vCells_of_ne _ _ _ ht, KvCell.seqAddIn, if_neg]
      exact fun hg => ht ((h.cells t i).home s hg.2).2.symm

theorem seqDiv_cell {c c' : KvCache} (h : CacheInv p c) {s : ℕ} {p₀ p₁ d : ℤ} (hd : 0 < d)
    (hrun : c.seqDiv p s p₀ p₁ d = some c') (t i : ℕ) : (c'.vCells t).cell i =
      ((c.vCells t).cell i).seqDivIn s (rangeBegin p₀) (rangeEnd p₁) d := by
  rw [seqDiv] at hrun
  split_ifs at hrun with hs hret
  · obtain rfl := Option.some.inj hrun
    rw [KvCell.seqDivIn]
    split_ifs with hg
    · rcases hret with rfl | heq
      · simp only [KvCell.posDiv, Int.tdiv_one, sub_self, add_zero]
      · rw [heq] at hg
        exact absurd hg.1 posIn_self_false
    · rfl
  · obtain rfl := Option.some.inj hrun
    by_cases ht : t = p.seqToStream s
    · subst ht
      rw [setCells_vCells_self]
      exact divLoop_cell h s p₀ p₁ hd i
    · rw [setCells_vCells_of_ne _ _ _ ht, KvCell.seqDivIn, if_neg]
      exact fun hg => ht ((h.cells t i).home s hg.2).2.symm

theorem seqCp_cell_same {c c' : KvCache} (h : CacheInv p c) {src dst : ℕ} {p₀ p₁ : ℤ}
    (hsame : p.seqToStream src = p.seqToStream dst) (hrun : c.seqCp p src dst p₀ p₁ = some c')
    (t i : ℕ) : (c'.vCells t).cell i =
      ((c.vCells t).cell i).seqCpIn src dst (rangeBegin p₀) (rangeEnd p₁) := by
  simp only [seqCp] at hrun
  split_ifs at hrun with hids heq
  · obtain rfl := Option.some.inj hrun
    rw [KvCell.seqCpIn]
    split_ifs with hg
    · rw [← heq, Finset.insert_eq_of_mem hg.2]
    · rfl
  · obtain rfl := Option.some.inj hrun
    by_cases ht : t = p.seqToStream src
    · subst ht
      rw [setCells_vCells_self]
      exact (seqCpBody_body src dst _ _).loop_cell (h.coherent _) i
    · rw [setCells_vCells_of_ne _ _ _ ht, KvCell.seqCpIn, if_neg]
      exact fun hg => ht ((h.cells t i).home src hg.2).2.symm

theorem seqCp_cell_cross {c c' : KvCache} (h : CacheInv p c) {src dst : ℕ} {p₀ p₁ : ℤ}
    (hcross : p.seqToStream src ≠ p.seqToStream dst) (hrun : c.seqCp p src dst p₀ p₁ = some c')
    (t i : ℕ) : (c'.vCells t).cell i =
      if t = p.seqToStream dst then cpCell ((c.vCells (p.seqToStream src)).cell i) src dst
      else (c.vCells t).cell i := by
  simp only [seqCp] at hrun
  split_ifs at hrun with hids hfull
  obtain rfl := Option.some.inj hrun
  have hsize : (c.vCells (p.seqToStream src)).size ≤ (c.vCells (p.seqToStream dst)).size := by
    rw [h.size _ (p.seqToStream_lt hids.1), h.size _ (p.seqToStream_lt hids.2)]
  obtain ⟨-, -, hcell⟩ := cpLoop_spec (h.coherent (p.seqToStream src))
    (fun i hi => h.pos_nonneg hi) (c.vCells (p.seqToStream dst)) src dst _ hsize
  split_ifs with ht
  · subst ht
    change ((c.setCells (p.seqToStream dst) _).vCells (p.seqToStream dst)).cell i = _
    rw [setCells_vCells_self]
    refine (hcell i).trans ?_
    split_ifs with hi
    · rfl
    · rw [cpCell, if_neg]
      exact fun hin => hi ((h.coherent _).lt_size hin)
  · change ((c.setCells (p.seqToStream dst) _).vCells t).cell i = _
    rw [setCells_vCells_of_ne _ _ _ ht]

theorem seqRm_cell {c c' : KvCache} (h : CacheInv p c) {seqId : Option ℕ} {p₀ p₁ : ℤ}
    (hrun : c.seqRm p seqId p₀ p₁ = some c') (t i : ℕ) :
    (c'.vCells t).cell i = (c.vCells t).cell i ∨ (c'.vCells t).cell i = .empty ∨
      ∃ s, (c'.vCells t).cell i =
        { (c.vCells t).cell i with seq := ((c.vCells t).seq i).erase s } := by
  cases seqId with
  | none =>
    obtain rfl := Option.some.inj hrun
    by_cases ht : t < p.nStream
    · rw [seqRmAll_cell h p₀ p₁ ht, KvCell.rmIn]
      split_ifs
      · exact .inr (.inl rfl)
      · exact .inl rfl
    · rw [seqRmAll_vCells, if_neg ht]
      exact .inl rfl
  | some s =>
    simp only [seqRm] at hrun
    split_ifs at hrun
    obtain rfl := Option.some.inj hrun
    rw [seqRmOne_cell h, KvCell.seqRmIn, KvCell.seqRm]
    split_ifs
    · exact .inr (.inl rfl)
    · exact .inr (.inr ⟨s, rfl⟩)
    · exact .inl rfl

end KvCache
end RocmFpx
