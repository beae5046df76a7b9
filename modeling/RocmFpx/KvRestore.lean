import RocmFpx.KvCellsCopy
import RocmFpx.KvPlacing

/-!
The restoring half of `prepare`. `probe` is the same computation with each ubatch tried
and undone around the rest, so that facts about it go by induction on the ubatches.
-/

namespace RocmFpx
namespace KvCache

open PointwiseLoop

variable {E : Type*} {p : KvParams}

/-! ## Undoing one ubatch -/

theorem mem_keys (sinfo : SlotInfo) (x : ℕ × ℕ) :
    x ∈ sinfo.placements.map placeKey ↔ ∃ slot ∈ sinfo.slots, slot.1 = x.1 ∧ x.2 ∈ slot.2 := by
  rw [placements_keys, List.mem_flatMap]
  refine exists_congr fun slot => and_congr_right fun _ => ?_
  rw [List.mem_map]
  constructor
  · rintro ⟨i, hi, rfl⟩
    exact ⟨rfl, hi⟩
  · rintro ⟨h1, h2⟩
    exact ⟨x.2, h2, by rw [h1]⟩

theorem undoSlot_cells (st : PrepState) :
    Pointwise KvCache.vCells (undoSlot st) (fun slot => slot.1.1)
      (fun slot cells => cells.setIdxs slot.1.2 (st.vCells.getD slot.2 KvCells.init)) :=
  fun _ _ => rfl

theorem undoSlot_heads (st : PrepState) :
    Pointwise KvCache.vHeads (undoSlot st) (fun slot => slot.1.1)
      (fun slot _ => st.vHeadsOld slot.2) :=
  fun _ _ => rfl

theorem zipIdx_keys (sinfo : SlotInfo) :
    sinfo.slots.zipIdx.map (fun slot => slot.1.1) = sinfo.slots.map Prod.fst := by
  have h := congrArg (List.map Prod.fst) (List.zipIdx_map_fst 0 sinfo.slots)
  rw [List.map_map] at h
  exact h

section

variable {c c₀ : KvCache} {sinfo : SlotInfo} (hnd : (sinfo.slots.map Prod.fst).Nodup)
include hnd

theorem undoState_cells {s : ℕ} {slot : ℕ × List ℕ} (hs : sinfo.slots[s]? = some slot) :
    (undoState c (saveState c₀ sinfo)).vCells slot.1 =
      (c.vCells slot.1).setIdxs slot.2 ((c₀.vCells slot.1).cpIdxs slot.2) := by
  have hmem : (slot, s) ∈ sinfo.slots.zipIdx := List.mem_zipIdx_iff_getElem?.mpr hs
  have hsaved : (saveState c₀ sinfo).vCells.getD s KvCells.init =
      (c₀.vCells slot.1).cpIdxs slot.2 := by
    rw [saveState, List.getD_eq_getElem?_getD, List.getElem?_map, hs]
    rfl
  have h := (undoSlot_cells (saveState c₀ sinfo)).foldl_of_mem
    (by rw [zipIdx_keys]; exact hnd) c hmem
  rw [hsaved] at h
  exact h

theorem undoState_head {s : ℕ} {slot : ℕ × List ℕ} (hs : sinfo.slots[s]? = some slot) :
    (undoState c (saveState c₀ sinfo)).vHeads slot.1 = c₀.vHeads s := by
  have hmem : (slot, s) ∈ sinfo.slots.zipIdx := List.mem_zipIdx_iff_getElem?.mpr hs
  exact (undoSlot_heads (saveState c₀ sinfo)).foldl_of_mem (by rw [zipIdx_keys]; exact hnd) c hmem

omit hnd in
theorem undoState_cells_other {t : ℕ} (ht : t ∉ sinfo.slots.map Prod.fst) :
    (undoState c (saveState c₀ sinfo)).vCells t = c.vCells t :=
  (undoSlot_cells _).foldl_of_notMem _ c (by rw [saveState, zipIdx_keys]; exact ht)

omit hnd in
theorem undoState_head_other {t : ℕ} (ht : t ∉ sinfo.slots.map Prod.fst) :
    (undoState c (saveState c₀ sinfo)).vHeads t = c.vHeads t :=
  (undoSlot_heads _).foldl_of_notMem _ c (by rw [saveState, zipIdx_keys]; exact ht)

end

theorem setIdxs_cpIdxs_cell {cells saved : KvCells} {idxs : List ℕ} (hnd : idxs.Nodup) (i : ℕ) :
    (cells.setIdxs idxs (saved.cpIdxs idxs)).cell i =
      if i ∈ idxs then (cells.cell i).overwrite (saved.cell i) else cells.cell i := by
  rw [KvCells.setIdxs_eq_setLoop]
  split_ifs with hi
  · obtain ⟨j, hj, rfl⟩ := List.getElem_of_mem hi
    have hslot : idxs.getD j 0 = idxs[j] := List.getD_eq_getElem _ _ hj
    have hlast : ∀ k, j < k → k < (saved.cpIdxs idxs).size → idxs.getD k 0 ≠ idxs.getD j 0 := by
      intro k hjk hk heq
      rw [hslot, List.getD_eq_getElem _ _ hk] at heq
      have := (hnd.getElem_inj_iff).mp heq
      omega
    have h := KvCells.setLoop_cell_last cells (idxs.getD · 0) (saved.cpIdxs idxs) hj hlast
    rw [hslot] at h
    rw [h, KvCells.cpIdxs_cell saved idxs hj]
    rfl
  · refine KvCells.setLoop_cell_other cells _ _ fun j hj heq => hi ?_
    rw [← heq, List.getD_eq_getElem _ _ hj]
    exact List.getElem_mem _

theorem setIdxs_cpIdxs_coherent {cells saved : KvCells} (h : cells.Coherent)
    (hsaved : saved.Coherent) {idxs : List ℕ} (hlt : ∀ i ∈ idxs, i < cells.size) :
    (cells.setIdxs idxs (saved.cpIdxs idxs)).Coherent := by
  rw [KvCells.setIdxs_eq_setLoop]
  refine (List.foldlRecOn _ _ (motive := fun d : KvCells => d.Coherent ∧ d.size = cells.size)
    ⟨h, rfl⟩ (fun d hd j hj => ?_)).1
  have hj' : j < idxs.length := List.mem_range.mp hj
  have hidx : idxs.getD j 0 < d.size := by
    rw [hd.2, List.getD_eq_getElem _ _ hj']
    exact hlt _ (List.getElem_mem hj')
  refine ⟨KvCells.setCell_coherent hd.1 hidx fun hpos => ?_, by rw [KvCells.setCell_size, hd.2]⟩
  have hcell := KvCells.cpIdxs_cell saved idxs hj'
  have hp : saved.pos idxs[j] = -1 := (congrArg KvCell.pos hcell).symm.trans hpos
  exact (congrArg KvCell.seq hcell).trans (hsaved.empty_seq _ hp)

section

variable {c c₀ : KvCache} {ub : Ubatch E} {sinfo : SlotInfo}

theorem undoState_cellAt (hok : SlotOk (p := p) c₀ ub sinfo) (x : ℕ × ℕ) :
    (undoState c (saveState c₀ sinfo)).cellAt x =
      if x ∈ sinfo.placements.map placeKey then (c.cellAt x).overwrite (c₀.cellAt x)
      else c.cellAt x := by
  obtain ⟨t, i⟩ := x
  by_cases ht : t ∈ sinfo.slots.map Prod.fst
  · obtain ⟨slot, hslot, rfl⟩ := List.mem_map.mp ht
    obtain ⟨s, hs⟩ := List.mem_iff_getElem?.mp hslot
    have hmem : (slot.1, i) ∈ sinfo.placements.map placeKey ↔ i ∈ slot.2 := by
      rw [mem_keys]
      constructor
      · rintro ⟨slot', hslot', h1, h2⟩
        rw [List.inj_on_of_nodup_map hok.strm_nodup hslot' hslot h1] at h2
        exact h2
      · exact fun hi => ⟨slot, hslot, rfl, hi⟩
    rw [cellAt, undoState_cells hok.strm_nodup hs, setIdxs_cpIdxs_cell (hok.idxs_nodup slot hslot)]
    simp only [hmem]
    rfl
  · have hmem : (t, i) ∉ sinfo.placements.map placeKey := by
      rw [mem_keys]
      rintro ⟨slot, hslot, h1, -⟩
      exact ht (List.mem_map.mpr ⟨slot, hslot, h1⟩)
    rw [if_neg hmem, cellAt, undoState_cells_other ht]
    rfl

theorem SlotOk.slots_le (hok : SlotOk (p := p) c₀ ub sinfo) : sinfo.slots.length ≤ p.nStream := by
  have hsub : sinfo.slots.map Prod.fst ⊆ List.range p.nStream := by
    intro t ht
    obtain ⟨slot, hslot, rfl⟩ := List.mem_map.mp ht
    exact List.mem_range.mpr (hok.strm_lt slot hslot)
  simpa using (hok.strm_nodup.subperm hsub).length_le

theorem undoState_inv (hok : SlotOk (p := p) c₀ ub sinfo) (h₀ : CacheInv p c₀) (h : CacheInv p c)
    (hshift : ∀ x ∈ sinfo.placements.map placeKey, (c.cellAt x).shift = 0) :
    CacheInv p (undoState c (saveState c₀ sinfo)) := by
  have hcells : ∀ t, (undoState c (saveState c₀ sinfo)).vCells t = c.vCells t ∨
      ∃ (s : ℕ) (slot : ℕ × List ℕ), sinfo.slots[s]? = some slot ∧ slot.1 = t := by
    intro t
    by_cases ht : t ∈ sinfo.slots.map Prod.fst
    · obtain ⟨slot, hslot, rfl⟩ := List.mem_map.mp ht
      obtain ⟨s, hs⟩ := List.mem_iff_getElem?.mp hslot
      exact .inr ⟨s, slot, hs, rfl⟩
    · exact .inl (undoState_cells_other ht)
  refine ⟨fun t => ?_, fun t ht => ?_, fun t ht => ?_, fun t i => ?_⟩
  · rcases hcells t with heq | ⟨s, slot, hs, rfl⟩
    · rw [heq]
      exact h.coherent t
    · have hslot := List.mem_of_getElem? hs
      rw [undoState_cells hok.strm_nodup hs]
      refine setIdxs_cpIdxs_coherent (h.coherent _) (h₀.coherent _) fun i hi => ?_
      rw [h.size _ (hok.strm_lt slot hslot)]
      exact (hok.usable slot hslot i hi).1
  · rcases hcells t with heq | ⟨s, slot, hs, rfl⟩
    · rw [heq]
      exact h.size t ht
    · rw [undoState_cells hok.strm_nodup hs, KvCells.setIdxs_eq_setLoop, KvCells.setLoop_size]
      exact h.size _ ht
  · by_cases hmem : t ∈ sinfo.slots.map Prod.fst
    · obtain ⟨slot, hslot, rfl⟩ := List.mem_map.mp hmem
      obtain ⟨s, hs⟩ := List.mem_iff_getElem?.mp hslot
      rw [undoState_head hok.strm_nodup hs]
      have := hok.slots_le
      have := (List.getElem?_eq_some_iff.mp hs).1
      exact h₀.head s (by omega)
    · rw [undoState_head_other hmem]
      exact h.head t ht
  · have hcell := undoState_cellAt (c := c) hok (t, i)
    change CellOk p t ((undoState c (saveState c₀ sinfo)).cellAt (t, i))
    rw [hcell]
    split_ifs with hmem
    · have hx := h₀.cells t i
      exact ⟨hx.range, hx.home, fun _ => hshift _ hmem, hx.ext⟩
    · exact h.cells t i

end

/-! ## The whole of `prepare` -/

/-- Try the ubatches and take them back. -/
def probe (p : KvParams) (c : KvCache) : List (Ubatch E) → KvCache
  | [] => c
  | ub :: ubs =>
    match findSlot p c ub with
    | some (some sinfo) =>
      if sinfo.slots = [] then c
      else undoState (probe p (applyUbatch p c sinfo ub) ubs) (saveState c sinfo)
    | _ => c

theorem tryAll_probe (ubs : List (Ubatch E)) {c cEnd : KvCache} {states : List PrepState} {ok : Bool}
    (hrun : tryAll p c ubs = some (cEnd, states, ok)) :
    states.reverse.foldl undoState cEnd = probe p c ubs := by
  induction ubs generalizing c states with
  | nil =>
    obtain ⟨rfl, rfl, -⟩ : c = cEnd ∧ [] = states ∧ true = ok := by simpa [tryAll] using hrun
    rfl
  | cons ub ubs ih =>
    rw [tryAll] at hrun
    rw [probe]
    rcases hfind : findSlot p c ub with _ | _ | sinfo
    · simp [hfind] at hrun
    · obtain ⟨rfl, rfl, -⟩ : c = cEnd ∧ [] = states ∧ false = ok := by simpa [hfind] using hrun
      rfl
    · simp only [hfind] at hrun ⊢
      split_ifs at hrun ⊢ with hnil
      · obtain ⟨rfl, rfl, -⟩ : c = cEnd ∧ [] = states ∧ false = ok := by simpa using hrun
        rfl
      · obtain ⟨⟨c', states', ok'⟩, hrest, heq⟩ := Option.map_eq_some_iff.mp hrun
        obtain ⟨rfl, rfl, rfl⟩ : c' = cEnd ∧ saveState c sinfo :: states' = states ∧ ok' = ok := by
          simpa using heq
        rw [List.reverse_cons, List.foldl_append, ih hrest]
        rfl

theorem prepare_probe {ubs : List (Ubatch E)} {c c' : KvCache} {res : List SlotInfo}
    (hrun : prepare p c ubs = some (c', res)) : c' = probe p c ubs := by
  rw [prepare] at hrun
  rcases htry : tryAll p c ubs with _ | ⟨cEnd, states, ok⟩
  · simp [htry] at hrun
  · simp only [htry] at hrun
    split_ifs at hrun
    all_goals
      rw [← tryAll_probe ubs htry]
      exact (congrArg Prod.fst (Option.some.inj hrun)).symm

/-- The facts about a tried ubatch, for inductions on the list. -/
theorem probe_induction {motive : KvCache → List (Ubatch E) → KvCache → Prop}
    (stop : ∀ c ubs, motive c ubs c)
    (step : ∀ c ub ubs sinfo, CacheInv p c → Fits p ub → SlotOk (p := p) c ub sinfo →
      findSlot p c ub = some (some sinfo) → sinfo.slots ≠ [] →
      motive (applyUbatch p c sinfo ub) ubs (probe p (applyUbatch p c sinfo ub) ubs) →
      motive c (ub :: ubs)
        (undoState (probe p (applyUbatch p c sinfo ub) ubs) (saveState c sinfo)))
    {c : KvCache} (h : CacheInv p c) (ubs : List (Ubatch E)) (hfit : ∀ ub ∈ ubs, Fits p ub) :
    motive c ubs (probe p c ubs) := by
  induction ubs generalizing c with
  | nil => exact stop c []
  | cons ub ubs ih =>
    have hub := hfit ub List.mem_cons_self
    rw [probe]
    rcases hfind : findSlot p c ub with _ | _ | sinfo
    · exact stop c _
    · exact stop c _
    · have hok := findSlot_sound h hub hfind
      simp only
      split_ifs with hnil
      · exact stop c _
      · exact step c ub ubs sinfo h hub hok hfind hnil
          (ih (applyUbatch_inv h hub hok) fun ub' h' => hfit ub' (List.mem_cons_of_mem _ h'))

/-! ## What trying cannot do -/

theorem dropSeqs_shift {D : Finset ℕ} {x : KvCell} (h : x.shift = 0) : (x.dropSeqs D).shift = 0 := by
  rw [KvCell.dropSeqs]
  split_ifs
  · exact h
  · rfl
  · exact h

theorem applyUbatch_cell_of_mem {c : KvCache} (h : CacheInv p c) {ub : Ubatch E} (hfit : Fits p ub)
    {sinfo : SlotInfo} (hok : SlotOk (p := p) c ub sinfo) {x : ℕ × ℕ}
    (hx : x ∈ sinfo.placements.map placeKey) :
    ((applyUbatch p c sinfo ub).cellAt x).shift = 0 := by
  obtain ⟨⟨t, idx, i⟩, hmem, rfl⟩ := List.mem_map.mp hx
  rw [applyUbatch_cellAt h hfit hok]
  refine dropSeqs_shift ?_
  change ((placeAll p c sinfo ub).cache.cellAt (t, idx)).shift = 0
  rw [placeAll_cell_of_mem hok hmem, KvCell.place]
  split_ifs with hpos
  · exact (h.cells t idx).fresh hpos
  · rfl

theorem applyUbatch_cell_of_notMem {c : KvCache} (h : CacheInv p c) {ub : Ubatch E}
    (hfit : Fits p ub) {sinfo : SlotInfo} (hok : SlotOk (p := p) c ub sinfo) {x : ℕ × ℕ}
    (hx : x ∉ sinfo.placements.map placeKey) :
    (applyUbatch p c sinfo ub).cellAt x =
      (c.cellAt x).dropSeqs (purged (placeAll p c sinfo ub).seqPosMaxRm (c.cellAt x).pos) := by
  rw [applyUbatch_cellAt h hfit hok, placeAll_cell_of_notMem ub hx]

theorem applyUbatch_shift {c : KvCache} (h : CacheInv p c) {ub : Ubatch E} (hfit : Fits p ub)
    {sinfo : SlotInfo} (hok : SlotOk (p := p) c ub sinfo) (x : ℕ × ℕ)
    (hx : (c.cellAt x).shift = 0) : ((applyUbatch p c sinfo ub).cellAt x).shift = 0 := by
  by_cases hmem : x ∈ sinfo.placements.map placeKey
  · exact applyUbatch_cell_of_mem h hfit hok hmem
  · rw [applyUbatch_cell_of_notMem h hfit hok hmem]
    exact dropSeqs_shift hx

theorem probe_shift {c : KvCache} (h : CacheInv p c) (ubs : List (Ubatch E))
    (hfit : ∀ ub ∈ ubs, Fits p ub) (x : ℕ × ℕ) (hx : (c.cellAt x).shift = 0) :
    ((probe p c ubs).cellAt x).shift = 0 := by
  revert hx
  refine probe_induction (motive := fun c _ e => (c.cellAt x).shift = 0 → (e.cellAt x).shift = 0)
    (fun _ _ hx => hx) (fun c ub ubs sinfo h hub hok _ _ ih hx => ?_) h ubs hfit
  rw [undoState_cellAt hok]
  have hnext := applyUbatch_shift h hub hok x hx
  split_ifs <;> exact ih hnext

theorem probe_seq_subset {c : KvCache} (h : CacheInv p c) (ubs : List (Ubatch E))
    (hfit : ∀ ub ∈ ubs, Fits p ub) (x : ℕ × ℕ) :
    ((probe p c ubs).cellAt x).seq ⊆ (c.cellAt x).seq := by
  refine probe_induction (motive := fun c _ e => (e.cellAt x).seq ⊆ (c.cellAt x).seq)
    (fun _ _ => Finset.Subset.refl _) (fun c ub ubs sinfo h hub hok _ _ ih => ?_) h ubs hfit
  rw [undoState_cellAt hok]
  split_ifs with hmem
  · exact Finset.Subset.refl _
  · refine ih.trans ?_
    rw [applyUbatch_cell_of_notMem h hub hok hmem, KvCell.dropSeqs_seq]
    exact Finset.sdiff_subset

theorem probe_inv {c : KvCache} (h : CacheInv p c) (ubs : List (Ubatch E))
    (hfit : ∀ ub ∈ ubs, Fits p ub) : CacheInv p (probe p c ubs) := by
  induction ubs generalizing c with
  | nil => exact h
  | cons ub ubs ih =>
    have hub := hfit ub List.mem_cons_self
    have hrest : ∀ ub' ∈ ubs, Fits p ub' := fun ub' h' => hfit ub' (List.mem_cons_of_mem _ h')
    rw [probe]
    rcases hfind : findSlot p c ub with _ | _ | sinfo
    · exact h
    · exact h
    · have hok := findSlot_sound h hub hfind
      have hnext := applyUbatch_inv h hub hok
      simp only
      split_ifs
      · exact h
      · exact undoState_inv hok h (ih hnext hrest) fun x hx =>
          probe_shift hnext ubs hrest x (applyUbatch_cell_of_mem h hub hok hx)

theorem prepare_inv {c c' : KvCache} (h : CacheInv p c) {ubs : List (Ubatch E)}
    (hfit : ∀ ub ∈ ubs, Fits p ub) {res : List SlotInfo} (hrun : prepare p c ubs = some (c', res)) :
    CacheInv p c' :=
  prepare_probe hrun ▸ probe_inv h ubs hfit

end KvCache
end RocmFpx

/-!
The caches a program can get to. `state_read` appears through its elementary steps:
`seq_rm` and `apply_ubatch`, or `clear` and the filling of single cells, with the stored
`ext` put back at the end. A slot given to `apply` need not come from the present state,
as `prepare` finds the slots of all ubatches before the first one is applied.
-/

namespace RocmFpx
namespace KvCache

/-- Filling an empty cell while a whole cache is read back. -/
def loadCell (c : KvCache) (strm i : ℕ) (pos : ℤ) (ext : KvCellExt) (seqs : List ℕ) : KvCache :=
  c.setCells strm
    (seqs.foldl (fun cells s => cells.seqAdd i s) (((c.vCells strm).posSet i pos).extSet i ext))

def extSetAt (c : KvCache) (strm i : ℕ) (ext : KvCellExt) : KvCache :=
  c.setCells strm ((c.vCells strm).extSet i ext)

inductive Reachable (E : Type*) (p : KvParams) : KvCache → Prop
  | init : Reachable E p (init p)
  | clear {c} (h : Reachable E p c) : Reachable E p c.clear
  | seqRm {c c'} (h : Reachable E p c) (s : Option ℕ) (p₀ p₁ : ℤ)
      (hrun : c.seqRm p s p₀ p₁ = some c') : Reachable E p c'
  | seqCp {c c'} (h : Reachable E p c) (src dst : ℕ) (p₀ p₁ : ℤ)
      (hrun : c.seqCp p src dst p₀ p₁ = some c') : Reachable E p c'
  | seqKeep {c c'} (h : Reachable E p c) (s : ℕ) (hrun : c.seqKeep p s = some c') :
      Reachable E p c'
  | seqAdd {c c'} (h : Reachable E p c) (s : ℕ) (p₀ p₁ shift : ℤ)
      (hfit : AddFits (p := p) c s p₀ p₁ shift) (hrun : c.seqAdd p s p₀ p₁ shift = some c') :
      Reachable E p c'
  | seqDiv {c c'} (h : Reachable E p c) (s : ℕ) (p₀ p₁ d : ℤ) (hd : 0 < d)
      (hrun : c.seqDiv p s p₀ p₁ d = some c') : Reachable E p c'
  | update {c c'} (h : Reachable E p c) (graphOk : Bool) (hrun : c.update p graphOk = some c') :
      Reachable E p c'
  | prepare {c c'} (h : Reachable E p c) (ubs : List (Ubatch E)) (hfit : ∀ ub ∈ ubs, Fits p ub)
      (res : List SlotInfo) (hrun : prepare p c ubs = some (c', res)) : Reachable E p c'
  | apply {c} (h : Reachable E p c) (ub : Ubatch E) (hfit : Fits p ub) (sinfo : SlotInfo)
      (hok : SlotOk (p := p) c ub sinfo) : Reachable E p (applyUbatch p c sinfo ub)
  | loadCell {c} (h : Reachable E p c) (strm i : ℕ) (pos : ℤ) (ext : KvCellExt) (seqs : List ℕ)
      (hstrm : strm < p.nStream) (hi : i < p.kvSize) (hempty : (c.vCells strm).pos i = -1)
      (hpos : 0 ≤ pos ∧ pos < llamaPosMax) (hext : ExtOk ext)
      (hseqs : ∀ s ∈ seqs, s < p.seqToStreamSize ∧ p.seqToStream s = strm) :
      Reachable E p (c.loadCell strm i pos ext seqs)
  | extSetAt {c} (h : Reachable E p c) (strm i : ℕ) (ext : KvCellExt) (hext : ExtOk ext) :
      Reachable E p (c.extSetAt strm i ext)
  | resetHead {c} (h : Reachable E p c) (strm : ℕ) : Reachable E p (c.setHead strm 0)

variable {E : Type*} {p : KvParams}

theorem loadCell_inv {c : KvCache} (h : CacheInv p c) {strm i : ℕ} {pos : ℤ} {ext : KvCellExt}
    {seqs : List ℕ} (hstrm : strm < p.nStream) (hi : i < p.kvSize)
    (hempty : (c.vCells strm).pos i = -1) (hpos : 0 ≤ pos ∧ pos < llamaPosMax) (hext : ExtOk ext)
    (hseqs : ∀ s ∈ seqs, s < p.seqToStreamSize ∧ p.seqToStream s = strm) :
    CacheInv p (c.loadCell strm i pos ext seqs) := by
  have hne : pos ≠ -1 := by omega
  have hi' : i < (c.vCells strm).size := by
    rw [h.size strm hstrm]
    exact hi
  have hset := KvCells.posSet_coherent (h.coherent strm) hi' hempty hne
  have hadds : ∀ (ss : List ℕ) (cells : KvCells), cells.Coherent → cells.pos i = pos →
      (ss.foldl (fun cells s => cells.seqAdd i s) cells).Coherent ∧
      (ss.foldl (fun cells s => cells.seqAdd i s) cells).size = cells.size := by
    intro ss
    induction ss with
    | nil => exact fun cells hc _ => ⟨hc, rfl⟩
    | cons s ss ih =>
      intro cells hc hp
      exact ih _ (KvCells.seqAdd_coherent hc s (by rw [hp]; exact hne)) hp
  have hfinal := hadds seqs _ (KvCells.extSet_coherent hset i ext)
    (by simp [KvCells.extSet, KvCells.posSet])
  refine h.setCells hfinal.1 hfinal.2 (fun j => ?_)
  rw [seqAdds_cell, KvCells.extSet_cell, KvCells.posSet_cell]
  by_cases hj : j = i
  · subst hj
    simp only [Function.update_self]
    refine ⟨fun _ => hpos, fun q hq => ?_, fun h1 => absurd h1 hne, hext⟩
    rcases Finset.mem_union.mp hq with hq | hq
    · exact (h.cells strm j).home q hq
    · exact hseqs q (List.mem_toFinset.mp hq)
  · simp only [Function.update_of_ne hj]
    exact h.cells strm j

theorem extSetAt_inv {c : KvCache} (h : CacheInv p c) (strm i : ℕ) {ext : KvCellExt}
    (hext : ExtOk ext) : CacheInv p (c.extSetAt strm i ext) := by
  refine h.setCells (KvCells.extSet_coherent (h.coherent strm) i ext) rfl (fun j => ?_)
  have hx := h.cells strm j
  rw [KvCells.extSet_cell]
  by_cases hj : j = i
  · subst hj
    rw [Function.update_self]
    exact ⟨hx.range, hx.home, hx.fresh, hext⟩
  · rw [Function.update_of_ne hj]
    exact hx

theorem Reachable.inv {c : KvCache} (h : Reachable E p c) : CacheInv p c := by
  induction h with
  | init => exact init_inv
  | clear _ ih => exact clear_inv ih
  | seqRm _ _ _ _ hrun ih => exact seqRm_inv ih hrun
  | seqCp _ _ _ _ _ hrun ih => exact seqCp_inv ih hrun
  | seqKeep _ _ hrun ih => exact seqKeep_inv ih hrun
  | seqAdd _ _ _ _ _ hfit hrun ih => exact seqAdd_inv ih hfit hrun
  | seqDiv _ _ _ _ _ hd hrun ih => exact seqDiv_inv ih hd hrun
  | update _ _ hrun ih => exact update_inv ih hrun
  | prepare _ _ hfit _ hrun ih => exact prepare_inv ih hfit hrun
  | apply _ _ hfit _ hok ih => exact applyUbatch_inv ih hfit hok
  | loadCell _ _ _ _ _ _ hstrm hi hempty hpos hext hseqs ih =>
    exact loadCell_inv ih hstrm hi hempty hpos hext hseqs
  | extSetAt _ _ _ _ hext ih => exact extSetAt_inv ih _ _ hext
  | resetHead _ strm ih => exact ih.setHead strm (Nat.zero_le _)

end KvCache
end RocmFpx
