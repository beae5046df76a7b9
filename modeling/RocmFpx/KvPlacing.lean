import RocmFpx.KvSlots

/-!
What `apply_ubatch` does to the cells. Placing writes one record per cell, and the
purge is a function of the cell record once the overwritten maxima are known.
-/

namespace RocmFpx
namespace KvCache

open PointwiseLoop

variable {E : Type*} {p : KvParams}

/-! ## Placing tokens -/

def cellAt (c : KvCache) (x : ℕ × ℕ) : KvCell := (c.vCells x.1).cell x.2

def placeKey (t : ℕ × ℕ × ℕ) : ℕ × ℕ := (t.1, t.2.1)

theorem mem_placements (sinfo : SlotInfo) (t idx i : ℕ) :
    (t, idx, i) ∈ sinfo.placements ↔ ∃ s idxs ii, sinfo.slots[s]? = some (t, idxs) ∧
      idxs[ii]? = some idx ∧ i = s * sinfo.size + ii := by
  simp only [SlotInfo.placements, List.mem_flatMap, List.mem_map, Prod.exists, Prod.mk.injEq,
    List.mem_zipIdx_iff_getElem?]
  constructor
  · rintro ⟨t', idxs, s, hs, idx', ii, hii, rfl, rfl, rfl⟩
    exact ⟨s, idxs, ii, hs, hii, rfl⟩
  · rintro ⟨s, idxs, ii, hs, hii, rfl⟩
    exact ⟨t, idxs, s, hs, idx, ii, hii, rfl, rfl, rfl⟩

theorem placements_keys (sinfo : SlotInfo) :
    sinfo.placements.map placeKey = sinfo.slots.flatMap fun slot => slot.2.map (Prod.mk slot.1) := by
  have inner : ∀ (t : ℕ) (f : ℕ → ℕ) (idxs : List ℕ) (k : ℕ),
      (idxs.zipIdx k).map (placeKey ∘ fun cell => (t, cell.1, f cell.2)) =
        idxs.map (Prod.mk t) := by
    intro t f idxs
    induction idxs with
    | nil => exact fun k => rfl
    | cons idx idxs ih => exact fun k => congrArg ((t, idx) :: ·) (ih (k + 1))
  have outer : sinfo.placements.map placeKey =
      sinfo.slots.zipIdx.flatMap fun slot => slot.1.2.map (Prod.mk slot.1.1) := by
    rw [SlotInfo.placements, List.map_flatMap]
    simp only [List.map_map]
    exact List.flatMap_congr fun slot _ => inner slot.1.1 (slot.2 * sinfo.size + ·) slot.1.2 0
  have hfst := congrArg (fun l => l.flatMap fun slot : ℕ × List ℕ => slot.2.map (Prod.mk slot.1))
    (List.zipIdx_map_fst 0 sinfo.slots)
  simp only [List.flatMap_map] at hfst
  exact outer.trans hfst

theorem SlotOk.keys_nodup {c : KvCache} {ub : Ubatch E} {sinfo : SlotInfo}
    (h : SlotOk (p := p) c ub sinfo) : (sinfo.placements.map placeKey).Nodup := by
  rw [placements_keys, List.nodup_flatMap]
  refine ⟨fun slot hs => (h.idxs_nodup slot hs).map (Prod.mk_right_injective slot.1), ?_⟩
  have hpair : sinfo.slots.Pairwise fun a b => a.1 ≠ b.1 := List.pairwise_map.mp h.strm_nodup
  refine hpair.imp fun {a b} hab => ?_
  rw [Function.onFun, List.disjoint_left]
  intro x ha hb
  obtain ⟨i, -, rfl⟩ := List.mem_map.mp ha
  obtain ⟨j, -, hj⟩ := List.mem_map.mp hb
  exact hab (congrArg Prod.fst hj).symm

/-- What a placement satisfies for a slot that fits. -/
structure PlaceOk (c : KvCache) (ub : Ubatch E) (t idx i : ℕ) : Prop where
  strm_lt : t < p.nStream
  idx_lt : idx < p.kvSize
  usable : canUse p (c.vCells t) idx = true
  tok_lt : i < ub.nTokens
  home : ∀ q ∈ ub.seqIdAt i, q < p.seqToStreamSize ∧ p.seqToStream q = t

theorem SlotOk.place {c : KvCache} {ub : Ubatch E} {sinfo : SlotInfo}
    (h : SlotOk (p := p) c ub sinfo) {t idx i : ℕ} (hmem : (t, idx, i) ∈ sinfo.placements) :
    PlaceOk (p := p) c ub t idx i := by
  obtain ⟨s, idxs, ii, hs, hii, rfl⟩ := (mem_placements sinfo t idx i).mp hmem
  have hslot : (t, idxs) ∈ sinfo.slots := List.mem_of_getElem? hs
  have hidx : idx ∈ idxs := List.mem_of_getElem? hii
  have hiilt : ii < sinfo.size := by
    rw [← h.length _ hslot]
    exact (List.getElem?_eq_some_iff.mp hii).1
  have hslt : s < sinfo.slots.length := (List.getElem?_eq_some_iff.mp hs).1
  refine ⟨h.strm_lt _ hslot, (h.usable _ hslot idx hidx).1, (h.usable _ hslot idx hidx).2, ?_,
    h.home s _ hs ii hiilt⟩
  rw [← h.total]
  calc s * sinfo.size + ii < s * sinfo.size + sinfo.size := by omega
    _ = (s + 1) * sinfo.size := by ring
    _ ≤ sinfo.slots.length * sinfo.size := Nat.mul_le_mul_right _ hslt

end KvCache

namespace KvCell

variable {E : Type*} (p : KvParams)

/-- The record of a cell after token `i` was written into it while it was empty. -/
def fill (ub : Ubatch E) (i : ℕ) (x : KvCell) : KvCell where
  pos := ub.posAt i
  ext := if KvCache.storesExt p ub then KvCache.ubatchExt p ub i else x.ext
  shift := x.shift
  seq := x.seq ∪ (ub.seqIdAt i).toFinset

def place (ub : Ubatch E) (i : ℕ) (x : KvCell) : KvCell :=
  (if x.pos = -1 then x else empty).fill p ub i

/-- The lowest sequence of the cell. -/
def owner (x : KvCell) : Option ℕ := (List.range llamaMaxSeq).find? fun s => decide (s ∈ x.seq)

theorem owner_mem {x : KvCell} {s : ℕ} (h : x.owner = some s) : s ∈ x.seq := by
  simpa using List.find?_some h

def purge (s : ℕ) (m : ℤ) (x : KvCell) : KvCell :=
  if m ≠ -1 ∧ s ∈ x.seq ∧ x.pos ≤ m then x.seqRm s else x

/-- The cell without the sequences of `D`; it becomes empty if it loses all it had. -/
def dropSeqs (D : Finset ℕ) (x : KvCell) : KvCell :=
  if x.seq \ D = x.seq then x else if x.seq \ D = ∅ then empty else { x with seq := x.seq \ D }

theorem dropSeqs_seq (D : Finset ℕ) (x : KvCell) : (x.dropSeqs D).seq = x.seq \ D := by
  rw [dropSeqs]
  split_ifs with h1 h2
  · exact h1.symm
  · exact h2.symm
  · rfl

theorem dropSeqs_of_mem {D : Finset ℕ} {x : KvCell} {s : ℕ} (h : s ∈ (x.dropSeqs D).seq) :
    x.dropSeqs D = { x with seq := x.seq \ D } := by
  rw [dropSeqs_seq] at h
  rw [dropSeqs]
  split_ifs with h1 h2
  · rw [h1]
  · rw [h2] at h
    exact absurd h (Finset.notMem_empty s)
  · rfl

theorem dropSeqs_eq_self {D : Finset ℕ} {x : KvCell} :
    x.dropSeqs D = x ↔ Disjoint x.seq D := by
  rw [← Finset.sdiff_eq_self_iff_disjoint]
  constructor
  · intro h
    rw [← dropSeqs_seq, h]
  · exact fun h => if_pos h

theorem dropSeqs_insert (D : Finset ℕ) (s : ℕ) (x : KvCell) :
    x.dropSeqs (insert s D) = if s ∈ (x.dropSeqs D).seq then (x.dropSeqs D).seqRm s else x.dropSeqs D := by
  have herase : x.seq \ insert s D = (x.seq \ D).erase s := by
    rw [Finset.sdiff_insert]
  split_ifs with hs
  · rw [dropSeqs_of_mem hs]
    rw [dropSeqs_seq] at hs
    have hne : x.seq \ insert s D ≠ x.seq := by
      intro heq
      have hin := (Finset.mem_sdiff.mp hs).1
      rw [← heq] at hin
      exact (Finset.mem_sdiff.mp hin).2 (Finset.mem_insert_self s D)
    rw [dropSeqs, if_neg hne, seqRm, herase]
  · rw [dropSeqs_seq] at hs
    rw [dropSeqs, herase, Finset.erase_eq_of_notMem hs]
    rfl

theorem foldl_purge (rm : ℕ → ℤ) (x : KvCell) (ss : List ℕ) :
    ss.foldl (fun x s => x.purge s (rm s)) x =
      x.dropSeqs (ss.filter fun s => decide (rm s ≠ -1 ∧ x.pos ≤ rm s)).toFinset := by
  induction ss using List.reverseRecOn with
  | nil => exact (if_pos (by simp)).symm
  | append_singleton ss s ih =>
    rw [List.foldl_append, List.foldl_cons, List.foldl_nil, ih, List.filter_append]
    by_cases hbad : rm s ≠ -1 ∧ x.pos ≤ rm s
    · have hfilter : (ss.filter (fun s => decide (rm s ≠ -1 ∧ x.pos ≤ rm s)) ++
          [s].filter (fun s => decide (rm s ≠ -1 ∧ x.pos ≤ rm s))).toFinset =
          insert s (ss.filter fun s => decide (rm s ≠ -1 ∧ x.pos ≤ rm s)).toFinset := by
        rw [List.filter_cons_of_pos (by simpa using hbad), List.filter_nil, List.toFinset_append,
          Finset.union_comm]
        rfl
      rw [hfilter, dropSeqs_insert, purge]
      by_cases hs : s ∈ (x.dropSeqs (ss.filter fun s => decide (rm s ≠ -1 ∧ x.pos ≤ rm s)).toFinset).seq
      · have hpos := congrArg KvCell.pos (dropSeqs_of_mem hs)
        rw [if_pos hs, if_pos ⟨hbad.1, hs, hpos.trans_le hbad.2⟩]
      · rw [if_neg hs, if_neg fun h => hs h.2.1]
    · rw [List.filter_cons_of_neg (by simpa using hbad), List.filter_nil, List.append_nil, purge,
        if_neg]
      rintro ⟨h1, hs, h3⟩
      have hpos := congrArg KvCell.pos (dropSeqs_of_mem hs)
      exact hbad ⟨h1, hpos ▸ h3⟩

end KvCell

namespace KvCache

open PointwiseLoop

variable {E : Type*} {p : KvParams}

theorem seqAdds_cell (cells : KvCells) (idx : ℕ) (ss : List ℕ) :
    (ss.foldl (fun cells s => cells.seqAdd idx s) cells).cell = Function.update cells.cell idx
      { cells.cell idx with seq := cells.seq idx ∪ ss.toFinset } := by
  induction ss generalizing cells with
  | nil => simp [KvCells.cell]
  | cons s ss ih =>
    rw [List.foldl_cons, ih, KvCells.seqAdd_cell]
    have hseq : (cells.seqAdd idx s).seq idx = insert s (cells.seq idx) := by
      simp [KvCells.seqAdd, KvCells.seqPosInc]
    have hunion : insert s (cells.seq idx) ∪ ss.toFinset = cells.seq idx ∪ (s :: ss).toFinset := by
      rw [List.toFinset_cons, Finset.insert_union, Finset.union_insert]
    rw [Function.update_idem, Function.update_self, hseq, hunion]

theorem fillCell_cell (ub : Ubatch E) (i : ℕ) (cells : KvCells) (idx : ℕ) :
    (fillCell p ub i cells idx).cell =
      Function.update cells.cell idx ((cells.cell idx).fill p ub i) := by
  simp only [fillCell, seqAdds_cell]
  split_ifs with hext
  · rw [KvCells.extSet_cell, KvCells.posSet_cell]
    simp [KvCell.fill, hext, KvCells.extSet, KvCells.posSet]
  · rw [KvCells.posSet_cell]
    simp [KvCell.fill, hext, KvCells.posSet]

theorem fillCell_size (ub : Ubatch E) (i : ℕ) (cells : KvCells) (idx : ℕ) :
    (fillCell p ub i cells idx).size = cells.size := by
  simp only [fillCell]
  refine List.foldlRecOn _ _ (motive := fun d : KvCells => d.size = cells.size) ?_
    (fun d hd s _ => by rw [KvCells.seqAdd_size, hd])
  split_ifs <;> rfl

theorem fillCell_coherent {ub : Ubatch E} {i : ℕ} {cells : KvCells} (h : cells.Coherent) {idx : ℕ}
    (hidx : idx < cells.size) (hempty : cells.pos idx = -1) (hpos : ub.posAt i ≠ -1) :
    (fillCell p ub i cells idx).Coherent := by
  have hset := KvCells.posSet_coherent h hidx hempty hpos
  simp only [fillCell]
  refine (List.foldlRecOn _ _
    (motive := fun d : KvCells => d.Coherent ∧ d.pos idx = ub.posAt i) ?_ ?_).1
  · split_ifs
    · exact ⟨KvCells.extSet_coherent hset idx _, by simp [KvCells.extSet, KvCells.posSet]⟩
    · exact ⟨hset, by simp [KvCells.posSet]⟩
  · intro d hd s _
    refine ⟨KvCells.seqAdd_coherent hd.1 s (by rw [hd.2]; exact hpos), ?_⟩
    exact hd.2

theorem Placing.overwrite_cellAt (st : Placing) (t idx : ℕ) :
    (st.overwrite t idx).cache.cellAt = Function.update st.cache.cellAt (t, idx)
      (if (st.cache.cellAt (t, idx)).pos = -1 then st.cache.cellAt (t, idx) else .empty) := by
  funext x
  obtain ⟨u, j⟩ := x
  simp only [Placing.overwrite, KvCells.isEmpty, decide_eq_true_eq]
  by_cases hpos : (st.cache.vCells t).pos idx = -1
  · rw [if_pos hpos, if_pos (show (st.cache.cellAt (t, idx)).pos = -1 from hpos),
      Function.update_eq_self]
  · rw [if_neg hpos, if_neg (show (st.cache.cellAt (t, idx)).pos ≠ -1 from hpos)]
    by_cases hu : u = t
    · subst hu
      rw [cellAt, setCells_vCells_self, KvCells.rm_cell]
      by_cases hj : j = idx
      · subst hj
        simp
      · rw [Function.update_of_ne hj, Function.update_of_ne (by simpa using hj)]
        rfl
    · rw [cellAt, setCells_vCells_of_ne _ _ _ hu, Function.update_of_ne (by simp [hu])]
      rfl

theorem placeToken_cellAt (ub : Ubatch E) (st : Placing) (t : ℕ × ℕ × ℕ) :
    (placeToken p ub st t).cache.cellAt = Function.update st.cache.cellAt (placeKey t)
      ((st.cache.cellAt (placeKey t)).place p ub t.2.2) := by
  obtain ⟨u, idx, i⟩ := t
  funext x
  obtain ⟨v, j⟩ := x
  have hover := st.overwrite_cellAt u idx
  simp only [placeToken, placeKey]
  by_cases hv : v = u
  · subst hv
    rw [cellAt, setCells_vCells_self, fillCell_cell]
    by_cases hj : j = idx
    · subst hj
      have hself := congrFun hover (v, j)
      rw [Function.update_self] at hself ⊢
      rw [Function.update_self, KvCell.place, ← hself]
      rfl
    · have hother := congrFun hover (v, j)
      rw [Function.update_of_ne (by simpa using hj)] at hother
      rw [Function.update_of_ne hj, Function.update_of_ne (by simpa using hj), ← hother]
      rfl
  · have hother := congrFun hover (v, j)
    rw [Function.update_of_ne (by simp [hv])] at hother
    rw [cellAt, setCells_vCells_of_ne _ _ _ hv, Function.update_of_ne (by simp [hv]), ← hother]
    rfl

theorem placeToken_pointwise (ub : Ubatch E) :
    Pointwise (fun st : Placing => st.cache.cellAt) (placeToken p ub) placeKey
      (fun t x => x.place p ub t.2.2) := placeToken_cellAt ub

theorem Placing.overwrite_rm (st : Placing) (t idx : ℕ) :
    (st.overwrite t idx).seqPosMaxRm =
      if (st.cache.cellAt (t, idx)).pos = -1 then st.seqPosMaxRm
      else (st.cache.cellAt (t, idx)).owner.elim st.seqPosMaxRm fun s =>
        Function.update st.seqPosMaxRm s
          (max (st.seqPosMaxRm s) (st.cache.cellAt (t, idx)).pos) := by
  simp only [Placing.overwrite, KvCells.isEmpty, decide_eq_true_eq]
  by_cases hpos : (st.cache.vCells t).pos idx = -1
  · rw [if_pos hpos, if_pos (show (st.cache.cellAt (t, idx)).pos = -1 from hpos)]
  · rw [if_neg hpos, if_neg (show (st.cache.cellAt (t, idx)).pos ≠ -1 from hpos)]
    rfl

/-- The occupied cells among `ts` that belong to `s`, as they were before placing. -/
def Overwrites (c : KvCache) (ts : List (ℕ × ℕ × ℕ)) (s : ℕ) (q : ℤ) : Prop :=
  ∃ t ∈ ts, (c.cellAt (placeKey t)).pos ≠ -1 ∧ (c.cellAt (placeKey t)).owner = some s ∧
    (c.cellAt (placeKey t)).pos = q

/-- `seq_pos_max_rm` after the loop is the maximum of its start and the overwritten
positions. -/
theorem placeAll_rm (ub : Ubatch E) {ts : List (ℕ × ℕ × ℕ)} (hnd : (ts.map placeKey).Nodup)
    (st : Placing) (s : ℕ) :
    st.seqPosMaxRm s ≤ (ts.foldl (placeToken p ub) st).seqPosMaxRm s ∧
      (∀ q, Overwrites st.cache ts s q → q ≤ (ts.foldl (placeToken p ub) st).seqPosMaxRm s) ∧
      ((ts.foldl (placeToken p ub) st).seqPosMaxRm s = st.seqPosMaxRm s ∨
        Overwrites st.cache ts s ((ts.foldl (placeToken p ub) st).seqPosMaxRm s)) := by
  induction ts generalizing st with
  | nil => exact ⟨le_rfl, by simp [Overwrites], .inl rfl⟩
  | cons t ts ih =>
    rw [List.map_cons, List.nodup_cons] at hnd
    obtain ⟨hle, hall, hsome⟩ := ih hnd.2 (placeToken p ub st t)
    rw [List.foldl_cons]
    have hkept : ∀ t' ∈ ts, (placeToken p ub st t).cache.cellAt (placeKey t') =
        st.cache.cellAt (placeKey t') := by
      intro t' ht'
      rw [placeToken_cellAt, Function.update_of_ne]
      exact fun heq => hnd.1 (heq ▸ List.mem_map_of_mem ht')
    have htail : ∀ q, Overwrites (placeToken p ub st t).cache ts s q ↔ Overwrites st.cache ts s q := by
      intro q
      refine exists_congr fun t' => and_congr_right fun ht' => ?_
      rw [hkept t' ht']
    have hcons : ∀ q, Overwrites st.cache (t :: ts) s q ↔
        ((st.cache.cellAt (placeKey t)).pos ≠ -1 ∧ (st.cache.cellAt (placeKey t)).owner = some s ∧
          (st.cache.cellAt (placeKey t)).pos = q) ∨ Overwrites st.cache ts s q := by
      intro q
      simp only [Overwrites, List.mem_cons, or_and_right, exists_or, exists_eq_left]
    have hstep : (placeToken p ub st t).seqPosMaxRm s =
        if (st.cache.cellAt (placeKey t)).pos ≠ -1 ∧ (st.cache.cellAt (placeKey t)).owner = some s
        then max (st.seqPosMaxRm s) (st.cache.cellAt (placeKey t)).pos else st.seqPosMaxRm s := by
      change (st.overwrite t.1 t.2.1).seqPosMaxRm s = _
      rw [Placing.overwrite_rm]
      change (if (st.cache.cellAt (placeKey t)).pos = -1 then _ else
        (st.cache.cellAt (placeKey t)).owner.elim _ _ : ℕ → ℤ) s = _
      by_cases hpos : (st.cache.cellAt (placeKey t)).pos = -1
      · rw [if_pos hpos, if_neg (fun h => h.1 hpos)]
      · rw [if_neg hpos]
        rcases howner : (st.cache.cellAt (placeKey t)).owner with _ | s'
        · simp
        · by_cases hs : s = s'
          · subst hs
            rw [if_pos ⟨hpos, rfl⟩]
            exact Function.update_self ..
          · rw [if_neg (by simp [Ne.symm hs])]
            exact Function.update_of_ne hs ..
    simp only [htail] at hall hsome
    simp only [hcons]
    rw [hstep] at hle hsome
    split_ifs at hle hsome with hown
    · refine ⟨(le_max_left _ _).trans hle, fun q hq => ?_, ?_⟩
      · rcases hq with ⟨-, -, rfl⟩ | hq
        · exact (le_max_right _ _).trans hle
        · exact hall q hq
      · rcases hsome with heq | hsome
        · rcases max_choice (st.seqPosMaxRm s) (st.cache.cellAt (placeKey t)).pos with hm | hm
          · exact .inl (heq.trans hm)
          · exact .inr (.inl ⟨hown.1, hown.2, (heq.trans hm).symm⟩)
        · exact .inr (.inr hsome)
    · refine ⟨hle, fun q hq => ?_, hsome.imp_right .inr⟩
      rcases hq with ⟨h1, h2, -⟩ | hq
      · exact absurd ⟨h1, h2⟩ hown
      · exact hall q hq

/-! ## Placing keeps the invariant -/

theorem overwrite_inv {st : Placing} (h : CacheInv p st.cache) (t idx : ℕ) :
    CacheInv p (st.overwrite t idx).cache := by
  simp only [Placing.overwrite]
  split_ifs
  · exact h
  · refine h.setCells (KvCells.rm_coherent (h.coherent t) idx) rfl (fun i => ?_)
    rw [KvCells.rm_cell]
    by_cases hi : i = idx
    · subst hi
      rw [Function.update_self]
      exact empty_ok t
    · rw [Function.update_of_ne hi]
      exact h.cells t i

theorem placeToken_inv {ub : Ubatch E} {st : Placing} (h : CacheInv p st.cache) {t idx i : ℕ}
    (ht : t < p.nStream) (hidx : idx < p.kvSize) (hpos : 0 ≤ ub.posAt i ∧ ub.posAt i < llamaPosMax)
    (hext : ExtOk (ubatchExt p ub i))
    (hhome : ∀ q ∈ ub.seqIdAt i, q < p.seqToStreamSize ∧ p.seqToStream q = t) :
    CacheInv p (placeToken p ub st (t, idx, i)).cache := by
  have hover := overwrite_inv h t idx
  have hempty : ((st.overwrite t idx).cache.vCells t).pos idx = -1 := by
    have := congrArg KvCell.pos (congrFun (st.overwrite_cellAt t idx) (t, idx))
    rw [Function.update_self] at this
    split_ifs at this with h1
    · exact this.trans h1
    · exact this
  have hidx' : idx < ((st.overwrite t idx).cache.vCells t).size := by
    rw [hover.size t ht]
    exact hidx
  have hne : ub.posAt i ≠ -1 := by omega
  refine hover.setCells (fillCell_coherent (hover.coherent t) hidx' hempty hne)
    (fillCell_size ub i _ idx) (fun j => ?_)
  rw [fillCell_cell]
  have hx := hover.cells t j
  by_cases hj : j = idx
  · subst hj
    rw [Function.update_self]
    refine ⟨fun _ => hpos, fun q hq => ?_, fun h1 => ?_, ?_⟩
    · rcases Finset.mem_union.mp hq with hq | hq
      · exact hx.home q hq
      · exact hhome q (List.mem_toFinset.mp hq)
    · simp only [KvCell.fill] at h1
      omega
    · simp only [KvCell.fill]
      split_ifs
      · exact hext
      · exact hx.ext
  · rw [Function.update_of_ne hj]
    exact hx

theorem placeAll_inv {c : KvCache} (h : CacheInv p c) {ub : Ubatch E} (hfit : Fits p ub)
    {sinfo : SlotInfo} (hok : SlotOk (p := p) c ub sinfo) :
    CacheInv p (placeAll p c sinfo ub).cache := by
  refine List.foldlRecOn _ _ (motive := fun st : Placing => CacheInv p st.cache) h
    (fun st hst t ht => ?_)
  obtain ⟨u, idx, i⟩ := t
  have hp := hok.place ht
  exact placeToken_inv hst hp.strm_lt hp.idx_lt (hfit.pos i hp.tok_lt) (hfit.ext i hp.tok_lt)
    hp.home

theorem placeAll_cell_of_mem {c : KvCache} {ub : Ubatch E} {sinfo : SlotInfo}
    (hok : SlotOk (p := p) c ub sinfo) {t idx i : ℕ} (hmem : (t, idx, i) ∈ sinfo.placements) :
    (placeAll p c sinfo ub).cache.cellAt (t, idx) = (c.cellAt (t, idx)).place p ub i :=
  (placeToken_pointwise ub).foldl_of_mem hok.keys_nodup ⟨c, fun _ => -1⟩ hmem

theorem placeAll_cell_of_notMem {c : KvCache} (ub : Ubatch E) {sinfo : SlotInfo} {x : ℕ × ℕ}
    (hx : x ∉ sinfo.placements.map placeKey) :
    (placeAll p c sinfo ub).cache.cellAt x = c.cellAt x :=
  (placeToken_pointwise ub).foldl_of_notMem _ ⟨c, fun _ => -1⟩ hx

theorem placeAll_head (c : KvCache) (sinfo : SlotInfo) (ub : Ubatch E) :
    (placeAll p c sinfo ub).cache.vHeads = c.vHeads :=
  List.foldlRecOn _ _ (motive := fun st : Placing => st.cache.vHeads = c.vHeads) rfl
    (fun st hst t _ => by
      rw [← hst]
      simp only [placeToken, Placing.overwrite, setCells_vHeads]
      split_ifs <;> rfl)

/-! ## The purge -/

theorem purgeSeq_inv {c : KvCache} (h : CacheInv p c) (rm : ℕ → ℤ) (s : ℕ) :
    CacheInv p (purgeSeq p rm c s) := by
  rw [purgeSeq]
  split_ifs
  · exact h
  · exact seqRmOne_inv h s _ _
  · exact h

theorem purgeSeq_cellAt {c : KvCache} (h : CacheInv p c) {rm : ℕ → ℤ} {s : ℕ} (hrm : -1 ≤ rm s)
    (x : ℕ × ℕ) : (purgeSeq p rm c s).cellAt x = (c.cellAt x).purge s (rm s) := by
  obtain ⟨t, i⟩ := x
  rw [purgeSeq, KvCell.purge]
  by_cases hnone : rm s = -1
  · rw [if_pos hnone, if_neg (fun h => h.1 hnone)]
  rw [if_neg hnone]
  have hmin : s ∈ (c.cellAt (t, i)).seq →
      0 ≤ c.seqPosMin p s ∧ c.seqPosMin p s ≤ (c.cellAt (t, i)).pos := by
    intro hs
    have ht : p.seqToStream s = t := ((h.cells t i).home s hs).2
    rw [seqPosMin, cellsOf, ht]
    obtain ⟨j, hj, hpos⟩ := (h.coherent t).seqPosMin_mem hs
    rw [← hpos]
    refine ⟨h.pos_nonneg ((h.coherent t).pos_of_seq hj), ?_⟩
    rw [hpos]
    exact (h.coherent t).seqPosMin_le hs
  split_ifs with hle hcond hcond
  · obtain ⟨h0, h1⟩ := hmin hcond.2.1
    rw [cellAt, seqRmOne_cell h, rangeBegin_of_nonneg h0, rangeEnd_of_nonneg (by omega),
      KvCell.seqRmIn, if_pos]
    · rfl
    · exact ⟨KvCell.posIn_iff.2 ⟨h1, Int.lt_add_one_of_le hcond.2.2⟩, hcond.2.1⟩
  · rw [cellAt, seqRmOne_cell h, KvCell.seqRmIn, if_neg]
    · rfl
    · rintro ⟨hin, hs⟩
      obtain ⟨h0, h1⟩ := hmin hs
      rw [rangeEnd_of_nonneg (by omega)] at hin
      exact hcond ⟨hnone, hs, Int.le_of_lt_add_one (KvCell.posIn_iff.1 hin).2⟩
  · obtain ⟨-, h1⟩ := hmin hcond.2.1
    exact absurd (h1.trans hcond.2.2) hle
  · rfl

theorem purge_inv {c : KvCache} (h : CacheInv p c) (rm : ℕ → ℤ) : CacheInv p (purge p rm c) :=
  List.foldlRecOn _ _ (motive := CacheInv p) h (fun _ hd s _ => purgeSeq_inv hd rm s)

/-- The sequences below `llamaMaxSeq` that the purge takes from a cell at `q`. -/
def purged (rm : ℕ → ℤ) (q : ℤ) : Finset ℕ :=
  ((List.range llamaMaxSeq).filter fun s => decide (rm s ≠ -1 ∧ q ≤ rm s)).toFinset

theorem mem_purged {rm : ℕ → ℤ} {q : ℤ} {s : ℕ} :
    s ∈ purged rm q ↔ s < llamaMaxSeq ∧ rm s ≠ -1 ∧ q ≤ rm s := by
  simp [purged]

theorem purge_cellAt {c : KvCache} (h : CacheInv p c) {rm : ℕ → ℤ} (hrm : ∀ s, -1 ≤ rm s)
    (x : ℕ × ℕ) : (purge p rm c).cellAt x = (c.cellAt x).dropSeqs (purged rm (c.cellAt x).pos) := by
  rw [purged, ← KvCell.foldl_purge, purge]
  generalize List.range llamaMaxSeq = ss
  induction ss generalizing c with
  | nil => rfl
  | cons s ss ih =>
    rw [List.foldl_cons, List.foldl_cons, ih (purgeSeq_inv h rm s), purgeSeq_cellAt h (hrm s)]

/-! ## The whole of `apply_ubatch` -/

theorem moveHeads_vCells (sinfo : SlotInfo) (c : KvCache) : (moveHeads sinfo c).vCells = c.vCells :=
  List.foldlRecOn _ _ (motive := fun d : KvCache => d.vCells = c.vCells) rfl
    (fun d hd slot _ => by rw [setHead_vCells, hd])

theorem moveHeads_inv {c : KvCache} (h : CacheInv p c) {sinfo : SlotInfo}
    (hidx : ∀ slot ∈ sinfo.slots, slot.2 ≠ [] ∧ ∀ i ∈ slot.2, i < p.kvSize) :
    CacheInv p (moveHeads sinfo c) := by
  refine List.foldlRecOn _ _ (motive := CacheInv p) h (fun d hd slot hs => hd.setHead _ ?_)
  obtain ⟨hne, hlt⟩ := hidx slot hs
  have := hlt _ (List.getLast_mem hne)
  rw [List.getLastD_eq_getLast?, List.getLast?_eq_some_getLast hne]
  exact this

theorem placeAll_rm_ge (c : KvCache) (ub : Ubatch E) {sinfo : SlotInfo}
    (hnd : (sinfo.placements.map placeKey).Nodup) (s : ℕ) :
    -1 ≤ (placeAll p c sinfo ub).seqPosMaxRm s :=
  (placeAll_rm ub hnd ⟨c, fun _ => -1⟩ s).1

theorem applyUbatch_inv {c : KvCache} (h : CacheInv p c) {ub : Ubatch E} (hfit : Fits p ub)
    {sinfo : SlotInfo} (hok : SlotOk (p := p) c ub sinfo) :
    CacheInv p (applyUbatch p c sinfo ub) := by
  refine moveHeads_inv (purge_inv (placeAll_inv h hfit hok) _) fun slot hs => ?_
  refine ⟨fun hnil => ?_, fun i hi => (hok.usable slot hs i hi).1⟩
  have := hok.length slot hs
  have := hok.size_pos
  rw [hnil] at *
  simp at *
  omega

theorem applyUbatch_cellAt {c : KvCache} (h : CacheInv p c) {ub : Ubatch E} (hfit : Fits p ub)
    {sinfo : SlotInfo} (hok : SlotOk (p := p) c ub sinfo) (x : ℕ × ℕ) :
    (applyUbatch p c sinfo ub).cellAt x =
      ((placeAll p c sinfo ub).cache.cellAt x).dropSeqs
        (purged (placeAll p c sinfo ub).seqPosMaxRm
          ((placeAll p c sinfo ub).cache.cellAt x).pos) := by
  rw [applyUbatch, cellAt, moveHeads_vCells]
  exact purge_cellAt (placeAll_inv h hfit hok) (placeAll_rm_ge c ub hok.keys_nodup) x

theorem canUse_cases {cells : KvCells} {i : ℕ} (h : canUse p cells i = true) :
    cells.pos i = -1 ∨ ∃ s, cells.seq i = {s} ∧ (cells.cell i).owner = some s ∧
      isMaskedSwa p.nSwa p.swaType (cells.pos i) (cells.seqPosMax s + 1) = true := by
  simp only [canUse, KvCells.isEmpty, Bool.or_eq_true, Bool.and_eq_true, decide_eq_true_eq] at h
  rcases h with h | ⟨hcount, hmask⟩
  · exact .inl h
  · right
    rcases howner : (cells.cell i).owner with _ | s
    · rw [show cells.seqGet i = none from howner] at hmask
      cases hmask
    · rw [show cells.seqGet i = some s from howner] at hmask
      obtain ⟨s', hs'⟩ := Finset.card_eq_one.mp hcount
      have hmem : s ∈ cells.seq i := KvCell.owner_mem howner
      rw [hs', Finset.mem_singleton] at hmem
      exact ⟨s, hmem ▸ hs', rfl, hmask⟩

end KvCache
end RocmFpx
