import RocmFpx.KvRestore

/-!
When `prepare` leaves the cache as it was. Undoing restores the recorded cells, without
their shift, and a head by the number of its slot; what the purge of `apply_ubatch`
takes from other cells stays lost.
-/

namespace RocmFpx
namespace KvCache

variable {E : Type*} {p : KvParams}

/-- The conditions under which trying the ubatches from `c` can be taken back exactly.
`cells` and `streams` are those that an earlier ubatch has recorded already. -/
def UndoExact (p : KvParams) (c : KvCache) (cells : Finset (ℕ × ℕ)) (streams : Finset ℕ) :
    List (Ubatch E) → Prop
  | [] => True
  | ub :: ubs =>
    match findSlot p c ub with
    | some (some sinfo) => sinfo.slots ≠ [] →
      let keys := (sinfo.placements.map placeKey).toFinset
      -- the head of each stream recorded first here is found under the slot's number
      (∀ s (slot : ℕ × List ℕ), sinfo.slots[s]? = some slot → slot.1 ∉ streams →
        c.vHeads s = c.vHeads slot.1) ∧
      -- the cells recorded first here have no pending shift
      (∀ x ∈ keys, x ∉ cells → (c.cellAt x).shift = 0) ∧
      -- the purge finds nothing outside the recorded cells
      (∀ s q, Overwrites c sinfo.placements s q → ∀ x ∉ cells ∪ keys,
        s ∈ (c.cellAt x).seq → q < (c.cellAt x).pos) ∧
      UndoExact p (applyUbatch p c sinfo ub) (cells ∪ keys)
        (streams ∪ (sinfo.slots.map Prod.fst).toFinset) ubs
    | _ => True

/-! ## What `apply_ubatch` leaves alone -/

theorem purge_untouched_iff {c : KvCache} (h : CacheInv p c) {ub : Ubatch E} {sinfo : SlotInfo}
    (hok : SlotOk (p := p) c ub sinfo) (x : ℕ × ℕ) :
    (c.cellAt x).dropSeqs (purged (placeAll p c sinfo ub).seqPosMaxRm (c.cellAt x).pos) =
        c.cellAt x ↔
      ∀ s q, Overwrites c sinfo.placements s q → s ∈ (c.cellAt x).seq → q < (c.cellAt x).pos := by
  have hrm := placeAll_rm (p := p) ub hok.keys_nodup ⟨c, fun _ => -1⟩
  rw [KvCell.dropSeqs_eq_self, Finset.disjoint_left]
  constructor
  · intro hdis s q hq hs
    by_contra hle
    have hqle := (hrm s).2.1 q hq
    have hne : (placeAll p c sinfo ub).seqPosMaxRm s ≠ -1 := by
      obtain ⟨⟨t, idx, i⟩, -, hpos, -, rfl⟩ := hq
      have h0 : 0 ≤ (c.cellAt (t, idx)).pos := ((h.cells t idx).range hpos).1
      change (c.cellAt (t, idx)).pos ≤ (placeAll p c sinfo ub).seqPosMaxRm s at hqle
      omega
    have hlt : s < llamaMaxSeq := ((h.cells x.1 x.2).home s hs).1.trans_le p.seqToStreamSize_le
    exact hdis hs (mem_purged.2 ⟨hlt, hne, (not_lt.mp hle).trans hqle⟩)
  · intro hall s hs hmem
    obtain ⟨-, hne, hle⟩ := mem_purged.1 hmem
    rcases (hrm s).2.2 with heq | hover
    · exact hne heq
    · exact absurd (hall s _ hover hs) (not_lt.mpr hle)

theorem seqRmOne_hasShift (c : KvCache) (s : ℕ) (p₀ p₁ : ℤ) (t : ℕ) :
    ((c.seqRmOne p s p₀ p₁).vCells t).hasShift = (c.vCells t).hasShift := by
  by_cases ht : t = p.seqToStream s
  · subst ht
    rw [seqRmOne, freeStream_self]
    refine List.foldlRecOn _ _
      (motive := fun d : KvCells => d.hasShift = (c.vCells (p.seqToStream s)).hasShift) rfl
      (fun d hd i _ => ?_)
    rw [← hd]
    simp only [seqRmBody]
    split_ifs
    · exact KvCells.seqRm_hasShift d i s
    · rfl
  · rw [seqRmOne, freeStream_of_ne c _ ht]

theorem seqRmOne_head_of_ne (c : KvCache) (s : ℕ) (p₀ p₁ : ℤ) {t : ℕ} (ht : t ≠ p.seqToStream s) :
    (c.seqRmOne p s p₀ p₁).vHeads t = c.vHeads t := freeStream_head_of_ne c _ ht

theorem purge_hasShift (rm : ℕ → ℤ) (c : KvCache) (t : ℕ) :
    ((purge p rm c).vCells t).hasShift = (c.vCells t).hasShift := by
  refine List.foldlRecOn _ _
    (motive := fun d : KvCache => (d.vCells t).hasShift = (c.vCells t).hasShift) rfl
    (fun d hd s _ => ?_)
  rw [purgeSeq]
  split_ifs
  · exact hd
  · rw [seqRmOne_hasShift, hd]
  · exact hd

theorem fillCell_hasShift (ub : Ubatch E) (i : ℕ) (cells : KvCells) (idx : ℕ) :
    (fillCell p ub i cells idx).hasShift = cells.hasShift := by
  simp only [fillCell]
  refine List.foldlRecOn _ _ (motive := fun d : KvCells => d.hasShift = cells.hasShift) ?_
    (fun d hd s _ => by rw [KvCells.seqAdd_hasShift, hd])
  split_ifs <;> rfl

theorem placeAll_hasShift (c : KvCache) (sinfo : SlotInfo) (ub : Ubatch E) (t : ℕ) :
    ((placeAll p c sinfo ub).cache.vCells t).hasShift = (c.vCells t).hasShift := by
  refine List.foldlRecOn _ _
    (motive := fun st : Placing => (st.cache.vCells t).hasShift = (c.vCells t).hasShift) rfl
    (fun st hst x _ => ?_)
  have hover : ((st.overwrite x.1 x.2.1).cache.vCells t).hasShift = (c.vCells t).hasShift := by
    rw [← hst]
    simp only [Placing.overwrite]
    split_ifs
    · rfl
    · by_cases ht : t = x.1
      · subst ht
        simp
      · rw [setCells_vCells_of_ne _ _ _ ht]
  rw [← hover]
  by_cases ht : t = x.1
  · subst ht
    simp only [placeToken, setCells_vCells_self]
    exact fillCell_hasShift ub _ _ _
  · simp only [placeToken]
    rw [setCells_vCells_of_ne _ _ _ ht]

theorem applyUbatch_hasShift (c : KvCache) (sinfo : SlotInfo) (ub : Ubatch E) (t : ℕ) :
    ((applyUbatch p c sinfo ub).vCells t).hasShift = (c.vCells t).hasShift := by
  rw [applyUbatch, moveHeads_vCells, purge_hasShift, placeAll_hasShift]

theorem applyUbatch_head {c : KvCache} (h : CacheInv p c) {ub : Ubatch E} {sinfo : SlotInfo}
    (hok : SlotOk (p := p) c ub sinfo) {t : ℕ} (ht : t ∉ sinfo.slots.map Prod.fst) :
    (applyUbatch p c sinfo ub).vHeads t = c.vHeads t := by
  have hmove : ∀ d : KvCache, (moveHeads sinfo d).vHeads t = d.vHeads t := by
    intro d
    refine List.foldlRecOn _ _ (motive := fun e : KvCache => e.vHeads t = d.vHeads t) rfl
      (fun e he slot hslot => ?_)
    rw [setHead_vHeads_of_ne, he]
    exact fun heq => ht (heq ▸ List.mem_map_of_mem hslot)
  have hrm := placeAll_rm (p := p) ub hok.keys_nodup ⟨c, fun _ => -1⟩
  have hpurge : (purge p (placeAll p c sinfo ub).seqPosMaxRm (placeAll p c sinfo ub).cache).vHeads t =
      (placeAll p c sinfo ub).cache.vHeads t := by
    refine List.foldlRecOn _ _
      (motive := fun e : KvCache => e.vHeads t = (placeAll p c sinfo ub).cache.vHeads t) rfl
      (fun e he s _ => ?_)
    rw [purgeSeq]
    split_ifs with hnone
    · exact he
    · -- an overwritten cell of `s` is in a slot, and in the stream of `s`
      rcases (hrm s).2.2 with heq | ⟨⟨u, idx, i⟩, hmem, -, hown, -⟩
      · exact absurd heq hnone
      · have hu : p.seqToStream s = u := ((h.cells u idx).home s (KvCell.owner_mem hown)).2
        have hin : u ∈ sinfo.slots.map Prod.fst := by
          obtain ⟨slot, hslot, heq, -⟩ := (mem_keys sinfo (u, idx)).mp
            (List.mem_map_of_mem (f := placeKey) hmem)
          exact List.mem_map.mpr ⟨slot, hslot, heq⟩
        rw [seqRmOne_head_of_ne, he]
        rintro rfl
        exact ht (hu ▸ hin)
    · exact he
  rw [applyUbatch, hmove, hpurge, placeAll_head]

/-! ## The exact condition -/

theorem probe_exact {c : KvCache} (h : CacheInv p c) (ubs : List (Ubatch E))
    (hfit : ∀ ub ∈ ubs, Fits p ub) (cells : Finset (ℕ × ℕ)) (streams : Finset ℕ) :
    ((∀ x ∉ cells, x.1 < p.nStream → (probe p c ubs).cellAt x = c.cellAt x) ∧
        ∀ t ∉ streams, t < p.nStream → (probe p c ubs).vHeads t = c.vHeads t) ↔
      UndoExact p c cells streams ubs := by
  induction ubs generalizing c cells streams with
  | nil => exact iff_of_true ⟨fun _ _ _ => rfl, fun _ _ _ => rfl⟩ trivial
  | cons ub ubs ih =>
    have hub := hfit ub List.mem_cons_self
    have hrest : ∀ ub' ∈ ubs, Fits p ub' := fun ub' h' => hfit ub' (List.mem_cons_of_mem _ h')
    rw [probe, UndoExact]
    rcases hfind : findSlot p c ub with _ | _ | sinfo
    · exact iff_of_true ⟨fun _ _ _ => rfl, fun _ _ _ => rfl⟩ trivial
    · exact iff_of_true ⟨fun _ _ _ => rfl, fun _ _ _ => rfl⟩ trivial
    have hok := findSlot_sound h hub hfind
    simp only
    by_cases hnil : sinfo.slots = []
    · rw [if_pos hnil]
      exact iff_of_true ⟨fun _ _ _ => rfl, fun _ _ _ => rfl⟩ fun hne => absurd hnil hne
    rw [if_neg hnil]
    have hnext := applyUbatch_inv h hub hok
    have hcell := undoState_cellAt (c := probe p (applyUbatch p c sinfo ub) ubs) hok
    have hmem : ∀ x, x ∈ (sinfo.placements.map placeKey).toFinset ↔
        x ∈ sinfo.placements.map placeKey := fun x => List.mem_toFinset
    have hshift : ∀ x ∈ sinfo.placements.map placeKey,
        ((probe p (applyUbatch p c sinfo ub) ubs).cellAt x).shift = 0 := fun x hx =>
      probe_shift hnext ubs hrest x (applyUbatch_cell_of_mem h hub hok hx)
    have happly : ∀ x, x ∉ sinfo.placements.map placeKey →
        (applyUbatch p c sinfo ub).cellAt x = (c.cellAt x).dropSeqs
          (purged (placeAll p c sinfo ub).seqPosMaxRm (c.cellAt x).pos) := fun x hx =>
      applyUbatch_cell_of_notMem h hub hok hx
    have hih := ih hnext hrest (cells ∪ (sinfo.placements.map placeKey).toFinset)
      (streams ∪ (sinfo.slots.map Prod.fst).toFinset)
    constructor
    · rintro ⟨hcells, hheads⟩ -
      -- outside the recorded cells nothing was purged, as the rest only loses sequences
      have hsame : ∀ x ∉ cells ∪ (sinfo.placements.map placeKey).toFinset, x.1 < p.nStream →
          (probe p (applyUbatch p c sinfo ub) ubs).cellAt x = c.cellAt x ∧
          (applyUbatch p c sinfo ub).cellAt x = c.cellAt x := by
        intro x hx hlt
        rw [Finset.mem_union, not_or, hmem] at hx
        have hx' := hcells x hx.1 hlt
        rw [hcell, if_neg hx.2] at hx'
        refine ⟨hx', ?_⟩
        have hsub := probe_seq_subset hnext ubs hrest x
        rw [hx', happly x hx.2, KvCell.dropSeqs_seq] at hsub
        rw [happly x hx.2, KvCell.dropSeqs_eq_self, Finset.disjoint_left]
        exact fun s hs => (Finset.mem_sdiff.mp (hsub hs)).2
      refine ⟨fun s slot hs hstrm => ?_, fun x hx hxc => ?_, fun s q hq x hx hsx => ?_,
        hih.mp ⟨?_, ?_⟩⟩
      · rw [← undoState_head hok.strm_nodup hs,
          hheads _ hstrm (hok.strm_lt slot (List.mem_of_getElem? hs))]
      · rw [hmem] at hx
        obtain ⟨slot, hslot, heq, -⟩ := (mem_keys sinfo x).mp hx
        have hx' := hcells x hxc (heq ▸ hok.strm_lt slot hslot)
        rw [hcell, if_pos hx] at hx'
        rw [← hx']
        exact hshift x hx
      · have hhome := (h.cells x.1 x.2).home s hsx
        have hx' := (hsame x hx (hhome.2 ▸ p.seqToStream_lt hhome.1)).2
        rw [Finset.mem_union, not_or, hmem] at hx
        rw [happly x hx.2] at hx'
        exact (purge_untouched_iff h hok x).mp hx' s q hq hsx
      · intro x hx hlt
        rw [(hsame x hx hlt).1, (hsame x hx hlt).2]
      · intro t ht hlt
        rw [Finset.mem_union, not_or, List.mem_toFinset] at ht
        rw [applyUbatch_head h hok ht.2, ← hheads t ht.1 hlt, undoState_head_other ht.2]
    · intro hexact
      obtain ⟨hhead, hzero, hpurge, hcont⟩ := hexact hnil
      obtain ⟨hcells, hheads⟩ := hih.mpr hcont
      refine ⟨fun x hx hxlt => ?_, fun t ht htlt => ?_⟩
      · rw [hcell]
        split_ifs with hin
        · rw [KvCell.overwrite, hshift x hin, ← hzero x ((hmem x).mpr hin) hx]
        · have hxu : x ∉ cells ∪ (sinfo.placements.map placeKey).toFinset := by
            rw [Finset.mem_union, not_or, hmem]
            exact ⟨hx, hin⟩
          rw [hcells x hxu hxlt, happly x hin]
          exact (purge_untouched_iff h hok x).mpr fun s q hq => hpurge s q hq x hxu
      · by_cases hin : t ∈ sinfo.slots.map Prod.fst
        · obtain ⟨slot, hslot, rfl⟩ := List.mem_map.mp hin
          obtain ⟨s, hs⟩ := List.mem_iff_getElem?.mp hslot
          rw [undoState_head hok.strm_nodup hs]
          exact hhead s slot hs ht
        · have htu : t ∉ streams ∪ (sinfo.slots.map Prod.fst).toFinset := by
            rw [Finset.mem_union, not_or, List.mem_toFinset]
            exact ⟨ht, hin⟩
          rw [undoState_head_other hin, hheads t htu htlt, applyUbatch_head h hok hin]

theorem probe_hasShift {c : KvCache} (h : CacheInv p c) (ubs : List (Ubatch E))
    (hfit : ∀ ub ∈ ubs, Fits p ub) (t : ℕ) :
    ((probe p c ubs).vCells t).hasShift = (c.vCells t).hasShift := by
  refine probe_induction
    (motive := fun c _ e => (e.vCells t).hasShift = (c.vCells t).hasShift)
    (fun _ _ => rfl) (fun c ub ubs sinfo _ _ hok _ _ ih => ?_) h ubs hfit
  rw [applyUbatch_hasShift] at ih
  by_cases ht : t ∈ sinfo.slots.map Prod.fst
  · obtain ⟨slot, hslot, rfl⟩ := List.mem_map.mp ht
    obtain ⟨s, hs⟩ := List.mem_iff_getElem?.mp hslot
    rw [undoState_cells hok.strm_nodup hs, KvCells.setIdxs_eq_setLoop, KvCells.setLoop_hasShift, ih]
  · rw [undoState_cells_other ht, ih]

/-- After `prepare` the cells and the head of every stream are what they were exactly
when each tried ubatch can be taken back exactly. -/
theorem prepare_pure_iff {c c' : KvCache} (h : Reachable E p c) {ubs : List (Ubatch E)}
    (hfit : ∀ ub ∈ ubs, Fits p ub) {res : List SlotInfo} (hrun : prepare p c ubs = some (c', res)) :
    (∀ t < p.nStream, c'.vCells t = c.vCells t ∧ c'.vHeads t = c.vHeads t) ↔
      UndoExact p c ∅ ∅ ubs := by
  have hinv := h.inv
  have hprobe := probe_inv hinv ubs hfit
  rw [prepare_probe hrun, ← probe_exact hinv ubs hfit ∅ ∅]
  constructor
  · intro hsame
    refine ⟨fun x _ hx => ?_, fun t _ ht => (hsame t ht).2⟩
    rw [cellAt, cellAt, (hsame x.1 hx).1]
  · rintro ⟨hcells, hheads⟩ t ht
    refine ⟨?_, hheads t (Finset.notMem_empty t) ht⟩
    refine (hprobe.coherent t).ext_cells (hinv.coherent t) ?_ (probe_hasShift hinv ubs hfit t)
      (fun i => hcells (t, i) (Finset.notMem_empty _) ht)
    rw [hprobe.size t ht, hinv.size t ht]

/-! ## Two streams, of which the second one is used -/

def twoStreams : KvParams where
  nSeqMax := 2
  nStream := 2
  kvSize := 2
  nSwa := 0
  swaType := .none
  nPosPerEmbd := 1
  pleNHeads := 0
  pleImageTokenId := 0
  pleEosTokenId := 0
  archStep35 := false
  hasRope := true
  stream_cases := .inr rfl
  seqMax_pos := Nat.two_pos
  seqMax_le := by decide

/-- One token of sequence `s` at position `q`. -/
def oneToken (s : ℕ) (q : ℤ) : Ubatch Unit where
  bEqualSeqs := true
  nTokens := 1
  nSeqTokens := 1
  nSeqs := 1
  nSeqsUnq := 1
  nPos := 1
  token := some [7]
  embd := none
  embdState := none
  pos := [q]
  seqId := [[s]]
  seqIdUnq := [s]
  seqIdx := []
  output := [1]
  type := none
  decisionOrder := none
  batchIdxs := [0]

theorem oneToken_fits {s : ℕ} {q : ℤ} (hs : s < p.seqToStreamSize) (hq : 0 ≤ q ∧ q < llamaPosMax) :
    Fits p (oneToken s q) where
  tokens := one_pos
  unq_nodup := List.nodup_singleton s
  unq_length := rfl
  unq_lt := by simpa [oneToken] using hs
  pos i hi := by
    obtain rfl : i = 0 := Nat.lt_one_iff.mp hi
    exact hq
  ext i hi := by
    obtain rfl : i = 0 := Nat.lt_one_iff.mp hi
    have hext : ubatchExt p (oneToken s q) 0 = ⟨0, 0, 7⟩ := rfl
    rw [hext]
    constructor <;> decide
  seqs i hi q hq := by
    obtain rfl : i = 0 := Nat.lt_one_iff.mp hi
    obtain rfl : q = s := by simpa [Ubatch.seqIdAt, oneToken] using hq
    exact hs
  blocks _ i hi q hq := by
    obtain rfl : i = 0 := Nat.lt_one_iff.mp hi
    simpa [Ubatch.seqIdAt, oneToken] using hq

/-- The second stream holds one token. -/
def secondUsed : KvCache :=
  applyUbatch twoStreams (init twoStreams) ⟨1, 1, [(1, [0])]⟩ (oneToken 1 0)

theorem secondUsed_reachable : Reachable Unit twoStreams secondUsed := by
  have hfit : Fits twoStreams (oneToken 1 0) := oneToken_fits (by decide) (by decide)
  have hfind : findSlot twoStreams (init twoStreams) (oneToken 1 0) =
      some (some ⟨1, 1, [(1, [0])]⟩) := by decide
  exact .apply .init _ hfit _ (findSlot_sound init_inv hfit hfind)

/-- Asking for a place for the next token of sequence 1 moves the head of its stream. -/
theorem prepare_moves_head : ¬ ∀ (p : KvParams) (c c' : KvCache) (ubs : List (Ubatch Unit))
    (res : List SlotInfo), Reachable Unit p c → (∀ ub ∈ ubs, Fits p ub) →
    prepare p c ubs = some (c', res) →
    ∀ t < p.nStream, c'.vCells t = c.vCells t ∧ c'.vHeads t = c.vHeads t := by
  intro hall
  have hfit : ∀ ub ∈ [oneToken 1 1], Fits twoStreams ub := by
    intro ub hub
    rw [List.mem_singleton.mp hub]
    exact oneToken_fits (by decide) (by decide)
  have hread : (prepare twoStreams secondUsed [oneToken 1 1]).map
      (fun r => (r.1.vHeads 1, secondUsed.vHeads 1)) = some (0, 1) := by decide +kernel
  obtain ⟨⟨c', res⟩, hrun, hheads⟩ := Option.map_eq_some_iff.mp hread
  have hsame := (hall twoStreams secondUsed c' _ res secondUsed_reachable hfit hrun 1 (by decide)).2
  have hnew : c'.vHeads 1 = 0 := congrArg Prod.fst hheads
  have hold : secondUsed.vHeads 1 = 1 := congrArg Prod.snd hheads
  omega

/-- The same query on the unused cache, where the exact condition can be read off. -/
theorem prepare_pure_init : (∀ t < twoStreams.nStream,
    (probe twoStreams (init twoStreams) [oneToken 0 0]).vCells t = (init twoStreams).vCells t ∧
    (probe twoStreams (init twoStreams) [oneToken 0 0]).vHeads t = (init twoStreams).vHeads t) ↔
      UndoExact twoStreams (init twoStreams) ∅ ∅ [oneToken 0 0] := by
  have hfit : ∀ ub ∈ [oneToken 0 0], Fits twoStreams ub := by
    intro ub hub
    rw [List.mem_singleton.mp hub]
    exact oneToken_fits (by decide) (by decide)
  have hrun : prepare twoStreams (init twoStreams) [oneToken 0 0] =
      some (probe twoStreams (init twoStreams) [oneToken 0 0], [⟨0, 0, [(0, [0])]⟩]) := rfl
  exact prepare_pure_iff .init hfit hrun

end KvCache
end RocmFpx
