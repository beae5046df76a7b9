import RocmFpx.Dsv4PlanLaws
import RocmFpx.FlatRows
import RocmFpx.PointwiseLoop

/-!
The compressor over a run of ubatches. Row `r` of a sequence's ring holds the latest position that
falls on it, so the window of every block that is completed is found in the ubatch or in the ring.
-/

namespace RocmFpx.Dsv4

open FlatRows PointwiseLoop

/-- A ubatch and the state row that the graph computes for each of its tokens. -/
structure Decode (E α : Type*) where
  ub : Ubatch E
  row : ℕ → α

/-- The state rows, and for each sequence the rows of the tokens it has decoded. -/
structure Ring (α : Type*) where
  state : ℕ → α
  hist : ℕ → List α

/-- `ggml_set_rows` of rows that `ggml_get_rows` has gathered. -/
def setRows {α : Type*} (state : ℕ → α) (dsts srcs : List ℕ) (source : ℕ → α) : ℕ → α :=
  (dsts.zip srcs).foldl (fun st x => Function.update st x.1 (source x.2)) state

variable {E α : Type*}

namespace Ring

def len (m : Ring α) (s : ℕ) : ℕ := (m.hist s).length

/-- The rows named by `state_persist_*` are written behind the reads. -/
def decode (m : Ring α) (d : Decode E α) (plan : CompPlan) : Ring α where
  state := setRows m.state plan.statePersistDstIdxs plan.statePersistSrcIdxs d.row
  hist s := m.hist s ++ (Layout.tokenIdxs d.ub s).map d.row

def start (init : ℕ → α) : Ring α := ⟨init, fun _ => []⟩

end Ring

/-- The index names position `p` of the sequence: the zero row in front of the first position, the
token of this ubatch, or a state row that still holds the position. -/
def Names (lay : Layout) (m : Ring α) (ub : Ubatch E) (s : ℕ) (p : ℤ) (row : ℕ) : Prop :=
  (p < 0 ∧ row = lay.stateRows + ub.nTokens) ∨
    (∃ i ∈ Layout.tokenIdxs ub s, ub.posAt i = p ∧ row = lay.stateRows + i) ∨
    (0 ≤ p ∧ row < lay.stateRows ∧ (m.hist s)[p.toNat]? = some (m.state row))

/-- The `ratio` indices of group `k` name the positions from `start` on. -/
def Gathers (lay : Layout) (m : Ring α) (ub : Ubatch E) (reads : List ℕ) (k s : ℕ) (start : ℤ) :
    Prop :=
  ∀ j < lay.ratio, ∃ row, reads[k * lay.ratio + j]? = some row ∧ Names lay m ub s (start + j) row

/-- What the plan should say: `blocks` are the blocks that the ubatch completes, by sequence. -/
structure Plans (lay : Layout) (m : Ring α) (ub : Ubatch E) (plan : CompPlan)
    (blocks : List (ℕ × ℕ)) (dummies : List ℕ) : Prop where
  once : blocks.Nodup
  completed : ∀ s n, (s, n) ∈ blocks ↔
    m.len s < (n + 1) * lay.ratio ∧ (n + 1) * lay.ratio ≤ lenAfter m.len ub s
  writes : plan.stateWriteIdxs = blocks.map (fun x => x.1 * lay.kvSize + x.2) ++ dummies
  positions : plan.stateWritePos =
    blocks.map (fun x => ((x.2 * lay.ratio : ℕ) : ℤ)) ++ dummies.map fun _ => 0
  gathers : ∀ k s n, blocks[k]? = some (s, n) →
    if lay.overlap then
      Gathers lay m ub plan.stateReadIdxs k s ((n * lay.ratio : ℕ) - lay.ratio) ∧
        Gathers lay m ub plan.stateReadIdxs (plan.stateWriteIdxs.length + k) s (n * lay.ratio : ℕ)
    else Gathers lay m ub plan.stateReadIdxs k s (n * lay.ratio : ℕ)
  unshared : ∀ x ∈ dummies, x ∉ blocks.map fun y => y.1 * lay.kvSize + y.2
  unseen : ∀ x ∈ dummies, ∀ i < ub.nTokens, ∀ s ∈ ub.seqIdAt i, ∀ n < plan.nVisible.getD i 0,
    x ≠ s * lay.kvSize + n

/-- Every sequence goes on where it ended, from position 0. -/
def Contiguous (lay : Layout) : (ℕ → ℕ) → List (Decode E α) → Prop
  | _, [] => True
  | len, d :: ds => Formed lay d.ub ∧ Continues lay len d.ub ∧ Contiguous lay (lenAfter len d.ub) ds

/-- Each plan is right for the ring that the ubatches before have left. -/
def AllPlanned (lay : Layout) : Ring α → List (Decode E α) → List CompPlan → Prop
  | _, [], [] => True
  | m, d :: ds, plan :: plans =>
    (∃ blocks dummies, Plans lay m d.ub plan blocks dummies) ∧
      AllPlanned lay (m.decode d plan) ds plans
  | _, _, _ => False

/-! ## The ring -/

/-- Row `r` of a ring holds the latest position that is congruent to `r`. -/
def RingInv (lay : Layout) (m : Ring α) : Prop :=
  ∀ s < lay.nStream, ∀ q < m.len s, m.len s ≤ q + lay.stateSize →
    (m.hist s)[q]? = some (m.state (s * lay.stateSize + q % lay.stateSize))

variable {lay : Layout} {m : Ring α} {d : Decode E α} {s : ℕ}

theorem len_decode (m : Ring α) (d : Decode E α) (plan : CompPlan) :
    (m.decode d plan).len = lenAfter m.len d.ub := by
  funext s
  rw [Ring.len, Ring.decode, List.length_append, List.length_map, lenAfter, Ring.len]

theorem names_sourceRow (hinv : RingInv lay m) (hc : Continues lay m.len d.ub)
    (hs : s < lay.nStream) {p : ℤ} (hlo : (m.len s : ℤ) ≤ p + lay.stateSize)
    (hhi : p < lenAfter m.len d.ub s) : Names lay m d.ub s p (sourceRow lay d.ub s p) := by
  rw [sourceRow]
  split_ifs with hneg
  · exact Or.inl ⟨hneg, rfl⟩
  · cases hcur : currTokenIdx d.ub s p with
    | some i =>
      obtain ⟨hi, hpos⟩ := currTokenIdx_some hcur
      exact Or.inr (Or.inl ⟨i, hi, hpos, rfl⟩)
    | none =>
      obtain ⟨q, rfl⟩ := Int.eq_ofNat_of_zero_le (not_lt.mp hneg)
      have hlt : q < m.len s := by
        by_contra hge
        obtain ⟨i, hi, hpos⟩ := hc.token_at (s := s) (not_lt.mp hge) (by exact_mod_cast hhi)
        exact currTokenIdx_none hcur hi hpos
      refine Or.inr (Or.inr ⟨not_lt.mp hneg, ?_, ?_⟩)
      · exact row_lt hs (lay.emod_lt q)
      · exact hinv s hs q hlt (by exact_mod_cast hlo)

/-- Writing rows with different destinations. -/
theorem setRows_map {β : Type*} (state : ℕ → α) {rows : List β} {dst : β → ℕ} (src : β → ℕ)
    (source : ℕ → α) (hnodup : (rows.map dst).Nodup) :
    (∀ x ∈ rows, setRows state (rows.map dst) (rows.map src) source (dst x) = source (src x)) ∧
      ∀ r, r ∉ rows.map dst → setRows state (rows.map dst) (rows.map src) source r = state r := by
  have hloop : Pointwise (fun st : ℕ → α => st)
      (fun st (x : ℕ × ℕ) => Function.update st x.1 (source x.2)) Prod.fst fun x _ => source x.2 :=
    fun _ _ => rfl
  have hzip : (rows.map dst).zip (rows.map src) = rows.map fun x => (dst x, src x) := by
    rw [List.zip_map']
  have hfst : (rows.map fun x => (dst x, src x)).map Prod.fst = rows.map dst := by
    rw [List.map_map]
    rfl
  rw [setRows, hzip]
  refine ⟨fun x hx => ?_, fun r hr => ?_⟩
  · exact hloop.foldl_of_mem (by rwa [hfst]) state
      (List.mem_map_of_mem (f := fun x => (dst x, src x)) hx)
  · exact hloop.foldl_of_notMem _ state (by rwa [hfst])

/-! ## One ubatch -/

/-- The plan made of the vectors. -/
def planOf (lay : Layout) (ub : Ubatch E) (rsIdx : List ℕ) (b : Build) : CompPlan :=
  let rows := b.persistRows.insertionSort fun x y => x.dst ≤ y.dst
  let restores := if 0 < lay.nRsSeq then lay.allRows else []
  let snapshots := if 0 < lay.nRsSeq then lay.allSnapshots else []
  { statePos := lay.statePos ub
    statePersistSrcIdxs := rows.map (·.src)
    statePersistDstIdxs := rows.map (·.dst)
    stateRestoreSrcIdxs := restores.map fun x =>
      lay.srcPlane ub rsIdx x.1 + x.1 * lay.stateSize + x.2
    stateRestoreDstIdxs := restores.map fun x => x.1 * lay.stateSize + x.2
    stateSnapshotSrcIdxs := snapshots.map fun x => lay.snapshotSrc ub x.1 x.2.1 x.2.2
    stateSnapshotDstIdxs := snapshots.map fun x =>
      x.2.1 * lay.stateRows + x.1 * lay.stateSize + x.2.2
    stateReadIdxs := b.reads ++ if lay.overlap then b.prevReads ++ b.curReads else []
    stateWriteIdxs := b.writeIdxs
    stateWritePos := b.writePos
    nVisible := lay.nVisible ub
    nStream := compGraphNStream ub lay.nStream
    nKv := max (padded (lay.maxVisible ub) 256) 256 }

variable {ub : Ubatch E} {len : ℕ → ℕ}

theorem buildCompPlan_ok (h : Continues lay len ub) (hf : Formed lay ub) (rsIdx : List ℕ) :
    ∃ b b' ds, lay.buildCompPlan ub rsIdx = .ok (planOf lay ub rsIdx b') ∧
      Built lay ub (Layout.visits ub) b ∧ PaddedBy lay ub ds b b' ∧ Harmless lay len ub ds := by
  have hone : ¬ (lay.nStream ≤ 1 ∧ 1 < ub.nSeqsUnq) := by
    rintro ⟨h1, h2⟩
    have hsub : ub.seqIdUnq ⊆ [0] := by
      intro s hs
      obtain ⟨i, hi, hsi⟩ := (hf.mem_unq s).mp hs
      have := hf.stream i hi s hsi
      exact List.mem_singleton.mpr (by omega)
    have hle := (List.subperm_of_subset hf.unq_nodup hsub).length_le
    rw [hf.unq_length] at h2
    rw [List.length_singleton] at hle
    omega
  obtain ⟨b, hb, hbuilt⟩ := visitAll_built h hf
  obtain ⟨b1, ds, hb1, hpad, hds⟩ := padCsa_ok hbuilt h hf
  obtain ⟨b2, es, hb2, hpad', hes⟩ := padHca_ok hbuilt h hf hpad
  refine ⟨b, b2, ds ++ es, ?_, hbuilt, hpad.trans hpad', fun d hd => ?_⟩
  · rw [Layout.buildCompPlan, if_neg hone]
    simp only [hb, hb1, hb2, bind, Except.bind, pure, Except.pure]
    rfl
  · exact (List.mem_append.mp hd).elim (hds d) (hes d)

/-- The block behind whose last token the visit is. -/
def blockOf (lay : Layout) (ub : Ubatch E) (t : ℕ × ℕ) : ℕ × ℕ :=
  (t.2, (ub.posAt t.1 / lay.ratio).toNat)

variable {t : ℕ × ℕ}

theorem completed_block (h : Continues lay len ub) (hf : Formed lay ub)
    (ht : t ∈ completed lay ub (Layout.visits ub)) :
    t.1 ∈ Layout.tokenIdxs ub t.2 ∧
      ub.posAt t.1 + 1 = (((blockOf lay ub t).2 + 1) * lay.ratio : ℕ) ∧
      len t.2 < ((blockOf lay ub t).2 + 1) * lay.ratio ∧
      ((blockOf lay ub t).2 + 1) * lay.ratio ≤ lenAfter len ub t.2 := by
  obtain ⟨ht, hdone⟩ := List.mem_filter.mp ht
  have hmem := (mem_visits h hf).mp ht
  obtain ⟨q, hq, hlo, hhi⟩ := h.pos_of_mem hmem
  have hr := lay.ratio_pos
  have hdone : (q + 1) % lay.ratio = 0 := by
    have h0 := of_decide_eq_true hdone
    rw [hq] at h0
    exact_mod_cast h0
  have hn : (blockOf lay ub t).2 = q / lay.ratio := by
    rw [blockOf, hq]
    rfl
  have hend : (q / lay.ratio + 1) * lay.ratio = q + 1 := by
    have hdvd := Nat.dvd_of_mod_eq_zero hdone
    rw [← Nat.succ_div_of_dvd hdvd]
    exact Nat.div_mul_cancel hdvd
  rw [hn, hend, hq]
  exact ⟨hmem, rfl, Nat.lt_succ_of_le hlo, hhi⟩

theorem blockStart_eq (h : Continues lay len ub) (hf : Formed lay ub)
    (ht : t ∈ completed lay ub (Layout.visits ub)) :
    blockStart lay ub t = ((blockOf lay ub t).2 * lay.ratio : ℕ) := by
  obtain ⟨-, hend, -⟩ := completed_block h hf ht
  rw [blockStart, hend, Nat.succ_mul]
  push_cast
  omega

theorem mem_blocks (h : Continues lay len ub) (hf : Formed lay ub) (s n : ℕ) :
    (s, n) ∈ (completed lay ub (Layout.visits ub)).map (blockOf lay ub) ↔
      len s < (n + 1) * lay.ratio ∧ (n + 1) * lay.ratio ≤ lenAfter len ub s := by
  constructor
  · intro hmem
    obtain ⟨t, ht, heq⟩ := List.mem_map.mp hmem
    obtain ⟨-, -, hlo, hhi⟩ := completed_block h hf ht
    obtain ⟨rfl, rfl⟩ := Prod.mk.inj heq
    exact ⟨hlo, hhi⟩
  · rintro ⟨hlo, hhi⟩
    have hpos : 0 < (n + 1) * lay.ratio := Nat.mul_pos n.succ_pos lay.ratio_pos
    obtain ⟨i, hi, hq⟩ := h.token_at (s := s) (q := (n + 1) * lay.ratio - 1) (by omega) (by omega)
    refine List.mem_map.mpr ⟨(i, s), List.mem_filter.mpr ⟨(mem_visits h hf).mpr hi, ?_⟩, ?_⟩
    · refine decide_eq_true ?_
      have hsum : ub.posAt i + 1 = ((n + 1) * lay.ratio : ℕ) := by
        rw [hq]
        omega
      rw [hsum]
      exact_mod_cast Nat.mul_mod_left (n + 1) lay.ratio
    · rw [blockOf, hq]
      have hdiv : ((n + 1) * lay.ratio - 1) / lay.ratio = n := by
        have hsub : (n + 1) * lay.ratio - 1 = lay.ratio * n + (lay.ratio - 1) := by
          rw [Nat.succ_mul, Nat.mul_comm n]
          have := lay.ratio_pos
          omega
        rw [hsub, Nat.mul_add_div lay.ratio_pos, Nat.div_eq_of_lt, Nat.add_zero]
        have := lay.ratio_pos
        omega
      exact congrArg (Prod.mk s) hdiv

theorem blocks_nodup (h : Continues lay len ub) (hf : Formed lay ub) :
    ((completed lay ub (Layout.visits ub)).map (blockOf lay ub)).Nodup := by
  refine List.Nodup.map_on (fun t ht u hu heq => ?_) ((visits_nodup hf).filter _)
  obtain ⟨hmt, hposT, -⟩ := completed_block h hf ht
  obtain ⟨hmu, hposU, -⟩ := completed_block h hf hu
  have hs : t.2 = u.2 := congrArg Prod.fst heq
  have hpos : ub.posAt t.1 = ub.posAt u.1 := by
    rw [heq] at hposT
    exact add_right_cancel (hposT.trans hposU.symm)
  rw [← hs] at hmu
  exact Prod.ext (h.inj hmt hmu hpos) hs

theorem windowRows_length (lay : Layout) (ub : Ubatch E) (s : ℕ) (start : ℤ) :
    (windowRows lay ub s start).length = lay.ratio := by
  rw [windowRows, List.length_map, List.length_range]

theorem gathers_flatMap {ts : List (ℕ × ℕ)} (start : ℕ × ℕ → ℤ) {reads : List ℕ} {k off g : ℕ}
    (hg : g = off + k)
    (hreads : ∀ x < ts.length * lay.ratio,
      reads[off * lay.ratio + x]? =
        (ts.flatMap fun t => windowRows lay d.ub t.2 (start t))[x]?)
    (hk : ts[k]? = some t)
    (hnames : ∀ j < lay.ratio,
      Names lay m d.ub t.2 (start t + j) (sourceRow lay d.ub t.2 (start t + j))) :
    Gathers lay m d.ub reads g t.2 (start t) := by
  intro j hj
  rw [hg]
  have hlt : k < ts.length := (List.getElem?_eq_some_iff.mp hk).1
  have hx : k * lay.ratio + j < ts.length * lay.ratio := by
    have := Nat.mul_le_mul_right lay.ratio (Nat.succ_le_of_lt hlt)
    rw [Nat.succ_mul] at this
    omega
  refine ⟨_, ?_, hnames j hj⟩
  rw [Nat.add_mul, Nat.add_assoc, hreads _ hx,
    getElem?_flatMap (fun t _ => windowRows_length lay d.ub t.2 (start t)) hk hj, windowRows,
    List.getElem?_map, List.getElem?_range hj]
  rfl

theorem plan_correct (hinv : RingInv lay m) (h : Continues lay m.len d.ub) (hf : Formed lay d.ub)
    {rsIdx : List ℕ} {b b' : Build} {ds : List (ℕ × ℕ)}
    (hb : Built lay d.ub (Layout.visits d.ub) b) (hpad : PaddedBy lay d.ub ds b b')
    (hds : Harmless lay m.len d.ub ds) :
    Plans lay m d.ub (planOf lay d.ub rsIdx b')
      ((completed lay d.ub (Layout.visits d.ub)).map (blockOf lay d.ub))
      (ds.map fun x => x.2 * lay.kvSize + lay.kvSize - 1) := by
  have hlast : ∀ s, s * lay.kvSize + lay.kvSize - 1 = s * lay.kvSize + (lay.kvSize - 1) :=
    fun s => Nat.add_sub_assoc lay.kvSize_pos _
  have hkv : lay.kvSize - 1 < lay.kvSize := Nat.sub_lt lay.kvSize_pos Nat.one_pos
  have hwrites : b'.writeIdxs = ((completed lay d.ub (Layout.visits d.ub)).map
      (blockOf lay d.ub)).map (fun x => x.1 * lay.kvSize + x.2) ++
        ds.map fun x => x.2 * lay.kvSize + lay.kvSize - 1 := by
    rw [hpad.writeIdxs, hb.writeIdxs, List.map_map]
    rfl
  have hnames : ∀ t ∈ completed lay d.ub (Layout.visits d.ub), ∀ p : ℤ,
      (((blockOf lay d.ub t).2 + 1) * lay.ratio : ℕ) ≤ p + lay.stateSize →
      p < (((blockOf lay d.ub t).2 + 1) * lay.ratio : ℕ) →
      Names lay m d.ub t.2 p (sourceRow lay d.ub t.2 p) := by
    intro t ht p hlo hhi
    obtain ⟨hmem, -, hlen, hend⟩ := completed_block h hf ht
    refine names_sourceRow hinv h (hf.stream_of_mem hmem) ?_ ?_
    · omega
    · omega
  have hratio : (if lay.overlap then 2 * lay.ratio else lay.ratio) = lay.stateSize := lay.window_fits
  constructor
  case once => exact blocks_nodup h hf
  case completed => exact mem_blocks h hf
  case writes => exact hwrites
  case positions =>
    change b'.writePos = _
    rw [hpad.writePos, hb.writePos, List.map_map, List.map_map]
    congr 1
    exact List.map_congr_left fun t ht => blockStart_eq h hf ht
  case gathers =>
    intro k s n hk
    rw [List.getElem?_map, Option.map_eq_some_iff] at hk
    obtain ⟨t, hk, heq⟩ := hk
    obtain ⟨rfl, rfl⟩ := Prod.mk.inj heq
    have ht := List.mem_of_getElem? hk
    have hstart := blockStart_eq h hf ht
    have hcurNames : ∀ j < lay.ratio, Names lay m d.ub t.2 (blockStart lay d.ub t + j)
        (sourceRow lay d.ub t.2 (blockStart lay d.ub t + j)) := by
      intro j hj
      refine hnames t ht _ ?_ ?_
      · rw [hstart, Nat.succ_mul]
        split_ifs at hratio <;> push_cast <;> omega
      · rw [hstart, Nat.succ_mul]
        push_cast
        omega
    change if lay.overlap then
      Gathers lay m d.ub _ k t.2 (((blockOf lay d.ub t).2 * lay.ratio : ℕ) - lay.ratio) ∧
        Gathers lay m d.ub _ (b'.writeIdxs.length + k) t.2 ((blockOf lay d.ub t).2 * lay.ratio : ℕ)
      else Gathers lay m d.ub _ k t.2 ((blockOf lay d.ub t).2 * lay.ratio : ℕ)
    rw [← hstart]
    change if lay.overlap then
      Gathers lay m d.ub (b'.reads ++ if lay.overlap then b'.prevReads ++ b'.curReads else []) k t.2
          (blockStart lay d.ub t - lay.ratio) ∧
        Gathers lay m d.ub (b'.reads ++ if lay.overlap then b'.prevReads ++ b'.curReads else [])
          (b'.writeIdxs.length + k) t.2 (blockStart lay d.ub t)
      else Gathers lay m d.ub (b'.reads ++ if lay.overlap then b'.prevReads ++ b'.curReads else [])
        k t.2 (blockStart lay d.ub t)
    rw [hpad.reads, hb.reads, hpad.prevReads, hb.prevReads, hpad.curReads, hb.curReads]
    cases hover : lay.overlap with
    | true =>
      rw [hover] at hratio
      simp only [if_true, List.nil_append] at hratio ⊢
      have hlen : ((completed lay d.ub (Layout.visits d.ub)).flatMap fun t =>
          windowRows lay d.ub t.2 (blockStart lay d.ub t - lay.ratio)).length =
            (completed lay d.ub (Layout.visits d.ub)).length * lay.ratio :=
        flatMap_length fun t _ => windowRows_length lay d.ub t.2 _
      have hlenCur : ((completed lay d.ub (Layout.visits d.ub)).flatMap fun t =>
          windowRows lay d.ub t.2 (blockStart lay d.ub t)).length =
            (completed lay d.ub (Layout.visits d.ub)).length * lay.ratio :=
        flatMap_length fun t _ => windowRows_length lay d.ub t.2 _
      have hlenPrev : ((completed lay d.ub (Layout.visits d.ub)).flatMap (fun t =>
          windowRows lay d.ub t.2 (blockStart lay d.ub t - lay.ratio)) ++
            ds.flatMap fun x => List.replicate lay.ratio
              (sourceRow lay d.ub x.2 (d.ub.posAt x.1))).length =
            b'.writeIdxs.length * lay.ratio := by
        rw [List.length_append, hlen, flatMap_length fun x _ => List.length_replicate, hwrites,
          List.length_append, List.length_map, List.length_map, List.length_map, Nat.add_mul]
      constructor
      · refine gathers_flatMap (fun t => blockStart lay d.ub t - lay.ratio) (Nat.zero_add k).symm
          (fun x hx => ?_) hk fun j hj => ?_
        · rw [Nat.zero_mul, Nat.zero_add, List.append_assoc, List.getElem?_append_left (by omega)]
        · refine hnames t ht _ ?_ ?_
          · simp only [hstart, Nat.succ_mul]
            push_cast
            omega
          · simp only [hstart, Nat.succ_mul]
            push_cast
            omega
      · refine gathers_flatMap (blockStart lay d.ub) rfl (fun x hx => ?_) hk hcurNames
        rw [List.getElem?_append_right (by omega), hlenPrev, Nat.add_sub_cancel_left,
          List.getElem?_append_left (by omega)]
    | false =>
      simp only [Bool.false_eq_true, if_false, List.append_nil]
      have hlen : ((completed lay d.ub (Layout.visits d.ub)).flatMap fun t =>
          windowRows lay d.ub t.2 (blockStart lay d.ub t)).length =
            (completed lay d.ub (Layout.visits d.ub)).length * lay.ratio :=
        flatMap_length fun t _ => windowRows_length lay d.ub t.2 _
      refine gathers_flatMap (blockStart lay d.ub) (Nat.zero_add k).symm (fun x hx => ?_) hk
        hcurNames
      rw [Nat.zero_mul, Nat.zero_add, List.getElem?_append_left (by omega)]
  case unshared =>
    intro x hx hmem
    obtain ⟨y, hy, rfl⟩ := List.mem_map.mp hx
    obtain ⟨⟨s, n⟩, hblock, heq⟩ := List.mem_map.mp hmem
    obtain ⟨-, hend⟩ := (mem_blocks h hf s n).mp hblock
    have hn : n + 1 ≤ lay.kvSize :=
      Nat.le_of_mul_le_mul_right (hend.trans ((h.fits s).trans lay.holds_ctx)) lay.ratio_pos
    obtain ⟨rfl, rfl⟩ := row_inj (Nat.lt_of_succ_le hn) hkv (heq.trans (hlast y.2))
    rw [Nat.sub_add_cancel lay.kvSize_pos] at hend
    exact absurd (hds y hy).2 (not_lt.mpr hend)
  case unseen =>
    intro x hx i hi s hs n hn heq
    obtain ⟨y, hy, rfl⟩ := List.mem_map.mp hx
    have hmem := mem_tokenIdxs.2 ⟨hi, hs⟩
    have hvis : (lay.nVisible d.ub).getD i 0 = lay.nVisibleAt d.ub i := by
      rw [Layout.nVisible, List.getD_eq_getElem?_getD, List.getElem?_map, List.getElem?_range hi]
      rfl
    have hn : n < lay.nVisibleAt d.ub i := hvis ▸ hn
    obtain ⟨rfl, rfl⟩ := row_inj hkv (hn.trans_le (nVisible_le h hmem)) ((hlast y.2).symm.trans heq)
    have := nVisible_lt h hmem (hds y hy).2
    omega

/-! ## Persisting -/

/-- A persisted row is that of the token with the highest position on it; the others stay. -/
theorem persist_spec (rsIdx : List ℕ) {b b' : Build} {ds : List (ℕ × ℕ)}
    (hb : Built lay ub (Layout.visits ub) b) (hpad : PaddedBy lay ub ds b b')
    (state source : ℕ → α) :
    let plan := planOf lay ub rsIdx b'
    let written := setRows state plan.statePersistDstIdxs plan.statePersistSrcIdxs source
    (∀ t ∈ Layout.visits ub, ∃ u ∈ Layout.visits ub,
      stateRowOf lay ub u = stateRowOf lay ub t ∧ ub.posAt t.1 ≤ ub.posAt u.1 ∧
        written (stateRowOf lay ub t) = source u.1) ∧
    ∀ x, (∀ t ∈ Layout.visits ub, stateRowOf lay ub t ≠ x) → written x = state x := by
  have hperm := List.perm_insertionSort (fun x y : PersistRow => x.dst ≤ y.dst) b'.persistRows
  have hnodup : ((b'.persistRows.insertionSort fun x y => x.dst ≤ y.dst).map
      PersistRow.dst).Nodup := by
    rw [(hperm.map PersistRow.dst).nodup_iff, hpad.persistRows]
    exact hb.persist_nodup
  obtain ⟨hwritten, hkept⟩ := setRows_map state PersistRow.src source hnodup
  refine ⟨fun t ht => ?_, fun x hx => hkept x fun hmem => ?_⟩
  · obtain ⟨row, hmem, hdst, hle⟩ := hb.persist_covers t ht
    obtain ⟨u, hu, hdst', hsrc, hpos⟩ := hb.persist_src row hmem
    refine ⟨u, hu, hdst'.symm.trans hdst, hpos ▸ hle, ?_⟩
    rw [← hdst, ← hsrc]
    exact hwritten row (hperm.mem_iff.mpr (hpad.persistRows ▸ hmem))
  · obtain ⟨row, hmem, hdst⟩ := List.mem_map.mp hmem
    have hmem := hpad.persistRows ▸ hperm.mem_iff.mp hmem
    obtain ⟨t, ht, hdst', -⟩ := hb.persist_src row hmem
    exact hx t ht (hdst'.symm.trans hdst)

theorem stateRowOf_eq (h : Continues lay len ub) (hf : Formed lay ub) {r : ℕ}
    (ht : t ∈ Layout.visits ub) (hr : r < lay.stateSize)
    (hrow : stateRowOf lay ub t = s * lay.stateSize + r) :
    t.2 = s ∧ t.1 ∈ Layout.tokenIdxs ub s ∧ ∃ q : ℕ, ub.posAt t.1 = q ∧ len s ≤ q ∧
      q < lenAfter len ub s ∧ q % lay.stateSize = r := by
  have hi := (mem_visits h hf).mp ht
  obtain ⟨q, hq, hlo, hhi⟩ := h.pos_of_mem hi
  rw [stateRowOf, hq] at hrow
  obtain ⟨rfl, hmod⟩ := row_inj (lay.emod_lt q) hr hrow
  exact ⟨rfl, hi, q, hq, hlo, hhi, hmod⟩

theorem persisted_token (h : Continues lay len ub) (hf : Formed lay ub) {rsIdx : List ℕ}
    {b b' : Build} {ds : List (ℕ × ℕ)} (hb : Built lay ub (Layout.visits ub) b)
    (hpad : PaddedBy lay ub ds b b') (state source : ℕ → α) {i q : ℕ}
    (hi : i ∈ Layout.tokenIdxs ub s) (hq : ub.posAt i = q)
    (hlate : lenAfter len ub s ≤ q + lay.stateSize) :
    setRows state (planOf lay ub rsIdx b').statePersistDstIdxs
      (planOf lay ub rsIdx b').statePersistSrcIdxs source
        (s * lay.stateSize + q % lay.stateSize) = source i := by
  have hrow : stateRowOf lay ub (i, s) = s * lay.stateSize + q % lay.stateSize := by
    rw [stateRowOf, hq]
    rfl
  obtain ⟨u, hu, hsame, hle, hw⟩ :=
    (persist_spec rsIdx hb hpad state source).1 (i, s) ((mem_visits h hf).mpr hi)
  rw [hrow] at hsame hw
  obtain ⟨-, hmem, q', hq', -, hlt, hmod⟩ :=
    stateRowOf_eq h hf hu (Nat.mod_lt q lay.stateSize_pos) hsame
  have hqq : q ≤ q' := by
    have := hle
    rw [hq, hq'] at this
    exact_mod_cast this
  have hdvd := (Nat.modEq_iff_dvd' hqq).mp hmod.symm
  have hzero := Nat.eq_zero_of_dvd_of_lt hdvd (by omega)
  obtain rfl : q' = q := by omega
  rw [hw, h.inj hmem hi (hq'.trans hq.symm)]

/-- A row of a sequence on which none of its tokens falls. -/
theorem persisted_other (h : Continues lay len ub) (hf : Formed lay ub) {rsIdx : List ℕ}
    {b b' : Build} {ds : List (ℕ × ℕ)} (hb : Built lay ub (Layout.visits ub) b)
    (hpad : PaddedBy lay ub ds b b') (state source : ℕ → α) {r : ℕ} (hr : r < lay.stateSize)
    (hnone : ∀ q, len s ≤ q → q < lenAfter len ub s → q % lay.stateSize ≠ r) :
    setRows state (planOf lay ub rsIdx b').statePersistDstIdxs
      (planOf lay ub rsIdx b').statePersistSrcIdxs source (s * lay.stateSize + r) =
        state (s * lay.stateSize + r) := by
  refine (persist_spec rsIdx hb hpad state source).2 _ fun t ht hrow => ?_
  obtain ⟨-, -, q, -, hlo, hhi, hmod⟩ := stateRowOf_eq h hf ht hr hrow
  exact hnone q hlo hhi hmod

theorem decode_inv (hinv : RingInv lay m) (h : Continues lay m.len d.ub) (hf : Formed lay d.ub)
    {rsIdx : List ℕ} {b b' : Build} {ds : List (ℕ × ℕ)}
    (hb : Built lay d.ub (Layout.visits d.ub) b) (hpad : PaddedBy lay d.ub ds b b') :
    RingInv lay (m.decode d (planOf lay d.ub rsIdx b')) := by
  intro s hs q hq hlate
  rw [len_decode] at hq hlate
  change (m.hist s ++ (Layout.tokenIdxs d.ub s).map d.row)[q]? = some (setRows _ _ _ _ _)
  by_cases hlt : q < m.len s
  · have hnone : ∀ q', m.len s ≤ q' → q' < lenAfter m.len d.ub s →
        q' % lay.stateSize ≠ q % lay.stateSize := by
      intro q' hlo hhi hmod
      have hdvd := (Nat.modEq_iff_dvd' (hlt.le.trans hlo)).mp hmod.symm
      have hzero := Nat.eq_zero_of_dvd_of_lt hdvd (by omega)
      omega
    rw [List.getElem?_append_left hlt,
      persisted_other h hf hb hpad m.state d.row (Nat.mod_lt q lay.stateSize_pos) hnone]
    exact hinv s hs q hlt ((Nat.le_add_right _ _).trans hlate)
  · have hk : q - m.len s < (Layout.tokenIdxs d.ub s).length := by
      rw [lenAfter] at hq
      omega
    have hpos := h.pos s _ hk
    rw [List.getElem?_append_right (not_lt.mp hlt), List.getElem?_map]
    change Option.map d.row (Layout.tokenIdxs d.ub s)[q - m.len s]? = _
    rw [List.getElem?_eq_getElem hk,
      persisted_token h hf hb hpad m.state d.row (List.getElem_mem hk) (by rw [hpos]; omega) hlate]
    rfl

/-! ## Runs -/

theorem buildCompPlans_correct {ds : List (Decode E α)} (hinv : RingInv lay m)
    (h : Contiguous lay m.len ds) (rs : List ℕ) :
    ∃ plans, lay.buildCompPlans (ds.map Decode.ub) rs = .ok plans ∧ AllPlanned lay m ds plans := by
  induction ds generalizing m rs with
  | nil => exact ⟨[], rfl, trivial⟩
  | cons d ds ih =>
    obtain ⟨hf, hc, hrest⟩ := h
    obtain ⟨b, b', dummies, hplan, hb, hpad, hdummies⟩ := buildCompPlan_ok hc hf rs
    rw [← len_decode m d (planOf lay d.ub rs b')] at hrest
    obtain ⟨plans, hplans, hall⟩ := ih (decode_inv hinv hc hf hb hpad) hrest
      ((d.ub.seqIdUnq.take d.ub.nSeqsUnq).foldl (fun rs s => rs.set s 0) rs)
    refine ⟨planOf lay d.ub rs b' :: plans, ?_,
      ⟨_, _, plan_correct hinv hc hf hb hpad hdummies⟩, hall⟩
    rw [List.map_cons, Layout.buildCompPlans, hplan]
    change (lay.buildCompPlans (ds.map Decode.ub) _ >>= fun plans => pure (_ :: plans)) = _
    rw [hplans]
    rfl

/-- `n` tokens of sequence 0 from position `a` on. -/
def oneSeqUbatch (a n : ℕ) : Ubatch E :=
  { Ubatch.empty with
    bEqualSeqs := true
    nTokens := n
    nSeqTokens := n
    nSeqs := 1
    nSeqsUnq := 1
    pos := (List.range n).map fun k => ((a + k : ℕ) : ℤ)
    seqId := List.replicate n [0]
    seqIdUnq := [0] }

theorem oneSeqUbatch_seqIdAt {a n i : ℕ} (hi : i < (oneSeqUbatch a n : Ubatch E).nTokens) :
    (oneSeqUbatch a n : Ubatch E).seqIdAt i = [0] := by
  rw [Ubatch.seqIdAt, oneSeqUbatch, List.getD_eq_getElem?_getD, List.getElem?_replicate,
    if_pos (show i < n from hi)]
  rfl

theorem oneSeqUbatch_tokenIdxs (a n s : ℕ) :
    Layout.tokenIdxs (oneSeqUbatch a n : Ubatch E) s = if s = 0 then List.range n else [] := by
  have hall : ∀ i ∈ List.range n, tokenHasSeq (oneSeqUbatch a n : Ubatch E) i s = decide (s = 0) := by
    intro i hi
    rw [tokenHasSeq, oneSeqUbatch_seqIdAt (List.mem_range.mp hi)]
    exact decide_eq_decide.mpr List.mem_singleton
  rw [Layout.tokenIdxs]
  change (List.range n).filter _ = _
  rw [List.filter_congr hall]
  split_ifs with hs
  · exact List.filter_eq_self.mpr fun _ _ => decide_eq_true hs
  · exact List.filter_eq_nil_iff.mpr fun _ _ => by simpa using hs

theorem oneSeqUbatch_formed {a n : ℕ} (hn : 0 < n) (hs : 0 < lay.nStream) :
    Formed lay (oneSeqUbatch a n : Ubatch E) where
  seqId_ne i hi := by
    rw [oneSeqUbatch_seqIdAt hi]
    exact List.cons_ne_nil _ _
  seqId_nodup i hi := by
    rw [oneSeqUbatch_seqIdAt hi]
    exact List.nodup_singleton 0
  unq_length := rfl
  unq_nodup := List.nodup_singleton 0
  mem_unq s := by
    refine ⟨fun h => ⟨0, hn, ?_⟩, fun ⟨i, hi, h⟩ => ?_⟩
    · rw [oneSeqUbatch_seqIdAt hn]
      exact h
    · rwa [oneSeqUbatch_seqIdAt hi] at h
  shape _ := by
    refine Or.inr fun s hs => ?_
    rw [oneSeqUbatch_tokenIdxs, if_pos (List.mem_singleton.mp hs), List.length_range]
    rfl
  stream i hi s h := by
    rw [oneSeqUbatch_seqIdAt hi] at h
    rwa [List.mem_singleton.mp h]

theorem oneSeqUbatch_continues {a n : ℕ} (ha : len 0 = a) (hlen : ∀ s, len s ≤ lay.nCtx)
    (hfit : a + n ≤ lay.nCtx) : Continues lay len (oneSeqUbatch a n : Ubatch E) where
  pos s k h := by
    simp only [oneSeqUbatch_tokenIdxs] at h ⊢
    split_ifs at h ⊢ with hs
    · rw [List.length_range] at h
      simp only [List.getElem_range, hs, ha, Ubatch.posAt, oneSeqUbatch]
      rw [List.getD_eq_getElem?_getD, List.getElem?_map, List.getElem?_range h]
      rfl
    · exact absurd h (Nat.not_lt_zero k)
  fits s := by
    rw [oneSeqUbatch_tokenIdxs]
    split_ifs with hs
    · rw [hs, ha, List.length_range]
      exact hfit
    · exact hlen s

/-- The plans of a run without rollback are right, and none of them throws. -/
theorem plans_correct (lay : Layout) (init : ℕ → α) (ds : List (Decode E α))
    (h : Contiguous lay (fun _ => 0) ds) :
    ∃ plans, lay.buildCompPlans (ds.map Decode.ub) (List.replicate lay.nStream 0) = .ok plans ∧
      AllPlanned lay (Ring.start init) ds plans :=
  buildCompPlans_correct (fun _ _ _ hq => absurd hq (Nat.not_lt_zero _)) h _

/-- Three tokens and then two: the second ubatch completes a block of which the ring holds three
positions. -/
theorem plans_correct_five :
    ∃ plans, (Layout.csa 16 1 0).buildCompPlans
        [(oneSeqUbatch 0 3 : Ubatch Unit), oneSeqUbatch 3 2] [0] = .ok plans ∧
      AllPlanned (Layout.csa 16 1 0) (Ring.start fun _ => 100)
        [(⟨oneSeqUbatch 0 3, fun i => i⟩ : Decode Unit ℕ), ⟨oneSeqUbatch 3 2, fun i => 3 + i⟩]
        plans := by
  refine plans_correct (Layout.csa 16 1 0) (fun _ => 100)
    [(⟨oneSeqUbatch 0 3, fun i => i⟩ : Decode Unit ℕ), ⟨oneSeqUbatch 3 2, fun i => 3 + i⟩]
    ⟨oneSeqUbatch_formed (by decide) (by decide), ?_,
      oneSeqUbatch_formed (by decide) (by decide), ?_, trivial⟩
  · exact oneSeqUbatch_continues rfl (fun _ => Nat.zero_le _) (by decide)
  · refine oneSeqUbatch_continues rfl (fun s => ?_) (by decide)
    rw [lenAfter, oneSeqUbatch_tokenIdxs]
    split_ifs <;> decide

end RocmFpx.Dsv4
