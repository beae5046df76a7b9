import RocmFpx.Dsv4Ring

/-!
Rolling a DSV4 sequence back. Besides the current plane the compressor keeps one plane of state rows
for each rollback depth, and `rs_idx` names the plane that a sequence goes on from.
-/

namespace RocmFpx.Dsv4

/-- A saved sequence: its tokens, which the raw cache saves, and its state rows. -/
structure SavedSeq (α : Type*) where
  partialOnly : Bool
  tokens : List α
  rows : ℕ → α

/-- The compressor state of all planes with `rs_idx` and `sc_info`, and of the raw cache the tokens
of each sequence. Not in the source: `recent`, the tokens of a sequence in the last ubatch that held
it, none of them once the sequence has been copied over, restored or removed. -/
structure Memory (α : Type*) where
  state : ℕ → α
  rsIdx : List ℕ
  copies : List (ℕ × ℕ)
  tokens : ℕ → List α
  recent : ℕ → ℕ
  saved : List (SavedSeq α)

variable {E α : Type*}

namespace Layout

variable (lay : Layout)

/-- Row `r` of a sequence in plane `k`. -/
def planeRow (k s r : ℕ) : ℕ := k * lay.stateRows + s * lay.stateSize + r

/-- The restore, the snapshots and the persisted rows, in the order of the graph. -/
def runPlan (state : ℕ → α) (d : Decode E α) (plan : CompPlan) : ℕ → α :=
  let restored := setRows state plan.stateRestoreDstIdxs plan.stateRestoreSrcIdxs state
  let nRows := lay.stateRows * (1 + lay.nRsSeq)
  let source i := if i < nRows then restored i else d.row (i - nRows)
  let snapshots := setRows restored plan.stateSnapshotDstIdxs plan.stateSnapshotSrcIdxs source
  setRows snapshots plan.statePersistDstIdxs plan.statePersistSrcIdxs d.row

/-- One copy of `apply_copies`: the current plane only. -/
def copyStream (state : ℕ → α) (copy : ℕ × ℕ) (i : ℕ) : α :=
  if i / lay.stateSize = copy.2 then state (copy.1 * lay.stateSize + i % lay.stateSize) else state i

def applyCopies (copies : List (ℕ × ℕ)) (state : ℕ → α) : ℕ → α :=
  copies.foldl lay.copyStream state

/-- `clear` of one sequence, with its data: every plane. -/
def clear [Zero α] (s : ℕ) (state : ℕ → α) (i : ℕ) : α :=
  if i / lay.stateSize ∈ (List.range (lay.nRsSeq + 1)).map (fun (d : ℕ) => d * lay.nStream + s) then 0
  else state i

/-- `reset_rs_idx_for_ubatches`. -/
def resetRsIdx (ubs : List (Ubatch E)) (rsIdx : List ℕ) : List ℕ :=
  if lay.nRsSeq = 0 then rsIdx
  else
    (ubs.flatMap fun ub => (List.range ub.nTokens).flatMap ub.seqIdAt).foldl
      (fun rs s => rs.set s 0) rsIdx

end Layout

namespace Memory

variable (lay : Layout) (m : Memory α)

def start [Zero α] : Memory α where
  state := fun _ => 0
  rsIdx := List.replicate lay.nStream 0
  copies := []
  tokens := fun _ => []
  recent := fun _ => 0
  saved := []

def len (s : ℕ) : ℕ := (m.tokens s).length

/-- `seq_pos_max` of the raw cache. -/
def posMax (s : ℕ) : ℤ := m.len s - 1

def rs (s : ℕ) : ℕ := m.rsIdx.getD s 0

def runUbatch (x : Decode E α × CompPlan) : Memory α :=
  { m with
    state := lay.runPlan m.state x.1 x.2
    tokens := fun s => m.tokens s ++ (Layout.tokenIdxs x.1.ub s).map x.1.row
    recent := fun s =>
      if Layout.tokenIdxs x.1.ub s = [] then m.recent s else (Layout.tokenIdxs x.1.ub s).length }

/-- A batch, split into ubatches: the memory is updated first, and the plans are built for all of the
ubatches before the first one is run. -/
def decode (ds : List (Decode E α)) : Option (Memory α) :=
  match lay.buildCompPlans (ds.map Decode.ub) m.rsIdx with
  | .error _ => none
  | .ok plans =>
    some ((ds.zip plans).foldl (runUbatch lay)
      { m with
        state := lay.applyCopies m.copies m.state
        copies := []
        rsIdx := lay.resetRsIdx (ds.map Decode.ub) m.rsIdx })

/-- `seq_rm` of the positions from `p0` on. -/
def seqRm [Zero α] (s : ℕ) (p0 : ℤ) : Bool × Memory α :=
  if 0 < p0 then
    if lay.nStream ≤ s then (false, m)
    else if m.posMax s < p0 then (true, m)
    else if lay.nRsSeq = 0 then (false, m)
    else
      let rollback := m.posMax s - (p0 - 1)
      if rollback < 1 ∨ lay.nRsSeq < rollback then (false, m)
      else if m.rs s ≠ 0 then (false, m)
      else
        (true, { m with
          tokens := Function.update m.tokens s ((m.tokens s).take p0.toNat)
          rsIdx := m.rsIdx.set s rollback.toNat })
  else
    (true, { m with
      state := lay.clear s m.state
      rsIdx := m.rsIdx.set s 0
      tokens := Function.update m.tokens s []
      recent := Function.update m.recent s 0 })

/-- `seq_cp` of a whole sequence: the rows are copied at the next update. -/
def seqCp [Zero α] (src dst : ℕ) : Memory α :=
  if src = dst then m
  else
    { m with
      state := lay.clear dst m.state
      copies := m.copies ++ [(src, dst)]
      rsIdx := m.rsIdx.set dst 0
      tokens := Function.update m.tokens dst (m.tokens src)
      recent := Function.update m.recent dst 0 }

/-- `state_write` of one sequence: the plane that `rs_idx` selects. -/
def stateWrite (s : ℕ) (partialOnly : Bool) : Option (Memory α) :=
  if lay.nRsSeq < m.rs s then none
  else
    some { m with
      saved := m.saved ++ [⟨partialOnly, m.tokens s, fun r => m.state (lay.planeRow (m.rs s) s r)⟩] }

/-- `state_read` of one sequence: rows in the current plane. Only a full state clears the others. -/
def stateRead [Zero α] (s : ℕ) (blob : SavedSeq α) : Memory α :=
  let cleared := if blob.partialOnly then m.state else lay.clear s m.state
  { m with
    state := fun i => if i / lay.stateSize = s then blob.rows (i % lay.stateSize) else cleared i
    rsIdx := m.rsIdx.set s 0
    tokens := Function.update m.tokens s blob.tokens
    recent := Function.update m.recent s 0 }

end Memory

inductive Op (E α : Type*)
  | decode (ds : List (Decode E α))
  | seqRm (s : ℕ) (p0 : ℤ)
  | seqCp (src dst : ℕ)
  | stateWrite (s : ℕ) (partialOnly : Bool)
  | stateRead (s k : ℕ)

namespace Op

variable [Zero α] (lay : Layout) (m : Memory α)

def step : Op E α → Option (Memory α)
  | decode ds => m.decode lay ds
  | seqRm s p0 => some (m.seqRm lay s p0).2
  | seqCp src dst => some (m.seqCp lay src dst)
  | stateWrite s partialOnly => m.stateWrite lay s partialOnly
  | stateRead s k => m.saved[k]?.map (m.stateRead lay s)

/-- What every caller has to respect. -/
def Allowed : Op E α → Prop
  | decode ds => Contiguous lay m.len ds
  | seqRm s _ => s < lay.nStream
  | seqCp src dst => src < lay.nStream ∧ dst < lay.nStream
  | stateWrite s _ => s < lay.nStream
  | stateRead s k => s < lay.nStream ∧ k < m.saved.length

/-- An accepted rollback stays within the last ubatch of the sequence, a sequence with a pending
rollback is not copied, and no step overtakes a pending copy. -/
def Careful : Op E α → Prop
  | decode _ => True
  | seqRm s p0 =>
    if 0 < p0 then
      1 ≤ m.posMax s - (p0 - 1) → m.posMax s - (p0 - 1) ≤ lay.nRsSeq → m.rs s = 0 →
        m.posMax s - (p0 - 1) ≤ m.recent s
    else ∀ c ∈ m.copies, c.1 ≠ s ∧ c.2 ≠ s
  | seqCp src dst => src = dst ∨ m.rs src = 0 ∧ ∀ c ∈ m.copies, c.1 ≠ dst
  | stateWrite s _ => ∀ c ∈ m.copies, c.2 ≠ s
  | stateRead s _ => ∀ c ∈ m.copies, c.1 ≠ s ∧ c.2 ≠ s

def run (ops : List (Op E α)) : Option (Memory α) := ops.foldlM (fun m op => op.step lay m) m

/-- Every step of the run satisfies `P` in the state it is taken in. -/
def AllSteps (P : Memory α → Op E α → Prop) (lay : Layout) : Memory α → List (Op E α) → Prop
  | _, [] => True
  | m, op :: ops => P m op ∧ ∀ m', op.step lay m = some m' → AllSteps P lay m' ops

end Op

/-- Row `r` holds the last of the tokens whose position is congruent to `r`, and zero if there is no
such token. -/
def IsRing [Zero α] (size : ℕ) (tokens : List α) (row : ℕ → α) : Prop :=
  ∀ r < size,
    (∀ q, IsGreatest {q | q < tokens.length ∧ q % size = r} q → tokens[q]? = some (row r)) ∧
      ((∀ q < tokens.length, q % size ≠ r) → row r = 0)

/-- For every sequence the plane that `rs_idx` selects is the ring of the surviving tokens, once the
pending copies are made. -/
def Selected [Zero α] (lay : Layout) (m : Memory α) : Prop :=
  ∀ s < lay.nStream, IsRing lay.stateSize (m.tokens s) fun r =>
    lay.applyCopies m.copies m.state (lay.planeRow (m.rs s) s r)

end RocmFpx.Dsv4

/-!
The rings of the planes along a run. After a ubatch, plane `d` is the ring of the tokens but for the
last `d`, as far as these lie in the ubatch.
-/

namespace RocmFpx.Dsv4

variable {E α : Type*} {lay : Layout}

/-! ## Rings -/

section

variable [Zero α] {size r n q : ℕ} {tokens : List α} {row row' : ℕ → α}

theorem isGreatest_iff (hr : r < size) :
    IsGreatest {q | q < n ∧ q % size = r} q ↔ q < n ∧ q % size = r ∧ n ≤ q + size := by
  constructor
  · rintro ⟨⟨hq, hmod⟩, hmax⟩
    refine ⟨hq, hmod, not_lt.mp fun hlt => ?_⟩
    have := hmax ⟨hlt, (Nat.add_mod_right q size).trans hmod⟩
    omega
  · rintro ⟨hq, hmod, hn⟩
    refine ⟨⟨hq, hmod⟩, fun p ⟨hp, hpmod⟩ => not_lt.mp fun hlt => ?_⟩
    have hdvd := (Nat.modEq_iff_dvd' hlt.le).mp (hmod.trans hpmod.symm)
    have := Nat.eq_zero_of_dvd_of_lt hdvd (by omega)
    omega

theorem isRing_nil (h : ∀ r < size, row r = 0) : IsRing size ([] : List α) row :=
  fun r hr => ⟨fun _ hq => absurd hq.1.1 (Nat.not_lt_zero _), fun _ => h r hr⟩

theorem IsRing.congr (h : IsRing size tokens row) (heq : ∀ r < size, row' r = row r) :
    IsRing size tokens row' := by
  intro r hr
  rw [heq r hr]
  exact h r hr

theorem IsRing.concat (h : IsRing size tokens row) (x : α)
    (hrow : ∀ r < size, row' r = if tokens.length % size = r then x else row r) :
    IsRing size (tokens ++ [x]) row' := by
  intro r hr
  obtain ⟨hsome, hnone⟩ := h r hr
  rw [hrow r hr, List.length_append, List.length_singleton]
  by_cases hlen : tokens.length % size = r
  · rw [if_pos hlen]
    constructor
    · rintro q ⟨⟨hq, -⟩, hmax⟩
      obtain rfl : q = tokens.length :=
        le_antisymm (Nat.le_of_lt_succ hq) (hmax ⟨Nat.lt_succ_self _, hlen⟩)
      exact List.getElem?_concat_length
    · exact fun h => absurd hlen (h _ (Nat.lt_succ_self _))
  · rw [if_neg hlen]
    have hlt : ∀ q < tokens.length + 1, q % size = r → q < tokens.length := by
      intro q hq hmod
      exact lt_of_le_of_ne (Nat.le_of_lt_succ hq) fun heq => hlen (heq ▸ hmod)
    constructor
    · rintro q ⟨⟨hq, hmod⟩, hmax⟩
      rw [List.getElem?_append_left (hlt q hq hmod)]
      exact hsome q ⟨⟨hlt q hq hmod, hmod⟩, fun p ⟨hp, hpmod⟩ => hmax ⟨Nat.lt_succ_of_lt hp, hpmod⟩⟩
    · exact fun h => hnone fun q hq => h q (Nat.lt_succ_of_lt hq)

end

/-! ## Rows of the planes -/

section

variable {k k' s s' r r' i : ℕ}

theorem planeRow_eq (lay : Layout) (k s r : ℕ) :
    lay.planeRow k s r = (k * lay.nStream + s) * lay.stateSize + r := by
  rw [Layout.planeRow, Layout.stateRows, Nat.add_mul, Nat.mul_assoc, Nat.mul_comm lay.nStream]

theorem planeRow_zero (lay : Layout) (s r : ℕ) :
    lay.planeRow 0 s r = s * lay.stateSize + r := by
  rw [Layout.planeRow, Nat.zero_mul, Nat.zero_add]

theorem planeRow_div (hr : r < lay.stateSize) :
    lay.planeRow k s r / lay.stateSize = k * lay.nStream + s := by
  rw [planeRow_eq, Nat.mul_comm, Nat.mul_add_div lay.stateSize_pos, Nat.div_eq_of_lt hr,
    Nat.add_zero]

theorem planeRow_mod (hr : r < lay.stateSize) : lay.planeRow k s r % lay.stateSize = r := by
  rw [planeRow_eq, Nat.mul_comm, Nat.mul_add_mod, Nat.mod_eq_of_lt hr]

theorem planeRow_inj (hs : s < lay.nStream) (hs' : s' < lay.nStream) (hr : r < lay.stateSize)
    (hr' : r' < lay.stateSize) (h : lay.planeRow k s r = lay.planeRow k' s' r') :
    k = k' ∧ s = s' ∧ r = r' := by
  rw [planeRow_eq, planeRow_eq] at h
  obtain ⟨hks, rfl⟩ := row_inj hr hr' h
  obtain ⟨rfl, rfl⟩ := row_inj hs hs' hks
  exact ⟨rfl, rfl, rfl⟩

theorem planeRow_lt (hk : k ≤ lay.nRsSeq) (hs : s < lay.nStream) (hr : r < lay.stateSize) :
    lay.planeRow k s r < lay.stateRows * (1 + lay.nRsSeq) := by
  have h1 : s * lay.stateSize + r < lay.stateRows := row_lt hs hr
  have h2 := row_lt (Nat.lt_succ_of_le hk) h1
  rw [Layout.planeRow, Nat.add_assoc, Nat.add_comm 1]
  exact h2

end

/-! ## Restore and snapshots -/

section

variable {ub : Ubatch E} {len : ℕ → ℕ} {rsIdx : List ℕ} {s d r : ℕ} {state : ℕ → α}

theorem streamSeq_eq (hf : Formed lay ub) (hs : s < lay.nStream) :
    lay.streamSeq ub s = if s ∈ ub.seqIdUnq then some s else none := by
  have htake : ub.seqIdUnq.take ub.nSeqsUnq = ub.seqIdUnq := by
    rw [hf.unq_length, List.take_length]
  rw [Layout.streamSeq, htake]
  by_cases hone : lay.nStream = 1
  · obtain rfl : s = 0 := by omega
    have hzero : ∀ x ∈ ub.seqIdUnq, x = 0 := by
      intro x hx
      obtain ⟨i, hi, hxi⟩ := (hf.mem_unq x).mp hx
      have := hf.stream i hi x hxi
      omega
    rw [if_pos hone, hf.unq_length]
    cases hl : ub.seqIdUnq with
    | nil => rfl
    | cons x l =>
      obtain rfl := hzero x (hl ▸ List.mem_cons_self)
      rw [if_pos (show 0 < (0 :: l).length from l.length.succ_pos), if_pos List.mem_cons_self]
      rfl
  · rw [if_neg hone]
    split_ifs with hmem
    · cases hfind : ub.seqIdUnq.find? fun x => decide (x = s) with
      | none => exact absurd (decide_eq_true rfl) (List.find?_eq_none.mp hfind s hmem)
      | some x =>
        have hx := List.find?_some hfind
        exact congrArg some (of_decide_eq_true hx)
    · exact List.find?_eq_none.mpr fun x hx hxs => hmem (of_decide_eq_true hxs ▸ hx)

theorem mem_unq_iff (hf : Formed lay ub) : s ∈ ub.seqIdUnq ↔ Layout.tokenIdxs ub s ≠ [] := by
  rw [hf.mem_unq]
  constructor
  · rintro ⟨i, hi, hs⟩
    exact List.ne_nil_of_mem (mem_tokenIdxs.2 ⟨hi, hs⟩)
  · intro hne
    obtain ⟨i, hi⟩ := List.exists_mem_of_ne_nil _ hne
    exact ⟨i, mem_tokenIdxs.1 hi⟩

theorem mem_allRows {x : ℕ × ℕ} : x ∈ lay.allRows ↔ x.1 < lay.nStream ∧ x.2 < lay.stateSize := by
  rw [Layout.allRows]
  exact List.mem_product.trans (and_congr List.mem_range List.mem_range)

theorem allRows_nodup (lay : Layout) : (lay.allRows.map fun x => x.1 * lay.stateSize + x.2).Nodup := by
  refine List.Nodup.map_on (fun x hx y hy h => ?_) (List.nodup_range.product List.nodup_range)
  obtain ⟨h1, h2⟩ := row_inj (mem_allRows.1 hx).2 (mem_allRows.1 hy).2 h
  exact Prod.ext h1 h2

theorem allSnapshots_eq (lay : Layout) :
    lay.allSnapshots = List.range lay.nStream ×ˢ
      (List.range' 1 lay.nRsSeq ×ˢ List.range lay.stateSize) := by
  rw [Layout.allSnapshots]
  refine List.flatMap_congr fun s _ => ?_
  change _ = List.map (Prod.mk s) (List.flatMap _ _)
  rw [List.map_flatMap]
  exact List.flatMap_congr fun d _ => (List.map_map ..).symm

theorem mem_allSnapshots {x : ℕ × ℕ × ℕ} : x ∈ lay.allSnapshots ↔
    x.1 < lay.nStream ∧ (1 ≤ x.2.1 ∧ x.2.1 ≤ lay.nRsSeq) ∧ x.2.2 < lay.stateSize := by
  rw [allSnapshots_eq, List.mem_product, List.mem_product, List.mem_range, List.mem_range'_1,
    List.mem_range, Nat.add_comm, Nat.lt_succ_iff]

theorem allSnapshots_nodup (lay : Layout) :
    (lay.allSnapshots.map fun x => lay.planeRow x.2.1 x.1 x.2.2).Nodup := by
  refine List.Nodup.map_on (fun x hx y hy h => ?_) ?_
  · obtain ⟨hx1, -, hx3⟩ := mem_allSnapshots.1 hx
    obtain ⟨hy1, -, hy3⟩ := mem_allSnapshots.1 hy
    obtain ⟨h1, h2, h3⟩ := planeRow_inj hx1 hy1 hx3 hy3 h
    exact Prod.ext h2 (Prod.ext h1 h3)
  · rw [allSnapshots_eq]
    exact List.nodup_range.product ((List.nodup_range' 1).product List.nodup_range)

theorem srcPlane_eq (hf : Formed lay ub) (hs : s < lay.nStream)
    (hle : rsIdx.getD s 0 ≤ lay.nRsSeq) :
    lay.srcPlane ub rsIdx s = (if s ∈ ub.seqIdUnq then rsIdx.getD s 0 else 0) * lay.stateRows := by
  rw [Layout.srcPlane, streamSeq_eq hf hs]
  split_ifs with hmem hback hback
  · change (rsIdx[s]?).getD 0 * _ = _
    rw [List.getD_eq_getElem?_getD]
  · have hzero : rsIdx.getD s 0 = 0 := by
      rw [List.getD_eq_getElem?_getD] at hle ⊢
      exact Nat.eq_zero_of_not_pos fun hpos => hback ⟨hpos, hle⟩
    rw [hzero, Nat.zero_mul]
  · exact absurd hback.1 (lt_irrefl 0)
  · rw [Nat.zero_mul]

theorem restore_current (hf : Formed lay ub) (hs : s < lay.nStream) (hr : r < lay.stateSize)
    (hle : rsIdx.getD s 0 ≤ lay.nRsSeq) (b : Build) (state : ℕ → α) :
    setRows state (planOf lay ub rsIdx b).stateRestoreDstIdxs
      (planOf lay ub rsIdx b).stateRestoreSrcIdxs state (lay.planeRow 0 s r) =
        state (lay.planeRow (if s ∈ ub.seqIdUnq then rsIdx.getD s 0 else 0) s r) := by
  by_cases hn : 0 < lay.nRsSeq
  · have hwritten := (setRows_map state
      (fun x : ℕ × ℕ => lay.srcPlane ub rsIdx x.1 + x.1 * lay.stateSize + x.2) state
      (allRows_nodup lay)).1 (s, r) (mem_allRows.2 ⟨hs, hr⟩)
    simp only [planOf, if_pos hn, planeRow_zero]
    rw [hwritten, srcPlane_eq hf hs hle, Layout.planeRow]
  · have hzero : (if s ∈ ub.seqIdUnq then rsIdx.getD s 0 else 0) = 0 := by
      split_ifs
      · omega
      · rfl
    simp only [planOf, if_neg hn, hzero]
    rfl

theorem restore_other (b : Build) {i : ℕ} (state : ℕ → α) (hi : lay.stateRows ≤ i) :
    setRows state (planOf lay ub rsIdx b).stateRestoreDstIdxs
      (planOf lay ub rsIdx b).stateRestoreSrcIdxs state i = state i := by
  by_cases hn : 0 < lay.nRsSeq
  · simp only [planOf, if_pos hn]
    refine (setRows_map state _ state (allRows_nodup lay)).2 i fun hmem => ?_
    obtain ⟨x, hx, rfl⟩ := List.mem_map.mp hmem
    obtain ⟨h1, h2⟩ := mem_allRows.1 hx
    exact absurd (row_lt h1 h2) (not_lt.mpr hi)
  · simp only [planOf, if_neg hn]
    rfl

theorem snapshot_row (hd : 1 ≤ d) (hd' : d ≤ lay.nRsSeq) (hs : s < lay.nStream)
    (hr : r < lay.stateSize) (b : Build) (state source : ℕ → α) :
    setRows state (planOf lay ub rsIdx b).stateSnapshotDstIdxs
      (planOf lay ub rsIdx b).stateSnapshotSrcIdxs source (lay.planeRow d s r) =
        source (lay.snapshotSrc ub s d r) := by
  simp only [planOf, if_pos (show 0 < lay.nRsSeq from hd.trans hd')]
  exact (setRows_map state (fun x : ℕ × ℕ × ℕ => lay.snapshotSrc ub x.1 x.2.1 x.2.2) source
    (allSnapshots_nodup lay)).1 (s, d, r) (mem_allSnapshots.2 ⟨hs, ⟨hd, hd'⟩, hr⟩)

theorem snapshot_current (hs : s < lay.nStream) (hr : r < lay.stateSize) (b : Build)
    (state source : ℕ → α) :
    setRows state (planOf lay ub rsIdx b).stateSnapshotDstIdxs
      (planOf lay ub rsIdx b).stateSnapshotSrcIdxs source (lay.planeRow 0 s r) =
        state (lay.planeRow 0 s r) := by
  by_cases hn : 0 < lay.nRsSeq
  · simp only [planOf, if_pos hn]
    refine (setRows_map state _ source (allSnapshots_nodup lay)).2 _ fun hmem => ?_
    obtain ⟨x, hx, heq⟩ := List.mem_map.mp hmem
    obtain ⟨h1, h2, h3⟩ := mem_allSnapshots.1 hx
    obtain ⟨h0, -, -⟩ := planeRow_inj h1 hs h3 hr heq
    omega
  · simp only [planOf, if_neg hn]
    rfl

theorem snapshotSrc_none (hf : Formed lay ub) (hs : s < lay.nStream)
    (hnone : Layout.tokenIdxs ub s = []) :
    lay.snapshotSrc ub s d r = lay.planeRow d s r := by
  have hmem : s ∉ ub.seqIdUnq := fun h => (mem_unq_iff hf).mp h hnone
  rw [Layout.snapshotSrc, streamSeq_eq hf hs, if_neg hmem]
  exact if_pos rfl

/-- The rows that the snapshot for the first `n` tokens takes. -/
def tokensSrc (lay : Layout) (ub : Ubatch E) (s n r : ℕ) : ℕ :=
  ((Layout.tokenIdxs ub s).take n).foldl
    (fun src i =>
      if 0 ≤ ub.posAt i ∧ (ub.posAt i % lay.stateSize).toNat = r then
        lay.stateRows * (1 + lay.nRsSeq) + i
      else src)
    (lay.planeRow 0 s r)

theorem snapshotSrc_some (hf : Formed lay ub) (hs : s < lay.nStream)
    (hsome : Layout.tokenIdxs ub s ≠ []) :
    lay.snapshotSrc ub s d r = tokensSrc lay ub s ((Layout.tokenIdxs ub s).length - d) r := by
  rw [Layout.snapshotSrc, streamSeq_eq hf hs, if_pos ((mem_unq_iff hf).mpr hsome), tokensSrc,
    planeRow_zero]
  exact if_neg hsome

variable [Zero α]

theorem isRing_tokensSrc (source : ℕ → α) (hc : Continues lay len ub) (hs : s < lay.nStream)
    {tokens : List α}
    (hlen : tokens.length = len s) {row : ℕ → α} {n : ℕ}
    (hn : n ≤ (Layout.tokenIdxs ub s).length)
    (hold : ∀ i < lay.stateRows * (1 + lay.nRsSeq), source i = state i)
    (hnew : ∀ i, source (lay.stateRows * (1 + lay.nRsSeq) + i) = row i)
    (h : IsRing lay.stateSize tokens fun r => state (lay.planeRow 0 s r)) :
    IsRing lay.stateSize (tokens ++ ((Layout.tokenIdxs ub s).take n).map row) fun r =>
      source (tokensSrc lay ub s n r) := by
  induction n with
  | zero =>
    rw [List.take_zero, List.map_nil, List.append_nil]
    exact h.congr fun r hr => hold _ (planeRow_lt (Nat.zero_le _) hs hr)
  | succ n ih =>
    have hlt : n < (Layout.tokenIdxs ub s).length := hn
    have hpos := hc.pos s n hlt
    have hmod : (ub.posAt ((Layout.tokenIdxs ub s)[n]) % lay.stateSize).toNat =
        (len s + n) % lay.stateSize := by
      rw [hpos]
      rfl
    have hnonneg : 0 ≤ ub.posAt ((Layout.tokenIdxs ub s)[n]) := by
      rw [hpos]
      omega
    have htake : (Layout.tokenIdxs ub s).take (n + 1) =
        (Layout.tokenIdxs ub s).take n ++ [(Layout.tokenIdxs ub s)[n]] :=
      (List.take_append_getElem hlt).symm
    rw [htake, List.map_append, ← List.append_assoc]
    refine (ih hlt.le).concat (row (Layout.tokenIdxs ub s)[n]) fun r hr => ?_
    rw [List.length_append, List.length_map, List.length_take, min_eq_left hlt.le, hlen, tokensSrc,
      htake, List.foldl_append, List.foldl_cons, List.foldl_nil, hmod]
    by_cases hrow : (len s + n) % lay.stateSize = r
    · rw [if_pos ⟨hnonneg, hrow⟩, if_pos hrow, hnew]
    · rw [if_neg fun hc => hrow hc.2, if_neg hrow]
      rfl

end

/-! ## One ubatch -/

section

variable {ub : Ubatch E} {len : ℕ → ℕ} {rsIdx : List ℕ} {b b' : Build} {ds : List (ℕ × ℕ)} {s : ℕ}

theorem persist_above (hc : Continues lay len ub) (hf : Formed lay ub)
    (hb : Built lay ub (Layout.visits ub) b) (hpad : PaddedBy lay ub ds b b')
    (state source : ℕ → α) {i : ℕ} (hi : lay.stateRows ≤ i) :
    setRows state (planOf lay ub rsIdx b').statePersistDstIdxs
      (planOf lay ub rsIdx b').statePersistSrcIdxs source i = state i := by
  refine (persist_spec rsIdx hb hpad state source).2 i fun t ht hrow => ?_
  have hlt : stateRowOf lay ub t < lay.stateRows :=
    row_lt (hf.stream_of_mem ((mem_visits hc hf).mp ht)) (lay.emod_lt _)
  omega

theorem persist_isRing [Zero α] (hc : Continues lay len ub) (hf : Formed lay ub)
    (hb : Built lay ub (Layout.visits ub) b) (hpad : PaddedBy lay ub ds b b')
    {tokens : List α} (hlen : tokens.length = len s) {state : ℕ → α} (row : ℕ → α)
    (h : IsRing lay.stateSize tokens fun r => state (lay.planeRow 0 s r)) :
    IsRing lay.stateSize (tokens ++ (Layout.tokenIdxs ub s).map row) fun r =>
      setRows state (planOf lay ub rsIdx b').statePersistDstIdxs
        (planOf lay ub rsIdx b').statePersistSrcIdxs row (lay.planeRow 0 s r) := by
  intro r hr
  have hlen' : (tokens ++ (Layout.tokenIdxs ub s).map row).length = lenAfter len ub s := by
    rw [List.length_append, List.length_map, hlen, lenAfter]
  obtain ⟨hsome, hnone⟩ := h r hr
  simp only [planeRow_zero, hlen'] at hsome hnone ⊢
  constructor
  · intro q hq
    obtain ⟨hlt, hmod, hlate⟩ := (isGreatest_iff hr).mp hq
    by_cases hold : q < len s
    · have hkeep : ∀ q', len s ≤ q' → q' < lenAfter len ub s → q' % lay.stateSize ≠ r := by
        intro q' hlo hhi hmod'
        have := hq.2 ⟨hhi, hmod'⟩
        omega
      rw [persisted_other hc hf hb hpad state row hr hkeep,
        List.getElem?_append_left (hlen.symm ▸ hold)]
      refine hsome q ⟨⟨hlen.symm ▸ hold, hmod⟩, fun q' hq' => hq.2 ⟨?_, hq'.2⟩⟩
      exact (hlen ▸ hq'.1).trans_le (Nat.le_add_right _ _)
    · have hk : q - len s < (Layout.tokenIdxs ub s).length := by
        rw [lenAfter] at hlt
        omega
      have hpos := hc.pos s _ hk
      rw [List.getElem?_append_right (by omega), List.getElem?_map, hlen,
        List.getElem?_eq_getElem hk, ← hmod,
        persisted_token hc hf hb hpad state row (List.getElem_mem hk) (by rw [hpos]; omega) hlate]
      rfl
  · intro hempty
    rw [persisted_other hc hf hb hpad state row hr fun q' _ hhi => hempty q' hhi]
    exact hnone fun q hq => hempty q ((hlen ▸ hq).trans_le (Nat.le_add_right _ _))

variable {d : Decode E α} {state : ℕ → α}

theorem runPlan_above (hc : Continues lay len d.ub) (hf : Formed lay d.ub)
    (hb : Built lay d.ub (Layout.visits d.ub) b) (hpad : PaddedBy lay d.ub ds b b') {k r : ℕ}
    (hk : 1 ≤ k) (hk' : k ≤ lay.nRsSeq) (hs : s < lay.nStream) (hr : r < lay.stateSize) :
    lay.runPlan state d (planOf lay d.ub rsIdx b') (lay.planeRow k s r) =
      if lay.snapshotSrc d.ub s k r < lay.stateRows * (1 + lay.nRsSeq) then
        setRows state (planOf lay d.ub rsIdx b').stateRestoreDstIdxs
          (planOf lay d.ub rsIdx b').stateRestoreSrcIdxs state (lay.snapshotSrc d.ub s k r)
      else d.row (lay.snapshotSrc d.ub s k r - lay.stateRows * (1 + lay.nRsSeq)) := by
  have habove : lay.stateRows ≤ lay.planeRow k s r := by
    rw [Layout.planeRow, Nat.add_assoc]
    exact (Nat.le_mul_of_pos_left _ hk).trans (Nat.le_add_right _ _)
  rw [Layout.runPlan, persist_above hc hf hb hpad _ _ habove, snapshot_row hk hk' hs hr]

theorem runPlan_absent (hc : Continues lay len d.ub) (hf : Formed lay d.ub)
    (hb : Built lay d.ub (Layout.visits d.ub) b) (hpad : PaddedBy lay d.ub ds b b')
    (hs : s < lay.nStream) (hnone : Layout.tokenIdxs d.ub s = [])
    (hle : rsIdx.getD s 0 ≤ lay.nRsSeq) {k r : ℕ} (hk : k ≤ lay.nRsSeq) (hr : r < lay.stateSize) :
    lay.runPlan state d (planOf lay d.ub rsIdx b') (lay.planeRow k s r) =
      state (lay.planeRow k s r) := by
  obtain rfl | hpos := Nat.eq_zero_or_pos k
  · have hkeep : ∀ q, len s ≤ q → q < lenAfter len d.ub s → q % lay.stateSize ≠ r := by
      intro q hlo hhi
      rw [lenAfter, hnone] at hhi
      exact absurd hhi (not_lt.mpr hlo)
    have hmem : s ∉ d.ub.seqIdUnq := fun h => (mem_unq_iff hf).mp h hnone
    have hrest := restore_current hf hs hr hle b' state
    rw [if_neg hmem] at hrest
    rw [Layout.runPlan, planeRow_zero, persisted_other hc hf hb hpad _ _ hr hkeep, ← planeRow_zero,
      snapshot_current hs hr, hrest]
  · have habove : lay.stateRows ≤ lay.planeRow k s r := by
      rw [Layout.planeRow, Nat.add_assoc]
      exact (Nat.le_mul_of_pos_left _ hpos).trans (Nat.le_add_right _ _)
    rw [runPlan_above hc hf hb hpad hpos hk hs hr, snapshotSrc_none hf hs hnone,
      if_pos (planeRow_lt hk hs hr), restore_other b' state habove]

end

/-- The planes of a sequence: the selected one is its ring, and while no rollback is pending plane
`d` is the ring without the last `d` tokens, as far as the last ubatch of the sequence goes. -/
structure Good [Zero α] (lay : Layout) (state : ℕ → α) (s : ℕ) (tokens : List α) (recent rs : ℕ) :
    Prop where
  rs_le : rs ≤ lay.nRsSeq
  selected : IsRing lay.stateSize tokens fun r => state (lay.planeRow rs s r)
  planes : rs = 0 → ∀ d ≤ recent, d ≤ lay.nRsSeq →
    IsRing lay.stateSize (tokens.take (tokens.length - d)) fun r => state (lay.planeRow d s r)

section

variable [Zero α] {state state' : ℕ → α} {s recent rs : ℕ} {tokens : List α}

theorem Good.congr (h : Good lay state s tokens recent rs)
    (heq : ∀ k ≤ lay.nRsSeq, ∀ r < lay.stateSize,
      state' (lay.planeRow k s r) = state (lay.planeRow k s r)) :
    Good lay state' s tokens recent rs where
  rs_le := h.rs_le
  selected := h.selected.congr (heq rs h.rs_le)
  planes h0 d hd hd' := (h.planes h0 d hd hd').congr (heq d hd')

theorem Good.of_current
    (h : IsRing lay.stateSize tokens fun r => state (lay.planeRow 0 s r)) :
    Good lay state s tokens 0 0 where
  rs_le := Nat.zero_le _
  selected := h
  planes _ d hd _ := by
    obtain rfl := Nat.le_zero.mp hd
    rwa [Nat.sub_zero, List.take_length]

variable {d : Decode E α} {len : ℕ → ℕ} {rsIdx : List ℕ} {b b' : Build} {ds : List (ℕ × ℕ)}

theorem runPlan_current (hs : s < lay.nStream) (hf : Formed lay d.ub)
    (hc : Continues lay len d.ub) (hb : Built lay d.ub (Layout.visits d.ub) b)
    (hpad : PaddedBy lay d.ub ds b b') (hlen : tokens.length = len s)
    (hle : rsIdx.getD s 0 ≤ lay.nRsSeq)
    (h : IsRing lay.stateSize tokens fun r =>
      state (lay.planeRow (if s ∈ d.ub.seqIdUnq then rsIdx.getD s 0 else 0) s r)) :
    IsRing lay.stateSize (tokens ++ (Layout.tokenIdxs d.ub s).map d.row) fun r =>
      lay.runPlan state d (planOf lay d.ub rsIdx b') (lay.planeRow 0 s r) := by
  refine persist_isRing hc hf hb hpad hlen d.row (h.congr fun r hr => ?_)
  rw [snapshot_current hs hr, restore_current hf hs hr hle]

theorem Good.runPlan (hc : Continues lay len d.ub) (hf : Formed lay d.ub)
    (hb : Built lay d.ub (Layout.visits d.ub) b) (hpad : PaddedBy lay d.ub ds b b')
    (hs : s < lay.nStream) (hlen : tokens.length = len s)
    (h : Good lay state s tokens recent (rsIdx.getD s 0)) :
    Good lay (lay.runPlan state d (planOf lay d.ub rsIdx b')) s
      (tokens ++ (Layout.tokenIdxs d.ub s).map d.row)
      (if Layout.tokenIdxs d.ub s = [] then recent else (Layout.tokenIdxs d.ub s).length)
      (if s ∈ d.ub.seqIdUnq then 0 else rsIdx.getD s 0) := by
  by_cases hnone : Layout.tokenIdxs d.ub s = []
  · have hmem : s ∉ d.ub.seqIdUnq := fun h => (mem_unq_iff hf).mp h hnone
    rw [if_pos hnone, if_neg hmem, hnone, List.map_nil, List.append_nil]
    exact h.congr fun k hk r hr => runPlan_absent hc hf hb hpad hs hnone h.rs_le hk hr
  · have hmem := (mem_unq_iff hf).mpr hnone
    rw [if_neg hnone, if_pos hmem]
    have hcur : IsRing lay.stateSize (tokens ++ (Layout.tokenIdxs d.ub s).map d.row) fun r =>
        lay.runPlan state d (planOf lay d.ub rsIdx b') (lay.planeRow 0 s r) :=
      runPlan_current hs hf hc hb hpad hlen h.rs_le (by rw [if_pos hmem]; exact h.selected)
    refine ⟨Nat.zero_le _, hcur, fun _ k hk hk' => ?_⟩
    obtain rfl | hpos := Nat.eq_zero_or_pos k
    · rwa [Nat.sub_zero, List.take_length]
    · have htake : (tokens ++ (Layout.tokenIdxs d.ub s).map d.row).take
          ((tokens ++ (Layout.tokenIdxs d.ub s).map d.row).length - k) =
            tokens ++ ((Layout.tokenIdxs d.ub s).take
              ((Layout.tokenIdxs d.ub s).length - k)).map d.row := by
        rw [List.length_append, List.length_map, Nat.add_sub_assoc hk, List.take_length_add_append,
          List.map_take]
      have hrest : IsRing lay.stateSize tokens fun r =>
          setRows state (planOf lay d.ub rsIdx b').stateRestoreDstIdxs
            (planOf lay d.ub rsIdx b').stateRestoreSrcIdxs state (lay.planeRow 0 s r) := by
        refine h.selected.congr fun r hr => ?_
        rw [restore_current hf hs hr h.rs_le, if_pos hmem]
      rw [htake]
      refine (isRing_tokensSrc (fun i =>
        if i < lay.stateRows * (1 + lay.nRsSeq) then
          setRows state (planOf lay d.ub rsIdx b').stateRestoreDstIdxs
            (planOf lay d.ub rsIdx b').stateRestoreSrcIdxs state i
        else d.row (i - lay.stateRows * (1 + lay.nRsSeq))) hc hs hlen (Nat.sub_le _ k)
          (fun i hi => if_pos hi) (fun i => ?_) hrest).congr fun r hr => ?_
      · rw [if_neg (Nat.not_lt.mpr (Nat.le_add_right _ _)), Nat.add_sub_cancel_left]
      · rw [runPlan_above hc hf hb hpad hpos hk' hs hr, snapshotSrc_some hf hs hnone]

end

end RocmFpx.Dsv4
