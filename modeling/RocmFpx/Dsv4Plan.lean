import RocmFpx.SizeT
import RocmFpx.Ubatch

/-!
The plan of a DSV4 compressor for one ubatch. The compressor keeps a ring of state rows for each
sequence; when a block of `ratio` positions is complete, the rows of its window are gathered and
one compressed row is written. An `assert` that fails is an error like the exceptions.
-/

namespace RocmFpx.Dsv4

def csaRatio : ℕ := 4

def hcaRatio : ℕ := 128

/-- `dsv4_comp_size`. -/
def compSize (kvSize ratio : ℕ) : ℕ := max 1 ((kvSize + ratio - 1) / ratio)

/-- The sizes a compressor is made with; `nCtx` is the size of a stream of the raw cache. -/
structure Layout where
  ratio : ℕ
  overlap : Bool
  stateSize : ℕ
  kvSize : ℕ
  nStream : ℕ
  nRsSeq : ℕ
  nCtx : ℕ
  ratio_pos : 0 < ratio
  window_fits : (if overlap then 2 * ratio else ratio) = stateSize
  kvSize_pos : 0 < kvSize
  holds_ctx : nCtx ≤ kvSize * ratio
  hca_plain : ratio = hcaRatio → overlap = false

theorem le_padded_compSize (nCtx ratio : ℕ) : compSize nCtx ratio ≤ padded (compSize nCtx ratio) 256 :=
  le_padded (by decide)

theorem le_compSize_mul {nCtx ratio n : ℕ} (hr : 0 < ratio) (hn : compSize nCtx ratio ≤ n) :
    nCtx ≤ n * ratio :=
  (le_padded hr).trans (Nat.mul_le_mul_right ratio ((le_max_right _ _).trans hn))

namespace Layout

/-- The compressed cache and the state of the CSA compressor and of the indexer. -/
def csa (nCtx nSeqMax nRsSeq : ℕ) : Layout where
  ratio := csaRatio
  overlap := true
  stateSize := 2 * csaRatio
  kvSize := padded (compSize nCtx csaRatio) 256
  nStream := nSeqMax
  nRsSeq := nRsSeq
  nCtx := nCtx
  ratio_pos := by decide
  window_fits := rfl
  kvSize_pos := (le_max_left 1 _).trans (le_padded_compSize nCtx csaRatio)
  holds_ctx := le_compSize_mul (by decide) (le_padded_compSize nCtx csaRatio)
  hca_plain := fun h => absurd h (by decide)

/-- The compressed cache and the state of the HCA compressor. -/
def hca (nCtx nSeqMax nRsSeq : ℕ) : Layout where
  ratio := hcaRatio
  overlap := false
  stateSize := hcaRatio
  kvSize := padded (compSize nCtx hcaRatio) 256
  nStream := nSeqMax
  nRsSeq := nRsSeq
  nCtx := nCtx
  ratio_pos := by decide
  window_fits := rfl
  kvSize_pos := (le_max_left 1 _).trans (le_padded_compSize nCtx hcaRatio)
  holds_ctx := le_compSize_mul (by decide) (le_padded_compSize nCtx hcaRatio)
  hca_plain := fun _ => rfl

/-- The rows of one plane: every stream has `stateSize` of them. -/
def stateRows (lay : Layout) : ℕ := lay.stateSize * lay.nStream

end Layout

/-- `comp_plan`. -/
structure CompPlan where
  statePos : List ℕ
  statePersistSrcIdxs : List ℕ
  statePersistDstIdxs : List ℕ
  stateRestoreSrcIdxs : List ℕ
  stateRestoreDstIdxs : List ℕ
  stateSnapshotSrcIdxs : List ℕ
  stateSnapshotDstIdxs : List ℕ
  stateReadIdxs : List ℕ
  stateWriteIdxs : List ℕ
  stateWritePos : List ℤ
  nVisible : List ℕ
  nStream : ℕ
  nKv : ℕ

structure PersistRow where
  dst : ℕ
  src : ℕ
  pos : ℤ

/-- The vectors that the loop over the tokens fills. -/
structure Build where
  persistRows : List PersistRow
  writeIdxs : List ℕ
  writePos : List ℤ
  writeCounts : ℕ → ℕ
  reads : List ℕ
  prevReads : List ℕ
  curReads : List ℕ

/-- `dsv4_stream_offset`. -/
def streamOffset (nStream seqId size : ℕ) : Except String ℕ :=
  if nStream ≤ 1 then .ok 0
  else if nStream ≤ seqId then .error "DSV4 sequence id out of stream range"
  else .ok (seqId * size)

variable {E : Type*}

/-- `dsv4_ubatch_has_coupled`. -/
def hasCoupled (ub : Ubatch E) : Bool :=
  (List.range ub.nTokens).any fun i => decide (1 < (ub.seqIdAt i).length)

/-- `dsv4_token_has_seq`. -/
def tokenHasSeq (ub : Ubatch E) (i seqId : ℕ) : Bool := decide (seqId ∈ ub.seqIdAt i)

/-- `dsv4_comp_graph_n_stream`. -/
def compGraphNStream (ub : Ubatch E) (nStream : ℕ) : ℕ :=
  if nStream ≤ 1 ∨ ub.nSeqsUnq ≤ 1 ∨ hasCoupled ub then 1 else ub.nSeqsUnq

/-- `curr_token_idx_map`: of several tokens with the key the last one. -/
def currTokenIdx (ub : Ubatch E) (seqId : ℕ) (pos : ℤ) : Option ℕ :=
  (List.range ub.nTokens).reverse.find? fun i => tokenHasSeq ub i seqId && decide (ub.posAt i = pos)

namespace Layout

variable (lay : Layout) (ub : Ubatch E)

/-- `state_source_idx`. -/
def stateSourceIdx (seqId : ℕ) (pos : ℤ) : Except String ℕ :=
  if pos < 0 then .ok (lay.stateRows + ub.nTokens)
  else
    match currTokenIdx ub seqId pos with
    | some i => .ok (lay.stateRows + i)
    | none => do
      let streamOff ← streamOffset lay.nStream seqId lay.stateSize
      .ok (streamOff + (pos % lay.stateSize).toNat)

/-- The source rows of the `ratio` positions from `start` on. -/
def windowIdxs (seqId : ℕ) (start : ℤ) : Except String (List ℕ) :=
  (List.range lay.ratio).mapM fun (j : ℕ) => lay.stateSourceIdx ub seqId (start + j)

end Layout

/-- The row of `persist_rows` for this destination: the highest position wins. -/
def addPersist (new : PersistRow) : List PersistRow → List PersistRow
  | [] => [new]
  | row :: rows =>
    if row.dst = new.dst then (if row.pos < new.pos then new else row) :: rows
    else row :: addPersist new rows

namespace Layout

variable (lay : Layout) (ub : Ubatch E)

/-- The body of the loop for one token and one of its sequences. -/
def visit (b : Build) (t : ℕ × ℕ) : Except String Build := do
  let pos := ub.posAt t.1
  let streamOff ← streamOffset lay.nStream t.2 lay.stateSize
  let stateIdx := streamOff + (pos % lay.stateSize).toNat
  let b := { b with persistRows := addPersist ⟨stateIdx, t.1, pos⟩ b.persistRows }
  if (pos + 1) % lay.ratio ≠ 0 then
    return b
  let sourceStart := pos + 1 - lay.ratio
  let cacheOff ← streamOffset lay.nStream t.2 lay.kvSize
  let b := { b with
    writeIdxs := b.writeIdxs ++ [cacheOff + (pos / lay.ratio).toNat]
    writePos := b.writePos ++ [sourceStart]
    writeCounts := Function.update b.writeCounts t.2 (b.writeCounts t.2 + 1) }
  if lay.overlap then
    let prev ← lay.windowIdxs ub t.2 (sourceStart - lay.ratio)
    let cur ← lay.windowIdxs ub t.2 sourceStart
    return { b with prevReads := b.prevReads ++ prev, curReads := b.curReads ++ cur }
  else
    let cur ← lay.windowIdxs ub t.2 sourceStart
    return { b with reads := b.reads ++ cur }

/-- The tokens with a position and their sequences, in the order of the loops. -/
def visits : List (ℕ × ℕ) :=
  ((List.range ub.nTokens).filter fun i => decide (0 ≤ ub.posAt i)).flatMap fun i =>
    (ub.seqIdAt i).map (i, ·)

def visitAll : Except String Build :=
  (visits ub).foldlM (lay.visit ub) ⟨[], [], [], fun _ => 0, [], [], []⟩

/-- `append_dummy_block`: the last row of the stream, from a row that is there anyway. -/
def appendDummyBlock (b : Build) (seqId i : ℕ) : Except String Build := do
  let cacheOff ← streamOffset lay.nStream seqId lay.kvSize
  let sourceIdx ← lay.stateSourceIdx ub seqId (ub.posAt i)
  let b := { b with
    writeIdxs := b.writeIdxs ++ [cacheOff + lay.kvSize - 1]
    writePos := b.writePos ++ [0] }
  if lay.overlap then
    return { b with
      prevReads := b.prevReads ++ List.replicate lay.ratio sourceIdx
      curReads := b.curReads ++ List.replicate lay.ratio sourceIdx }
  else
    return { b with reads := b.reads ++ List.replicate lay.ratio sourceIdx }

/-- The first token with a position that satisfies `p`. -/
def firstToken (p : ℕ → Bool) : Except String ℕ :=
  match (List.range ub.nTokens).find? fun i => decide (0 ≤ ub.posAt i) && p i with
  | some i => .ok i
  | none => .error "assert(i < ubatch.n_tokens)"

/-- One dummy block for the first token of the ubatch. -/
def appendFirstDummy (b : Build) : Except String Build := do
  let i ← firstToken ub fun _ => true
  lay.appendDummyBlock ub b ((ub.seqIdAt i).getD 0 0) i

/-- Padding one sequence to the block count of the reserve plan. -/
def padSeq (nBlocks : ℕ) (b : Build) (seqId : ℕ) : Except String Build := do
  let nWrites := b.writeCounts seqId
  if nBlocks ≤ nWrites then
    return b
  if nWrites + 1 ≠ nBlocks then
    throw "DSV4 CSA sequence positions are not contiguous"
  let i ← firstToken ub fun i => tokenHasSeq ub i seqId
  lay.appendDummyBlock ub b seqId i

/-- `state_pos`: the rows of the position embedding. -/
def statePos : List ℕ :=
  ((List.range ub.nTokens).filter fun i => decide (0 ≤ ub.posAt i)).map fun i =>
    (ub.posAt i % lay.ratio).toNat

/-- The blocks of a token's sequence that are complete behind it. -/
def nVisibleAt (i : ℕ) : ℕ := if 0 ≤ ub.posAt i then ((ub.posAt i + 1) / lay.ratio).toNat else 0

def nVisible : List ℕ := (List.range ub.nTokens).map (lay.nVisibleAt ub)

/-- `n_kv` before it is padded. -/
def maxVisible : ℕ := (lay.nVisible ub).foldl max 0

def padCsa (b : Build) : Except String Build := do
  if lay.ratio = csaRatio ∧ lay.statePos ub ≠ [] then
    if hasCoupled ub then
      if b.writeIdxs = [] then lay.appendFirstDummy ub b else return b
    else
      let nBlocks := (max 1 ub.nSeqTokens + lay.ratio - 1) / lay.ratio
      (ub.seqIdUnq.take ub.nSeqsUnq).foldlM (lay.padSeq ub nBlocks) b
  else
    return b

def padHca (b : Build) : Except String Build := do
  if lay.ratio = hcaRatio ∧ lay.statePos ub ≠ [] ∧ b.writeIdxs = [] then
    if lay.maxVisible ub < lay.kvSize then
      let i ← firstToken ub fun _ => true
      let seqId := (ub.seqIdAt i).getD 0 0
      let cacheOff ← streamOffset lay.nStream seqId lay.kvSize
      let sourceIdx ← lay.stateSourceIdx ub seqId (ub.posAt i)
      return { b with
        writeIdxs := b.writeIdxs ++ [cacheOff + lay.kvSize - 1]
        writePos := b.writePos ++ [0]
        reads := b.reads ++ List.replicate lay.ratio sourceIdx }
    else
      throw "assert(plan.n_kv < (int64_t) kv_size)"
  else
    return b

/-! ## Rollback -/

/-- The sequence that a stream serves in this ubatch. -/
def streamSeq (stream : ℕ) : Option ℕ :=
  if lay.nStream = 1 then
    if 0 < ub.nSeqsUnq then some (ub.seqIdUnq.getD 0 0) else none
  else (ub.seqIdUnq.take ub.nSeqsUnq).find? fun s => decide (s = stream)

/-- The plane that is restored: that of the pending rollback, or the current one. -/
def srcPlane (rsIdx : List ℕ) (stream : ℕ) : ℕ :=
  let rollback := ((lay.streamSeq ub stream).bind fun s => rsIdx[s]?).getD 0
  if 0 < rollback ∧ rollback ≤ lay.nRsSeq then rollback * lay.stateRows else 0

/-- `token_idxs`: the tokens of a sequence. -/
def tokenIdxs (seqId : ℕ) : List ℕ := (List.range ub.nTokens).filter fun i => tokenHasSeq ub i seqId

/-- The row that snapshot `d` takes for row `r`: the last of the tokens but for the last `d` that
falls on it, or the state row. -/
def snapshotSrc (stream d r : ℕ) : ℕ :=
  let tokens := ((lay.streamSeq ub stream).elim [] fun s => tokenIdxs ub s)
  if tokens = [] then d * lay.stateRows + stream * lay.stateSize + r
  else
    (tokens.take (tokens.length - d)).foldl
      (fun src i =>
        if 0 ≤ ub.posAt i ∧ (ub.posAt i % lay.stateSize).toNat = r then
          lay.stateRows * (1 + lay.nRsSeq) + i
        else src)
      (stream * lay.stateSize + r)

/-- The streams and their rows. -/
def allRows : List (ℕ × ℕ) :=
  (List.range lay.nStream).flatMap fun stream => (List.range lay.stateSize).map (stream, ·)

/-- The streams, the rollback depths and the rows. -/
def allSnapshots : List (ℕ × ℕ × ℕ) :=
  (List.range lay.nStream).flatMap fun stream =>
    (List.range' 1 lay.nRsSeq).flatMap fun d => (List.range lay.stateSize).map (stream, d, ·)

/-- `dsv4_build_comp_plan`. -/
def buildCompPlan (rsIdx : List ℕ) : Except String CompPlan := do
  if lay.nStream ≤ 1 ∧ 1 < ub.nSeqsUnq then
    throw "DSV4 single compressed stream cannot serve multiple sequences"
  let b ← lay.visitAll ub
  let b ← lay.padCsa ub b
  let b ← lay.padHca ub b
  let rows := b.persistRows.insertionSort fun x y => x.dst ≤ y.dst
  let restores := if 0 < lay.nRsSeq then lay.allRows else []
  let snapshots := if 0 < lay.nRsSeq then lay.allSnapshots else []
  return {
    statePos := lay.statePos ub
    statePersistSrcIdxs := rows.map (·.src)
    statePersistDstIdxs := rows.map (·.dst)
    stateRestoreSrcIdxs := restores.map fun x =>
      lay.srcPlane ub rsIdx x.1 + x.1 * lay.stateSize + x.2
    stateRestoreDstIdxs := restores.map fun x => x.1 * lay.stateSize + x.2
    stateSnapshotSrcIdxs := snapshots.map fun x => lay.snapshotSrc ub x.1 x.2.1 x.2.2
    stateSnapshotDstIdxs := snapshots.map fun x =>
      x.2.1 * lay.stateRows + x.1 * lay.stateSize + x.2.2
    stateReadIdxs := b.reads ++ if lay.overlap then b.prevReads ++ b.curReads else []
    stateWriteIdxs := b.writeIdxs
    stateWritePos := b.writePos
    nVisible := lay.nVisible ub
    nStream := compGraphNStream ub lay.nStream
    nKv := max (padded (lay.maxVisible ub) 256) 256 }

/-- `dsv4_build_comp_plans`: the first ubatch that holds a sequence uses up its rollback. -/
def buildCompPlans : List (Ubatch E) → List ℕ → Except String (List CompPlan)
  | [], _ => .ok []
  | ub :: ubs, rs => do
    let plan ← lay.buildCompPlan ub rs
    let rs := (ub.seqIdUnq.take ub.nSeqsUnq).foldl (fun rs s => rs.set s 0) rs
    let plans ← buildCompPlans ubs rs
    return plan :: plans

end Layout

end RocmFpx.Dsv4
