import RocmFpx.KvCells
import RocmFpx.Swa
import RocmFpx.Ubatch

/-!
The metadata of `llama_kv_cache`: the cells and the search head of each stream, and the
stream copies waiting for the next update. What the constructor fixes is `KvParams`;
the tensors are in another module. A failing `GGML_ASSERT` makes an operation `none`.
-/

namespace RocmFpx

structure KvParams where
  nSeqMax : ℕ
  nStream : ℕ
  kvSize : ℕ
  nSwa : ℕ
  swaType : SwaType
  nPosPerEmbd : ℕ
  pleNHeads : ℕ
  pleImageTokenId : ℤ
  pleEosTokenId : ℤ
  archStep35 : Bool
  hasRope : Bool
  stream_cases : nStream = 1 ∨ nStream = nSeqMax
  seqMax_pos : 0 < nSeqMax
  seqMax_le : nSeqMax ≤ llamaMaxSeq

namespace KvParams

theorem oneStream_cases : (1 : ℕ) = 1 ∨ (1 : ℕ) = 1 := .inl rfl

theorem one_le_llamaMaxSeq : 1 ≤ llamaMaxSeq := by decide

variable (p : KvParams)

def seqToStream (s : ℕ) : ℕ := if p.nStream > 1 then s else 0

def seqToStreamSize : ℕ := if p.nStream > 1 then p.nStream else llamaMaxSeq

def getCanShift : Bool := !p.archStep35 && !decide (p.nPosPerEmbd > 1)

theorem nStream_pos : 0 < p.nStream := by
  have := p.stream_cases
  have := p.seqMax_pos
  omega

theorem seqToStream_lt {s : ℕ} (hs : s < p.seqToStreamSize) : p.seqToStream s < p.nStream := by
  rw [seqToStreamSize] at hs
  rw [seqToStream]
  split_ifs at hs ⊢
  · exact hs
  · exact p.nStream_pos

theorem seqToStreamSize_le : p.seqToStreamSize ≤ llamaMaxSeq := by
  have := p.stream_cases
  have := p.seqMax_le
  rw [seqToStreamSize]
  split_ifs <;> omega

end KvParams

structure KvCache where
  vHeads : ℕ → ℕ
  vCells : ℕ → KvCells
  scInfo : List (ℕ × ℕ)

/-- `strm` and `idxs` side by side. -/
structure SlotInfo where
  s0 : ℕ
  s1 : ℕ
  slots : List (ℕ × List ℕ)
  deriving DecidableEq

/-- The tokens of each stream, `idxs[0].size()`. -/
def SlotInfo.size (sinfo : SlotInfo) : ℕ := (sinfo.slots.head?.map fun slot => slot.2.length).getD 0

/-- Stream, cell and ubatch index of every token, in the order of the two loops. -/
def SlotInfo.placements (sinfo : SlotInfo) : List (ℕ × ℕ × ℕ) :=
  sinfo.slots.zipIdx.flatMap fun slot =>
    slot.1.2.zipIdx.map fun cell => (slot.1.1, cell.1, slot.2 * sinfo.size + cell.2)

/-- `std::numeric_limits<llama_pos>::max()`. -/
def llamaPosMax : ℤ := 2147483647

def rangeBegin (p₀ : ℤ) : ℤ := if p₀ < 0 then 0 else p₀

def rangeEnd (p₁ : ℤ) : ℤ := if p₁ < 0 then llamaPosMax else p₁

namespace KvCache

variable (p : KvParams)

def init : KvCache where
  vHeads := fun _ => 0
  vCells := fun s => if s < p.nStream then KvCells.init.resize p.kvSize else KvCells.init
  scInfo := []

def clear (c : KvCache) : KvCache :=
  { c with vCells := fun s => (c.vCells s).reset, vHeads := fun _ => 0 }

def getSize (c : KvCache) : ℕ := (c.vCells (p.seqToStream 0)).size

def getHasShift (c : KvCache) : Bool := (List.range p.nStream).any fun s => (c.vCells s).hasShift

/-- `v_cells[seq_to_stream[s]]`. -/
def cellsOf (c : KvCache) (s : ℕ) : KvCells := c.vCells (p.seqToStream s)

def seqPosMin (c : KvCache) (s : ℕ) : ℤ := (c.cellsOf p s).seqPosMin s

def seqPosMax (c : KvCache) (s : ℕ) : ℤ := (c.cellsOf p s).seqPosMax s

def setCells (c : KvCache) (strm : ℕ) (cells : KvCells) : KvCache :=
  { c with vCells := Function.update c.vCells strm cells }

def setHead (c : KvCache) (strm head : ℕ) : KvCache :=
  { c with vHeads := Function.update c.vHeads strm head }

/-! ## Sequence operations

All loops over the cells of a stream that may free cells have the same shape: they
remember the first index that `body` freed, `cells.size()` if there was none. -/

def freeLoop (body : KvCells → ℕ → KvCells × Bool) (cells : KvCells) : KvCells × ℕ :=
  (List.range cells.size).foldl
    (fun st i =>
      let r := body st.1 i
      (r.1, if r.2 ∧ st.2 = cells.size then i else st.2))
    (cells, cells.size)

/-- A freed slot becomes the head if it is before the present one. -/
def lowerHead (head newHead size : ℕ) : ℕ :=
  if newHead ≠ size ∧ newHead < head then newHead else head

def seqRmBody (s : ℕ) (p₀ p₁ : ℤ) (cells : KvCells) (i : ℕ) : KvCells × Bool :=
  if cells.posIn i p₀ p₁ && cells.seqHas i s then cells.seqRm i s else (cells, false)

def rmBody (p₀ p₁ : ℤ) (cells : KvCells) (i : ℕ) : KvCells × Bool :=
  if cells.posIn i p₀ p₁ then (cells.rm i, true) else (cells, false)

def seqAddBody (s : ℕ) (p₀ p₁ shift : ℤ) (cells : KvCells) (i : ℕ) : KvCells × Bool :=
  if cells.posIn i p₀ p₁ && cells.seqHas i s then cells.posAdd i shift else (cells, false)

def freeStream (c : KvCache) (strm : ℕ) (body : KvCells → ℕ → KvCells × Bool) : KvCache :=
  let r := freeLoop body (c.vCells strm)
  (c.setCells strm r.1).setHead strm (lowerHead (c.vHeads strm) r.2 (c.vCells strm).size)

/-- `seq_rm` for one sequence, past its assertion. -/
def seqRmOne (c : KvCache) (s : ℕ) (p₀ p₁ : ℤ) : KvCache :=
  c.freeStream (p.seqToStream s) (seqRmBody s (rangeBegin p₀) (rangeEnd p₁))

/-- `seq_rm` with `seq_id = -1`. -/
def seqRmAll (c : KvCache) (p₀ p₁ : ℤ) : KvCache :=
  (List.range p.nStream).foldl
    (fun c strm => c.freeStream strm (rmBody (rangeBegin p₀) (rangeEnd p₁))) c

def seqRm (c : KvCache) (seqId : Option ℕ) (p₀ p₁ : ℤ) : Option KvCache :=
  match seqId with
  | none => some (c.seqRmAll p p₀ p₁)
  | some s => if s < p.seqToStreamSize then some (c.seqRmOne p s p₀ p₁) else none

def seqKeep (c : KvCache) (s : ℕ) : Option KvCache :=
  if s < p.seqToStreamSize then
    some (c.freeStream (p.seqToStream s) fun cells i => cells.seqKeep i s)
  else
    none

def seqAdd (c : KvCache) (s : ℕ) (p₀ p₁ shift : ℤ) : Option KvCache :=
  if s < p.seqToStreamSize ∧ p.nPosPerEmbd = 1 then
    if shift = 0 ∨ rangeBegin p₀ = rangeEnd p₁ then some c
    else
      let strm := p.seqToStream s
      let r := freeLoop (seqAddBody s (rangeBegin p₀) (rangeEnd p₁) shift) (c.vCells strm)
      -- unlike in the other loops the head is always moved
      some ((c.setCells strm r.1).setHead strm (if r.2 ≠ (c.vCells strm).size then r.2 else 0))
  else
    none

def seqDivBody (s : ℕ) (p₀ p₁ d : ℤ) (cells : KvCells) (i : ℕ) : KvCells :=
  if cells.posIn i p₀ p₁ && cells.seqHas i s then cells.posDiv i d else cells

def seqDiv (c : KvCache) (s : ℕ) (p₀ p₁ d : ℤ) : Option KvCache :=
  if s < p.seqToStreamSize ∧ p.nPosPerEmbd = 1 then
    if d = 1 ∨ rangeBegin p₀ = rangeEnd p₁ then some c
    else
      let strm := p.seqToStream s
      some (c.setCells strm ((List.range (c.vCells strm).size).foldl
        (seqDivBody s (rangeBegin p₀) (rangeEnd p₁) d) (c.vCells strm)))
  else
    none

def seqCpBody (src dst : ℕ) (p₀ p₁ : ℤ) (cells : KvCells) (i : ℕ) : KvCells :=
  if cells.posIn i p₀ p₁ && cells.seqHas i src then cells.seqAdd i dst else cells

/-- One cell of a copy between streams: the position is set without the pending shift,
which is then added again. -/
def seqCpCell (from_ : KvCells) (src dst : ℕ) (cells : KvCells) (i : ℕ) : KvCells :=
  if from_.seqHas i src then
    let shift := from_.shift i
    let pos := if shift ≠ 0 then from_.pos i - shift else from_.pos i
    let cells := (cells.posSet i pos).seqAdd i dst
    let cells := if shift ≠ 0 then (cells.posAdd i shift).1 else cells
    cells.extSet i (from_.ext i)
  else
    cells

def seqCp (c : KvCache) (src dst : ℕ) (p₀ p₁ : ℤ) : Option KvCache :=
  if src < p.seqToStreamSize ∧ dst < p.seqToStreamSize then
    let s0 := p.seqToStream src
    let s1 := p.seqToStream dst
    if s0 = s1 then
      if src = dst then some c
      else some (c.setCells s0 ((List.range (c.vCells s0).size).foldl
        (seqCpBody src dst (rangeBegin p₀) (rangeEnd p₁)) (c.vCells s0)))
    else if (p₀ > 0 ∧ p₀ + 1 < c.getSize p) ∨ (p₁ > 0 ∧ p₁ + 1 < c.getSize p) then
      none
    else
      let cells := (List.range (c.vCells s0).size).foldl
        (seqCpCell (c.vCells s0) src dst) (c.vCells s1).reset
      some { (c.setCells s1 cells).setHead s1 (c.vHeads s0) with
        scInfo := c.scInfo ++ [(s0, s1)] }
  else
    none

/-! ## Updates -/

/-- The row `s * size + i` of the K-shift input. -/
def setInputKShift (c : KvCache) (s i : ℕ) : ℤ :=
  if (c.vCells s).isEmpty i then 0 else (c.vCells s).shift i

/-- `init_update` followed by `update`; `graphOk` tells whether the K-shift graph could be
allocated and computed. -/
def update (c : KvCache) (graphOk : Bool) : Option KvCache :=
  let doShift := c.getHasShift p
  let c := { c with scInfo := [] }
  if doShift then
    if !p.getCanShift then none
    else if p.hasRope && !graphOk then some c
    else some { c with vCells := fun s => (c.vCells s).resetShift }
  else
    some c

end KvCache
end RocmFpx
