import RocmFpx.Ubatch
import Mathlib.Data.Finset.Basic
import Mathlib.Data.Finset.Max

/-!
The recurrent memory: one cell holds the state of a whole sequence, `cells[s].tail` says which
cell has the state of sequence `s`, and `src` where the state of a cell is to be copied from.
The cell data of a sequence and the sequence's own `tail` share one table, as in the source.
-/

namespace RocmFpx

/-- A context has at least one sequence, and at most `LLAMA_MAX_SEQ`. -/
structure RecurrentParams where
  nSeqMax : ℕ
  nRsSeq : ℕ
  noLayers : Bool
  nSeqMax_pos : 0 < nSeqMax
  nSeqMax_le : nSeqMax ≤ 256

theorem RecurrentParams.two_le_max : 2 ≤ 256 := by decide

def RecurrentParams.size (p : RecurrentParams) : ℕ := max 1 p.nSeqMax

theorem RecurrentParams.size_eq (p : RecurrentParams) : p.size = p.nSeqMax :=
  max_eq_right p.nSeqMax_pos

structure MemCell where
  pos : ℤ
  src : ℤ
  src0 : ℤ
  tail : ℤ
  seqId : Finset ℕ

structure MemoryRecurrent (p : RecurrentParams) where
  head : ℕ
  used : ℕ
  n : ℕ
  rsZ : ℤ
  rsIdx : ℕ → ℕ
  cells : ℕ → MemCell

namespace MemoryRecurrent

variable {p : RecurrentParams} (m : MemoryRecurrent p)

def init (p : RecurrentParams) : MemoryRecurrent p where
  head := 0
  used := 0
  n := 0
  rsZ := -1
  rsIdx _ := 0
  cells _ := ⟨-1, -1, -1, -1, ∅⟩

/-- `numeric_limits<llama_pos>::max()`. -/
def posMax : ℤ := 2 ^ 31 - 1

/-- `used--` of a `uint32_t`. -/
def decr (used : ℕ) : ℕ := if used = 0 then 2 ^ 32 - 1 else used - 1

def modify (i : ℕ) (f : MemCell → MemCell) : MemoryRecurrent p :=
  { m with cells := Function.update m.cells i (f (m.cells i)) }

@[simp] theorem modify_cells (i : ℕ) (f : MemCell → MemCell) (j : ℕ) :
    (m.modify i f).cells j = if j = i then f (m.cells i) else m.cells j := by
  simp only [modify, Function.update_apply]

def setTail (q : ℕ) (tail : ℤ) : MemoryRecurrent p := m.modify q fun c => { c with tail := tail }

/-- `has_seq_id`; ids in a cell are never negative. -/
def hasSeqId (c : MemCell) (id : ℤ) : Prop := 0 ≤ id ∧ id.toNat ∈ c.seqId

instance (c : MemCell) (id : ℤ) : Decidable (hasSeqId c id) :=
  inferInstanceAs (Decidable (_ ∧ _))

def setRsIdx (seqId : ℤ) (idx : ℕ) : Option (MemoryRecurrent p) :=
  if seqId < 0 then some { m with rsIdx := fun _ => 0 }
  else if seqId < p.nSeqMax ∧ idx ≤ p.nRsSeq then
    some { m with rsIdx := Function.update m.rsIdx seqId.toNat idx }
  else none

def clear : MemoryRecurrent p :=
  { m with
    head := 0
    used := 0
    rsIdx := fun _ => 0
    cells := fun i => if i < p.size then
      { m.cells i with pos := -1, seqId := ∅, src := -1, tail := -1 } else m.cells i }

/-! ## Editing sequences -/

/-- One turn of the loop of `seq_rm`, with the first cell freed so far. -/
def rmCell (q : ℕ) (p0 p1 : ℤ) (r : MemoryRecurrent p × Option ℕ) (i : ℕ) :
    MemoryRecurrent p × Option ℕ :=
  let c := r.1.cells i
  if p0 ≤ c.pos ∧ c.pos < p1 ∧ q ∈ c.seqId then
    if c.seqId.erase q = ∅ then
      ({ r.1.modify i fun c => { c with seqId := ∅, pos := -1, src := -1 } with
        used := if 0 ≤ c.pos then decr r.1.used else r.1.used }, r.2.or (some i))
    else (r.1.modify i fun c => { c with seqId := c.seqId.erase q }, r.2)
  else r

/-- Search from the first freed cell, when it lies before the head. -/
def lowerHead (r : MemoryRecurrent p × Option ℕ) : MemoryRecurrent p :=
  match r.2 with
  | none => r.1
  | some newHead => if newHead < r.1.head then { r.1 with head := newHead } else r.1

/-- The body of `seq_rm` for an id in range, `p0` and `p1` not negative. A partial removal rolls
the sequence back by snapshots. -/
def rmSeq (q : ℕ) (p0 p1 : ℤ) : MemoryRecurrent p × Bool :=
  let m := if p0 = 0 ∧ p1 = posMax then
    { m with rsIdx := Function.update m.rsIdx q 0 } else m
  if p.size ≤ q then (m, false)
  else
    let tail := (m.cells q).tail
    let cell := m.cells tail.toNat
    if 0 ≤ tail ∧ 0 < p0 ∧ p0 ≤ cell.pos ∧ cell.pos < p1 then
      let back := m.modify tail.toNat fun c => { c with pos := p0 - 1 }
      if 1 < cell.seqId.card then (m, false)
      else if p.noLayers then (back, true)
      else if m.rsIdx q = 0 ∧ 1 ≤ cell.pos - (p0 - 1) ∧ cell.pos - (p0 - 1) ≤ p.nRsSeq then
        ({ back with rsIdx := Function.update m.rsIdx q (cell.pos - (p0 - 1)).toNat }, true)
      else (m, false)
    else
      let m := if 0 ≤ tail ∧ p0 ≤ cell.pos ∧ cell.pos < p1 then m.setTail q (-1) else m
      (lowerHead ((List.range p.size).foldl (rmCell q p0 p1) (m, none)), true)

/-- A negative id is a huge `uint32_t` and is refused with the others out of range. -/
def seqRm (seqId p0 p1 : ℤ) : MemoryRecurrent p × Bool :=
  if seqId < 0 ∨ (p.nSeqMax : ℤ) ≤ seqId then (m, false)
  else m.rmSeq seqId.toNat (if p0 < 0 then 0 else p0) (if p1 < 0 then posMax else p1)

/-- Take sequence `q` out of its cell. -/
def release (q : ℕ) : MemoryRecurrent p :=
  if 0 ≤ (m.cells q).tail then
    let t := (m.cells q).tail.toNat
    let m := (m.modify t fun c => { c with seqId := c.seqId.erase q }).setTail q (-1)
    if (m.cells t).seqId = ∅ then
      { m.modify t fun c => { c with pos := -1, src := -1 } with used := decr m.used }
    else m
  else m

/-- The range of positions plays no part. -/
def seqCp (src dst : ℤ) : MemoryRecurrent p :=
  if src = dst then m
  else if 0 ≤ dst ∧ dst < p.size ∧ 0 ≤ src ∧ src < p.size then
    let m := m.release dst.toNat
    let tail := (m.cells src.toNat).tail
    if 0 ≤ tail then
      (m.modify tail.toNat fun c => { c with seqId := insert dst.toNat c.seqId }).setTail
        dst.toNat tail
    else m
  else m

def keepCell (seqId : ℤ) (r : MemoryRecurrent p × Option ℕ) (i : ℕ) :
    MemoryRecurrent p × Option ℕ :=
  let m := if (i : ℤ) ≠ seqId then r.1.setTail i (-1) else r.1
  if hasSeqId (m.cells i) seqId then
    (m.modify i fun c => { c with seqId := {seqId.toNat} }, r.2)
  else
    ({ m.modify i fun c => { c with pos := -1, src := -1, seqId := ∅ } with
      used := if 0 ≤ (m.cells i).pos then decr m.used else m.used }, r.2.or (some i))

def seqKeep (seqId : ℤ) : MemoryRecurrent p :=
  lowerHead ((List.range p.size).foldl (keepCell seqId) (m, none))

/-! ## Placing a ubatch

Of a ubatch `find_slot` reads, for each sequence set, the ids of its first token and the position
of its last one. -/

/-- The first loop over one set: ids after the first one give up their cells. -/
def clearIds (m : MemoryRecurrent p) (first : Bool) : List ℤ → MemoryRecurrent p × Bool
  | [] => (m, true)
  | id :: ids =>
    if id < 0 ∨ (p.size : ℤ) ≤ id then (m, false)
    else clearIds (if first then m else m.release id.toNat) false ids

def clearShared (m : MemoryRecurrent p) : List (List ℤ) → MemoryRecurrent p × Bool
  | [] => (m, true)
  | ids :: sets =>
    let r := clearIds m true ids
    if r.2 then clearShared r.1 sets else r

def wrap (p : RecurrentParams) (i : ℕ) : ℕ := if p.size ≤ i then i - p.size else i

/-- The first empty cell from `i` on, round the end. -/
def seekFrom : ℕ → ℕ → ℕ
  | 0, i => i
  | fuel + 1, i =>
    if (m.cells (wrap p i)).seqId = ∅ then wrap p i else seekFrom fuel (wrap p i + 1)

/-- The first empty cell after `i`. -/
def seekAfter : ℕ → ℕ → ℕ
  | 0, i => i
  | fuel + 1, i =>
    if (m.cells (wrap p (i + 1))).seqId = ∅ then wrap p (i + 1)
    else seekAfter fuel (wrap p (i + 1))

def owns (q : ℕ) : Prop :=
  0 ≤ (m.cells q).tail ∧ (m.cells (m.cells q).tail.toNat).seqId.card = 1

instance (q : ℕ) : Decidable (m.owns q) := inferInstanceAs (Decidable (_ ∧ _))

/-- Give sequence `q` the empty cell `e`, with a copy of its old tail. -/
def claim (q e : ℕ) : Option (MemoryRecurrent p) :=
  if (m.cells e).seqId ≠ ∅ then none
  else if 0 ≤ (m.cells q).tail then
    let t := (m.cells q).tail.toNat
    let orig := m.cells t
    let m := m.modify e fun c => { c with pos := orig.pos, src := orig.src }
    let m := m.modify t fun c => { c with seqId := c.seqId.erase q }
    let m := m.modify e fun c => { c with seqId := insert q c.seqId }
    if (m.cells t).seqId = ∅ then none else some (m.setTail q e)
  else some (m.setTail q e)

/-- The second loop, over the first ids of the sets: `lo` and `hi` bound the cells in use. -/
def findCells (m : MemoryRecurrent p) (e : ℕ) (lo hi : ℤ) :
    List ℕ → Option (MemoryRecurrent p × ℤ × ℤ)
  | [] => some (m, lo, hi)
  | q :: qs =>
    if 0 ≤ (m.cells q).tail ∧ q ∉ (m.cells (m.cells q).tail.toNat).seqId then none
    else if m.owns q then
      findCells m e (min lo (m.cells q).tail) (max hi (m.cells q).tail) qs
    else
      (m.claim q e).bind fun m' =>
        findCells m' (if qs = [] then e else m'.seekAfter p.size e)
          (min lo (m'.cells q).tail) (max hi (m'.cells q).tail) qs

/-- Cells `a` and `b` change places, and all tails follow. -/
def swapCells (a b : ℕ) : MemoryRecurrent p :=
  { m with cells := fun i =>
      let c := m.cells (Equiv.swap a b i)
      { m.cells i with
        pos := c.pos
        src := c.src
        seqId := c.seqId
        tail := if (m.cells i).tail = b then a
          else if (m.cells i).tail = a then b else (m.cells i).tail } }

def gatherOne (lo : ℕ) (m : MemoryRecurrent p) (x : ℕ × ℕ) : MemoryRecurrent p :=
  if ((lo + x.2 : ℕ) : ℤ) ≠ (m.cells x.1).tail
  then m.swapCells (lo + x.2) (m.cells x.1).tail.toNat
  else m

/-- The third loop: the cells of the sets in order from `lo` on. -/
def gather (lo : ℕ) (qs : List ℕ) : MemoryRecurrent p := qs.zipIdx.foldl (gatherOne lo) m

def updateOne (lo : ℕ) (m : MemoryRecurrent p) (x : (List ℕ × ℤ) × ℕ) : MemoryRecurrent p :=
  x.1.1.foldl (fun m q => (m.modify (lo + x.2) fun c => { c with seqId := insert q c.seqId }).setTail
      q ((lo + x.2 : ℕ) : ℤ))
    (m.modify (lo + x.2) fun c => { c with pos := x.1.2, seqId := ∅ })

def updatePos (lo : ℕ) (sets : List (List ℕ × ℤ)) : MemoryRecurrent p :=
  sets.zipIdx.foldl (updateOne lo) m

def refcount (i : ℕ) : ℕ := (List.range p.size).countP fun j => (m.cells j).src = i

/-- The first cell in range that no cell is copied from; it is zeroed. -/
def zeroCell (lo hi : ℕ) : ℤ :=
  ((List.range' lo (hi + 1 - lo)).find? fun i => m.refcount i = 0).elim (-1) fun i => i

/-- Stage the sources of the cells in range. -/
def stage (lo hi : ℕ) : Option (MemoryRecurrent p) :=
  if m.zeroCell lo hi < 0 ∧ (List.range' lo (hi + 1 - lo)).any fun i => (m.cells i).src < 0
  then none
  else some { m with
    rsZ := m.zeroCell lo hi
    cells := fun i => if lo ≤ i ∧ i ≤ hi then
      { m.cells i with
        src0 := if (m.cells i).src < 0 then m.zeroCell lo hi else (m.cells i).src
        src := i }
      else m.cells i }

/-- The cells that are not empty. -/
def occupied : Finset ℕ := (Finset.range p.size).filter fun i => (m.cells i).seqId.Nonempty

/-- `find_slot`; `none` stands for a failed assertion. -/
def findSlot (equalSeqs : Bool) (sets : List (List ℤ × ℤ)) : Option (MemoryRecurrent p × Bool) :=
  let m := if (m.used + 2 * sets.length) % 2 ^ 32 < m.head then { m with head := 0 } else m
  if equalSeqs then
    let r := m.clearShared (sets.map Prod.fst)
    if r.2 then
      let sets := sets.map fun x => (x.1.map Int.toNat, x.2)
      let qs := sets.map fun x => x.1.headD 0
      (r.1.findCells (r.1.seekFrom p.size r.1.head) (p.size - 1) 0 qs).bind fun (m, lo, hi) =>
        (((m.gather lo.toNat qs).updatePos lo.toNat sets).stage lo.toNat hi.toNat).map fun m =>
          ({ m with
            head := lo.toNat
            n := (hi - lo + 1).toNat
            used := m.occupied.card }, decide ((sets.length : ℤ) ≤ hi - lo + 1))
    else some r
  else none

/-- The sequence sets of a ubatch. -/
def ubatchSets {E : Type*} (ub : Ubatch E) : List (List ℤ × ℤ) :=
  (List.range ub.nSeqs).map fun s =>
    ((ub.seqIdAt (s * ub.nSeqTokens)).map fun q : ℕ => (q : ℤ),
      ub.posAt (s * ub.nSeqTokens + ub.nSeqTokens - 1))

/-! ## Restoring -/

/-- The rest of a stream: the 4-byte words of the metadata that can still be read, and how the
tensor data after them turns out, `none` where its reader throws. -/
structure RestoreStream where
  words : List (BitVec 32)
  data : Option Bool

/-- How a reading loop ends: with what is left of the words, by `return false`, or by an
exception of the reader. -/
inductive Reading (p : RecurrentParams) where
  | done (m : MemoryRecurrent p) (words : List (BitVec 32))
  | failed (m : MemoryRecurrent p)
  | threw (m : MemoryRecurrent p)

def readSeqIds (i : ℕ) : ℕ → MemoryRecurrent p → List (BitVec 32) → Reading p
  | 0, m, words => .done m words
  | _ + 1, m, [] => .threw m
  | k + 1, m, w :: words =>
    if w.toInt < 0 ∨ (p.nSeqMax : ℤ) ≤ w.toInt then .failed m
    else
      let q := w.toInt.toNat
      let m := m.modify i fun c => { c with seqId := insert q c.seqId }
      if (m.cells q).tail ≠ -1 then .failed m
      else readSeqIds i k (m.setTail q i) words

/-- Cells `i`, `i + 1`, .. of a whole cache. -/
def readCells : ℕ → ℕ → MemoryRecurrent p → List (BitVec 32) → Reading p
  | 0, _, m, words => .done m words
  | k + 1, i, m, pos :: nSeqId :: words =>
    match readSeqIds i nSeqId.toNat (m.modify i fun c => { c with pos := pos.toInt }) words with
    | .done m words => readCells k (i + 1) m words
    | .failed m => .failed m
    | .threw m => .threw m
  | _ + 1, _, m, _ => .threw m

/-- The positions of one sequence; `none` for an exception, `some none` for a cell with ids. -/
def readPositions : ℕ → List (BitVec 32) → Option (Option (List ℤ))
  | 0, _ => some (some [])
  | k + 1, pos :: nSeqId :: words =>
    if nSeqId ≠ 0 then some none
    else (readPositions k words).map fun r => r.map fun ps => pos.toInt :: ps
  | _ + 1, _ => none

/-- The outcome of `state_read_meta`. -/
inductive MetaRead (p : RecurrentParams) where
  | returned (m : MemoryRecurrent p) (ok : Bool)
  | threw (m : MemoryRecurrent p)
  | aborted

def keepSources (count : ℕ) : MemoryRecurrent p :=
  { m with cells := fun i => if m.head ≤ i ∧ i < m.head + count then { m.cells i with src := i }
    else m.cells i }

/-- The checks on the block of a restored sequence. -/
def blockHolds (dest : ℤ) (ps : List ℤ) : Bool :=
  let last := m.head + ps.length - 1
  decide (m.head + ps.length ≤ p.size ∧ (m.cells m.head).pos = ps.headD 0 ∧
    (m.cells last).pos = ps.getLastD 0 ∧ hasSeqId (m.cells m.head) dest ∧
    hasSeqId (m.cells last) dest)

def stateReadMeta (words : List (BitVec 32)) (cellCount : ℕ) (dest : ℤ) : MetaRead p :=
  if dest ≠ -1 then
    if p.size < cellCount then .returned m false
    else
      let m := (m.seqRm dest (-1) (-1)).1
      if cellCount = 0 then .returned m true
      else match readPositions cellCount words with
        | none => .threw m
        | some none => .returned m false
        | some (some ps) =>
          match m.findSlot true [([dest], ps.getLastD 0)] with
          | none => .aborted
          | some (m, false) => .returned m false
          | some (m, true) =>
            if m.blockHolds dest ps then .returned (m.keepSources cellCount) true else .aborted
  else if p.size < cellCount then .returned m false
  else match readCells cellCount 0 m.clear words with
    | .done m _ => .returned ({ m with head := 0, used := cellCount }.keepSources cellCount) true
    | .failed m => .returned m false
    | .threw m => .threw m

/-- The tensor data are cleared too, but not modelled. -/
def stateClear (seqId : ℤ) : MemoryRecurrent p :=
  if seqId = -1 then m.clear else (m.seqRm seqId (-1) (-1)).1

/-- `state_read`; the flag is false when it ends in an exception. -/
def stateRead (io : RestoreStream) (seqId : ℤ) : Option (MemoryRecurrent p × Bool) :=
  match io.words with
  | [] => some (m, false)
  | count :: words =>
    match m.stateReadMeta words count.toNat seqId with
    | .aborted => none
    | .threw m => some (m, false)
    | .returned m ok =>
      if ok ∧ io.data = some true then
        if p.nRsSeq ≠ 0 then (m.setRsIdx seqId 0).map fun m => (m, true) else some (m, true)
      else some (m.stateClear seqId, false)

end MemoryRecurrent
end RocmFpx
