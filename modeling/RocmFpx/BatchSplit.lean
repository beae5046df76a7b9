import RocmFpx.Batch
import RocmFpx.Ubatch

/-!
The three splitters of `llama_batch_allocr`. The bitmap `used` is the `Finset` of its set
bits. `none` is a failing assertion.
-/

namespace RocmFpx

/-- `used` and `n_used`. -/
structure Marks where
  used : Finset ℕ
  nUsed : ℕ

def Marks.set (m : Marks) (i : ℕ) : Marks := ⟨insert i m.used, m.nUsed + 1⟩

def Marks.unset (m : Marks) (i : ℕ) : Marks := ⟨m.used.erase i, m.nUsed - 1⟩

structure SplitState where
  marks : Marks
  outIds : List ℕ

inductive SplitCall
  | simple (nUbatch : ℕ)
  | equal (nUbatch : ℕ) (sequential : Bool) (nKeepTail : ℕ)
  | seq (nUbatch : ℕ)

namespace BatchAllocr

variable {E : Type*} (b : BatchAllocr E)

def seqSetAt (i : ℕ) : Finset ℕ := b.seqSet.getD i ∅

def seqIdAt (i : ℕ) : List ℕ := b.seqId.getD i []

/-- The indices with the given sequence set, in batch order. -/
def seqSetMap (cur : Finset ℕ) : List ℕ :=
  (List.range b.nTokens).filter fun i => decide (b.seqSetAt i = cur)

def isOutput (i : ℕ) : Bool := decide (b.logits.getD i 0 ≠ 0)

/-! ## Making an ubatch -/

def rowOf (data : List E) (width i : ℕ) : List E := FlatRows.rowAt data (i * width) width

def ubatchAdd (idxs : List ℕ) (nSeqs : ℕ) (equalSeqs : Bool) : Ubatch E :=
  let nTokens := idxs.length
  let mixedBatch := !b.isEmbdVec.isEmpty
  let nEmbdRows := if mixedBatch then idxs.countP fun i => b.isEmbdVec.getD i false else 0
  let mixed := mixedBatch && decide (nEmbdRows > 0) && decide (nEmbdRows < nTokens)
  let useToken := b.token.isSome && !(mixedBatch && decide (nEmbdRows = nTokens))
  let useEmbd := b.embd.isSome && !(mixedBatch && decide (nEmbdRows = 0))
  let seqSetUnq := idxs.flatMap b.seqIdAt
  let seqIdUnq := (List.range b.nSeqMax).filter fun s => decide (s ∈ seqSetUnq)
  { bEqualSeqs := equalSeqs
    nTokens := nTokens
    nSeqTokens := nTokens / nSeqs
    nSeqs := nSeqs
    nSeqsUnq := seqIdUnq.length
    nPos := b.nPosPerEmbd
    token := if useToken then some (idxs.map fun i => (b.token.getD []).getD i 0) else none
    embd := if useEmbd then some (idxs.flatMap (rowOf (b.embd.getD []) b.nEmbd)) else none
    embdState :=
      if b.stateVec.isEmpty then none else some (idxs.flatMap (rowOf b.stateVec b.nEmbdState))
    pos := (List.range b.nPosPerEmbd).flatMap fun j =>
      idxs.map fun i => b.pos.getD (j * b.nTokens + i) 0
    seqId := idxs.map b.seqIdAt
    seqIdUnq := seqIdUnq
    seqIdx := (List.range llamaMaxSeq).map fun s =>
      if s ∈ seqIdUnq then (seqIdUnq.idxOf s : ℤ) else -1
    output := idxs.map fun i => b.logits.getD i 0
    type := if mixed then some (idxs.map fun i => b.isEmbdVec.getD i false) else none
    decisionOrder :=
      if b.decisionOrder.isEmpty then none else some (idxs.map fun i => b.decisionOrder.getD i 0)
    batchIdxs := idxs }

/-- `ubatch_add` together with its effect on `out_ids`. -/
def emit (marks : Marks) (outIds idxs : List ℕ) (nSeqs : ℕ) (equalSeqs : Bool) :
    SplitState × Ubatch E :=
  (⟨marks, outIds ++ idxs.filter b.isOutput⟩, b.ubatchAdd idxs nSeqs equalSeqs)

def splitReset : SplitState := ⟨⟨∅, 0⟩, []⟩

def firstUnused (used : Finset ℕ) : Option ℕ :=
  (List.range b.nTokens).find? fun i => decide (i ∉ used)

/-! ## Simple splits -/

/-- The indices the loop takes: one in any case, then up to `n_ubatch` or the end of the
batch, used ones among them or not. -/
def simpleIdxs (cur nUbatch : ℕ) : List ℕ := List.range' cur (min (max nUbatch 1) (b.nTokens - cur))

def splitSimple (st : SplitState) (nUbatch : ℕ) : SplitState × Ubatch E :=
  match b.firstUnused st.marks.used with
  | none => (st, Ubatch.empty)
  | some cur =>
    let idxs := b.simpleIdxs cur nUbatch
    b.emit (idxs.foldl Marks.set st.marks) st.outIds idxs idxs.length false

/-! ## Splits by sequence -/

/-- The indices are tried in order; one is taken if it is unused and its sequence set is a
subset of the last one's. -/
def seqTake (nUbatch : ℕ) : List ℕ → Finset ℕ → Marks → List ℕ → Marks × List ℕ
  | [], _, m, idxs => (m, idxs)
  | i :: is, cur, m, idxs =>
    if i ∈ m.used ∨ cur ∩ b.seqSetAt i ≠ b.seqSetAt i then seqTake nUbatch is cur m idxs
    else if (idxs ++ [i]).length ≥ nUbatch then (m.set i, idxs ++ [i])
    else seqTake nUbatch is (b.seqSetAt i) (m.set i) (idxs ++ [i])

def splitSeq (st : SplitState) (nUbatch : ℕ) : SplitState × Ubatch E :=
  match b.firstUnused st.marks.used with
  | none => (st, Ubatch.empty)
  | some cur =>
    let r := b.seqTake nUbatch (List.range' cur (b.nTokens - cur)) (b.seqSetAt cur) st.marks []
    b.emit r.1 st.outIds r.2 1 true

/-! ## Equal splits -/

/-- The non-overlapping sequence sets of the ubatch; `last` is the first sequence id of
the last set. The loop breaks as soon as there are more than `nUbatch` sets. -/
def pickSets (used : Finset ℕ) (nUbatch : ℕ) (sequential : Bool) :
    List ℕ → List (Finset ℕ) → ℤ → List (Finset ℕ)
  | [], sets, _ => sets
  | i :: is, sets, last =>
    let first : ℤ := (b.seqIdAt i).headD 0
    if i ∈ used then pickSets used nUbatch sequential is sets last
    else if sets.all (fun set => decide (set ∩ b.seqSetAt i = ∅)) ∧
        (sequential = true → sets = [] ∨ first = last + 1) then
      if (sets ++ [b.seqSetAt i]).length > nUbatch then sets ++ [b.seqSetAt i]
      else pickSets used nUbatch sequential is (sets ++ [b.seqSetAt i]) first
    else pickSets used nUbatch sequential is sets last

/-- A sequence set in the making: the indices taken from its list, and those from
`cur_idx` on. -/
structure SetCursor where
  set : Finset ℕ
  idxs : List ℕ
  rest : List ℕ

structure EqualState where
  marks : Marks
  cursors : List SetCursor

def startCursor (used : Finset ℕ) (set : Finset ℕ) : SetCursor :=
  ⟨set, [], (b.seqSetMap set).dropWhile fun i => decide (i ∈ used)⟩

/-- One more token of every set. -/
def advanceAll (m : Marks) : List SetCursor → EqualState
  | [] => ⟨m, []⟩
  | c :: cs =>
    match c.rest with
    | [] =>
      let r := advanceAll m cs
      ⟨r.marks, c :: r.cursors⟩
    | i :: rest =>
      let r := advanceAll (m.set i) cs
      ⟨r.marks, ⟨c.set, c.idxs ++ [i], rest⟩ :: r.cursors⟩

/-- The expanding loop; `fuel` bounds its iterations. -/
def expand (nUbatch : ℕ) : ℕ → EqualState → Option EqualState
  | 0, _ => none
  | fuel + 1, st =>
    if st.cursors.any fun c => c.rest.isEmpty then some st
    else
      let st := advanceAll st.marks st.cursors
      let taken := (st.cursors.head?.map fun c => c.idxs.length).getD 0
      if (taken + 1) * st.cursors.length > nUbatch then some st else expand nUbatch fuel st

/-- The set either finishes or keeps at least `nKeepTail` tokens. -/
def tailOk (nKeepTail : ℕ) (c : SetCursor) : Bool :=
  decide (c.rest.length = 0) || decide (c.rest.length ≥ nKeepTail)

def finishSet (m : Marks) (c : SetCursor) : Marks × SetCursor :=
  (c.rest.foldl Marks.set m, ⟨c.set, c.idxs ++ c.rest, []⟩)

def popBack (r : Marks × SetCursor) : Marks × SetCursor :=
  match r.2.idxs.getLast? with
  | none => r
  | some i => (r.1.unset i, ⟨r.2.set, r.2.idxs.dropLast, i :: r.2.rest⟩)

/-- Complete the first set if it fits, else shorten it until `nKeepTail` tokens remain;
every iteration leaves one token more. -/
def resolveFirst (nUbatch nKeepTail : ℕ) (m : Marks) (c : SetCursor) : Marks × SetCursor :=
  if c.idxs.length + c.rest.length ≤ nUbatch then finishSet m c
  else popBack^[nKeepTail - c.rest.length] (m, c)

def returnAll (m : Marks) (cs : List SetCursor) : Marks :=
  cs.foldl (fun m c => c.idxs.foldl Marks.unset m) m

/-- Only the sets at the front that respect the tail stay, at least one. -/
def keepTail (nUbatch nKeepTail : ℕ) (st : EqualState) : EqualState :=
  match st.cursors with
  | [] => st
  | c :: cs =>
    let nKeep := ((c :: cs).takeWhile (tailOk nKeepTail)).length
    if nKeep = 0 then
      let r := resolveFirst nUbatch nKeepTail st.marks c
      ⟨returnAll r.1 cs, [r.2]⟩
    else
      ⟨returnAll st.marks ((c :: cs).drop nKeep), (c :: cs).take nKeep⟩

def splitEqual (st : SplitState) (nUbatch : ℕ) (sequential : Bool) (nKeepTail : ℕ) :
    Option (SplitState × Ubatch E) :=
  if sequential && b.hasCpl then some (st, Ubatch.empty)
  else
    let sets := b.pickSets st.marks.used nUbatch sequential (List.range b.nTokens) [] (-1)
    if sets = [] then some (st, Ubatch.empty)
    else
      (expand nUbatch (b.nTokens + 1) ⟨st.marks, sets.map (b.startCursor st.marks.used)⟩).bind
        fun eq =>
          if nKeepTail > 0 then
            if nUbatch > nKeepTail then
              let eq := keepTail nUbatch nKeepTail eq
              some (b.emit eq.marks st.outIds (eq.cursors.flatMap SetCursor.idxs)
                eq.cursors.length true)
            else none
          else
            some (b.emit eq.marks st.outIds (eq.cursors.flatMap SetCursor.idxs)
              eq.cursors.length true)

def split (st : SplitState) : SplitCall → Option (SplitState × Ubatch E)
  | .simple nUbatch => some (b.splitSimple st nUbatch)
  | .equal nUbatch sequential nKeepTail => b.splitEqual st nUbatch sequential nKeepTail
  | .seq nUbatch => some (b.splitSeq st nUbatch)

end BatchAllocr
end RocmFpx
