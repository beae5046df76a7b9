import RocmFpx.FlatRows
import RocmFpx.KvCells

/-!
`llama_batch_ext` and what `llama_batch_allocr::init` makes of it. `unordered_set` of
sequence ids is a list without repetitions in the order it is iterated, the memory module
is seen through its `seq_pos_min` and `seq_pos_max`, and the scalars of embedding rows are
of an arbitrary type `E`. A rejected batch is `none`.
-/

namespace RocmFpx

structure BatchToken where
  id : ℤ := llamaTokenNull
  hasEmbd : Bool := false
  embdOff : ℕ := 0
  hasState : Bool := false
  stateOff : ℕ := 0
  output : Bool := false
  decisionOrder : ℤ := 0
  seqIds : List ℕ
  pos : ℕ → ℤ := fun _ => 0
  seqIds_ne : seqIds ≠ []
  seqIds_nodup : seqIds.Nodup

structure MemoryPos where
  seqPosMin : ℕ → ℤ
  seqPosMax : ℕ → ℤ

/-- `set_token_embd` appends one row for each entry it is called on, and points the entry
to it. -/
structure BatchExt (E : Type*) where
  nEmbdInp : ℕ
  nEmbdState : ℕ
  nSeqMax : ℕ
  mem : Option MemoryPos
  nVocab : ℤ
  nEmbd : ℕ
  tokens : List BatchToken
  embd : List E
  state : List E
  embd_length : embd.length =
    tokens.countP BatchToken.hasEmbd * (if nEmbd > 0 then nEmbd else nEmbdInp)
  embd_fits : ∀ t ∈ tokens, t.hasEmbd = true →
    t.embdOff + (if nEmbd > 0 then nEmbd else nEmbdInp) ≤ embd.length

/-- `batch` and the other members that splitting reads. -/
structure BatchAllocr (E : Type*) where
  nPosPerEmbd : ℕ
  nSeqMax : ℕ
  nEmbd : ℕ
  nEmbdState : ℕ
  nTokens : ℕ
  token : Option (List ℤ)
  embd : Option (List E)
  pos : List ℤ
  seqId : List (List ℕ)
  logits : List ℤ
  isEmbdVec : List Bool
  stateVec : List E
  decisionOrder : List ℤ
  nOutputs : ℕ
  hasCpl : Bool
  seqSet : List (Finset ℕ)

def BatchToken.isTok (t : BatchToken) : Bool := decide (t.id ≠ llamaTokenNull)

/-- Section `j` of the positions of an entry; `[p]` is expanded to `[p, p, p, 0]`. -/
def BatchToken.posAt (t : BatchToken) (j : ℕ) : ℤ :=
  if t.isTok then (if j < 3 then t.pos 0 else 0) else t.pos j

namespace BatchExt

open FlatRows

variable {E : Type*} (inp : BatchExt E)

def rowWidth : ℕ := if inp.nEmbd > 0 then inp.nEmbd else inp.nEmbdInp

def nTok : ℕ := inp.tokens.length

def nTokOnly : ℕ := inp.tokens.countP fun t => t.isTok && !t.hasEmbd

def nEmbdOnly : ℕ := inp.tokens.countP fun t => t.hasEmbd && !t.isTok

def nBoth : ℕ := inp.tokens.countP fun t => t.isTok && t.hasEmbd

def mixed : Bool := decide (inp.nTokOnly > 0) && decide (inp.nEmbdOnly > 0)

def hasToken : Bool := decide (inp.nTokOnly > 0) || decide (inp.nBoth > 0)

def hasEmbd : Bool := decide (inp.nEmbdOnly > 0) || decide (inp.nBoth > 0)

def hasState : Bool := inp.tokens.head?.elim false BatchToken.hasState

/-- The kinds of entries fit together. -/
def contentOk (allowMixed : Bool) : Bool :=
  inp.tokens.all (fun t => (t.isTok || t.hasEmbd) && decide (t.hasState = inp.hasState)) &&
    (decide (inp.nBoth = 0) || decide (inp.nBoth = inp.nTok)) && (!inp.mixed || allowMixed)

/-- The ids that are copied are in the vocabulary. -/
def tokensOk : Bool :=
  !inp.hasToken || inp.tokens.all fun t =>
    (inp.mixed && t.hasEmbd) || (decide (0 ≤ t.id) && decide (t.id < inp.nVocab))

def seqIdsOk : Bool := inp.tokens.all fun t => t.seqIds.all fun s => decide (s < inp.nSeqMax)

def isEmbdVec : List Bool := if inp.mixed then inp.tokens.map BatchToken.hasEmbd else []

def tokenVec : List ℤ := inp.tokens.map fun t => if inp.mixed && t.hasEmbd then 0 else t.id

def embdVec [Zero E] : List E :=
  if inp.mixed then
    inp.tokens.flatMap fun t =>
      if t.hasEmbd then rowAt inp.embd t.embdOff inp.rowWidth else List.replicate inp.rowWidth 0
  else if inp.hasEmbd then inp.embd
  else []

def posVec (nPosPerEmbd : ℕ) : List ℤ :=
  (List.range nPosPerEmbd).flatMap fun j => inp.tokens.map fun t => t.posAt j

def outputVec (outputAll : Bool) : List ℤ :=
  inp.tokens.map fun t => if t.output || outputAll then 1 else 0

/-- Kept empty if no entry has one. -/
def decisionOrderVec : List ℤ :=
  if inp.tokens.all fun t => decide (t.decisionOrder = 0) then []
  else inp.tokens.map BatchToken.decisionOrder

/-! ## Consistency checks -/

/-- The tokens of sequence `s`. -/
def tokensOf (s : ℕ) : List BatchToken := inp.tokens.filter fun t => decide (s ∈ t.seqIds)

/-- `seq_pos[s]`, by section 0 of the positions. -/
def seqPos (s : ℕ) : Finset ℤ := ((inp.tokensOf s).map fun t => t.posAt 0).toFinset

def seqPosMin (s : ℕ) : ℤ := if h : (inp.seqPos s).Nonempty then (inp.seqPos s).min' h else -1

def seqPosMax (s : ℕ) : ℤ := if h : (inp.seqPos s).Nonempty then (inp.seqPos s).max' h else -1

def memPosMin (s : ℕ) : ℤ := inp.mem.elim (-1) fun mem => mem.seqPosMin s

def memPosMax (s : ℕ) : ℤ := inp.mem.elim (-1) fun mem => mem.seqPosMax s

/-- In a mixed batch the first entry of each sequence picks the rule. -/
def seqFirstEmbd (s : ℕ) : Bool :=
  if inp.mixed then ((inp.tokensOf s).head?.map BatchToken.hasEmbd).getD (!inp.hasToken)
  else !inp.hasToken

def posOk (nPosPerEmbd s : ℕ) : Bool :=
  if inp.seqPos s = ∅ then true
  else if nPosPerEmbd > 1 then
    if !inp.seqFirstEmbd s then
      !(decide (inp.memPosMax s ≥ 0) && decide (inp.memPosMax s ≥ inp.seqPosMin s))
    else
      !(decide (inp.memPosMax s ≥ 0) && decide (inp.memPosMax s > inp.seqPosMin s))
  else
    (decide (inp.memPosMax s < 0) || decide (inp.seqPosMin s = inp.memPosMax s + 1)) &&
      decide (inp.seqPosMax s - inp.seqPosMin s + 1 ≤ (inp.seqPos s).card)

/-- `seq_cpl[s1][s0]`. -/
def seqCpl (s1 s0 : ℕ) : Bool :=
  inp.tokens.any fun t => decide (t.seqIds.head? = some s0) && decide (s1 ∈ t.seqIds.tail)

def hasCpl : Bool := inp.tokens.any fun t => decide (t.seqIds.length > 1)

def coupledOk : Bool :=
  inp.mem.isNone || (List.range inp.nSeqMax).all fun s0 => (List.range inp.nSeqMax).all fun s1 =>
    !inp.seqCpl s0 s1 ||
      (decide (inp.memPosMin s0 = inp.memPosMin s1) && decide (inp.memPosMax s0 = inp.memPosMax s1))

/-- `cur_seq_set` and `cur_seq_pos`, the former with `none` for all bits set. -/
structure SubsetCheck where
  curSeqSet : ℕ → Option (Finset ℕ)
  curSeqPos : ℕ → ℤ

def checkSeq (t : BatchToken) (st : SubsetCheck) (s : ℕ) : Option SubsetCheck :=
  let cur := (st.curSeqSet s).elim t.seqIds.toFinset fun cur => cur ∩ t.seqIds.toFinset
  if cur = ∅ then none
  else if t.posAt 0 < st.curSeqPos s then none
  else some ⟨Function.update st.curSeqSet s (some cur), Function.update st.curSeqPos s (t.posAt 0)⟩

def checkSubsets : Option SubsetCheck :=
  inp.tokens.foldlM (fun st t => t.seqIds.foldlM (checkSeq t) st) ⟨fun _ => none, fun _ => -1⟩

def accepts (nPosPerEmbd : ℕ) (allowMixed : Bool) : Bool :=
  decide (inp.tokens ≠ []) && decide (inp.nSeqMax ≤ llamaMaxSeq) && inp.contentOk allowMixed &&
    inp.tokensOk && inp.seqIdsOk && (List.range inp.nSeqMax).all (inp.posOk nPosPerEmbd) &&
    inp.coupledOk && inp.checkSubsets.isSome

end BatchExt

namespace BatchAllocr

variable {E : Type*} [Zero E]

def init (nPosPerEmbd : ℕ) (allowMixed : Bool) (inp : BatchExt E) (outputAll : Bool) :
    Option (BatchAllocr E) :=
  if inp.accepts nPosPerEmbd allowMixed then
    some {
      nPosPerEmbd := nPosPerEmbd
      nSeqMax := inp.nSeqMax
      nEmbd := inp.rowWidth
      nEmbdState := inp.nEmbdState
      nTokens := inp.nTok
      token := if inp.hasToken then some inp.tokenVec else none
      embd := if inp.hasEmbd then some inp.embdVec else none
      pos := inp.posVec nPosPerEmbd
      seqId := inp.tokens.map BatchToken.seqIds
      logits := inp.outputVec outputAll
      isEmbdVec := inp.isEmbdVec
      stateVec := if inp.hasState then inp.state else []
      decisionOrder := inp.decisionOrderVec
      nOutputs := (inp.outputVec outputAll).countP fun x => decide (x ≠ 0)
      hasCpl := inp.hasCpl
      seqSet := inp.tokens.map fun t => t.seqIds.toFinset }
  else
    none

end BatchAllocr
end RocmFpx
