import Mathlib.Tactic

/-!
`llama_ubatch`. A pointer that may be null is an `Option`, `n_seq_id` is the length of
the entry of `seqId`, and the scalars of embedding rows are of an arbitrary type `E`.
-/

namespace RocmFpx

structure Ubatch (E : Type*) where
  bEqualSeqs : Bool
  nTokens : ℕ
  nSeqTokens : ℕ
  nSeqs : ℕ
  nSeqsUnq : ℕ
  nPos : ℕ
  token : Option (List ℤ)
  embd : Option (List E)
  embdState : Option (List E)
  pos : List ℤ
  seqId : List (List ℕ)
  seqIdUnq : List ℕ
  seqIdx : List ℤ
  output : List ℤ
  type : Option (List Bool)
  decisionOrder : Option (List ℤ)
  batchIdxs : List ℕ
  deriving DecidableEq

namespace Ubatch

variable {E : Type*}

/-- The ubatch a splitter returns when nothing is left. -/
def empty : Ubatch E where
  bEqualSeqs := false
  nTokens := 0
  nSeqTokens := 0
  nSeqs := 0
  nSeqsUnq := 0
  nPos := 0
  token := none
  embd := none
  embdState := none
  pos := []
  seqId := []
  seqIdUnq := []
  seqIdx := []
  output := []
  type := none
  decisionOrder := none
  batchIdxs := []

def isPos2d (ub : Ubatch E) : Bool := decide (ub.nPos ≥ 3)

def isMixed (ub : Ubatch E) : Bool := ub.type.isSome

def posAt (ub : Ubatch E) (i : ℕ) : ℤ := ub.pos.getD i 0

def seqIdAt (ub : Ubatch E) (i : ℕ) : List ℕ := ub.seqId.getD i []

/-- Row `i` holds an embedding rather than a token. -/
def isEmbd (ub : Ubatch E) (i : ℕ) : Bool :=
  ub.token.isNone || (ub.type.elim false fun type => type.getD i false)

end Ubatch
end RocmFpx
