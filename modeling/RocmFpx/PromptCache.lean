import Mathlib.Data.List.ModifyLast
import RocmFpx.Fallible
import RocmFpx.ServerTokensPrefix

/-!
The cache of prompts of the server: prompts with the saved states of the target and the draft
context, the oldest first.
-/

namespace RocmFpx

structure PromptCheckpoint where
  dataTgt : List UInt8
  dataDft : List UInt8
  dataSpec : List UInt8
  deriving DecidableEq

namespace PromptCheckpoint

def size (ckpt : PromptCheckpoint) : ℕ :=
  ckpt.dataTgt.length + ckpt.dataDft.length + ckpt.dataSpec.length

end PromptCheckpoint

structure ServerPrompt (C : Type) where
  tokens : ServerTokens C
  checkpoints : List PromptCheckpoint

namespace ServerPrompt

variable {C : Type}

def nTokens (prompt : ServerPrompt C) : ℕ := prompt.tokens.tokens.length

def checkpointsSize (prompt : ServerPrompt C) : ℕ :=
  (prompt.checkpoints.map PromptCheckpoint.size).sum

def clone (api : Mtmd C) (prompt : ServerPrompt C) : ServerPrompt C where
  tokens := prompt.tokens.clone api
  checkpoints := prompt.checkpoints

end ServerPrompt

structure PromptData where
  main : List UInt8
  drft : List UInt8
  deriving DecidableEq

structure PromptCacheState (C : Type) where
  prompt : ServerPrompt C
  data : PromptData

namespace PromptCacheState

variable {C : Type}

def size (state : PromptCacheState C) : ℕ :=
  state.data.main.length + state.data.drft.length + state.prompt.checkpointsSize

end PromptCacheState

structure PromptCache (C : Type) where
  states : List (PromptCacheState C) := []
  limitSize : ℕ
  limitTokens : ℕ

/-- The floating-point arithmetic of the cache. -/
structure FloatOps (F : Type) where
  /-- `float(a) / b` -/
  ratio : ℕ → ℕ → F
  lt : F → F → Bool
  minusOne : F
  quarter : F
  /-- `0.4 * size` as a size -/
  fourTenths : ℕ → ℕ
  /-- the limit over the average size of a token, from the limit, the size and the tokens -/
  tokensInLimit : ℕ → ℕ → ℕ → ℕ

/-- A slot with what was last restored into its contexts. -/
structure PromptSlot (C : Type) where
  prompt : ServerPrompt C
  tgt : Option (List UInt8)
  dft : Option (List UInt8)

/-- How many bytes each context takes of the data it is given. -/
structure Restore where
  tgt : List UInt8 → ℕ
  dft : List UInt8 → ℕ

namespace PromptCache

variable {C F : Type} (api : Mtmd C) (ops : FloatOps F)

def ofLimits (limitSizeMib : ℤ) (limitTokens : ℕ) : PromptCache C where
  limitSize := 1024 * 1024 * limitSizeMib.toNat
  limitTokens := limitTokens

def sizeOf (states : List (PromptCacheState C)) : ℕ := (states.map PromptCacheState.size).sum

def nTokensOf (states : List (PromptCacheState C)) : ℕ :=
  (states.map fun state => state.prompt.nTokens).sum

def size (cache : PromptCache C) : ℕ := sizeOf cache.states

/-- `while (!states.empty() && full) pop_front` -/
def popWhile (full : List (PromptCacheState C) → Bool) :
    List (PromptCacheState C) → List (PromptCacheState C)
  | [] => []
  | state :: states => if full (state :: states) then popWhile full states else state :: states

/-- The limit of tokens, raised where that many fit in the limit of bytes. -/
def limitTokensCur (limitSize limitTokens : ℕ) (states : List (PromptCacheState C)) : ℕ :=
  if 0 < limitSize then
    max limitTokens (ops.tokensInLimit limitSize (sizeOf states) (nTokensOf states))
  else limitTokens

def update (cache : PromptCache C) : PromptCache C :=
  let states :=
    if 0 < cache.limitSize then popWhile (fun st => cache.limitSize < sizeOf st) cache.states
    else cache.states
  let limit := limitTokensCur ops cache.limitSize cache.limitTokens states
  { cache with
    states :=
      if 0 < cache.limitTokens then popWhile (fun st => limit < nTokensOf st) states else states }

/-- Is the prompt contained fully in a cached one? -/
def isCovered (tokens : ServerTokens C) : List (PromptCacheState C) → Except ServerTokensError Bool
  | [] => pure false
  | it :: its => do
    let curLcpLen ← ServerTokens.getCommonPrefix api it.prompt.tokens tokens
    if curLcpLen = tokens.tokens.length then pure true else isCovered tokens its

def removeObsolete (tokens : ServerTokens C) :
    List (PromptCacheState C) → Except ServerTokensError (List (PromptCacheState C))
  | [] => pure []
  | it :: its => do
    let len ← ServerTokens.getCommonPrefix api it.prompt.tokens tokens
    let rest ← removeObsolete tokens its
    pure (if len = it.prompt.nTokens then rest else it :: rest)

/-- `allocates` says whether the two buffers can be allocated. The result says whether an entry
was made; it is the last one then. -/
def alloc (prompt : ServerPrompt C) (stateSizeTgt stateSizeDft : ℕ) (allocates : Bool)
    (cache : PromptCache C) : Except ServerTokensError (PromptCache C × Bool) := do
  let covered ← isCovered api prompt.tokens cache.states
  let stateSizeNew := stateSizeTgt + stateSizeDft + prompt.checkpointsSize
  if covered then pure (cache, false)
  else if 0 < cache.limitSize ∧ cache.limitSize < stateSizeNew then pure (cache, false)
  else do
    let rest ← removeObsolete api prompt.tokens cache.states
    let kept :=
      if 0 < cache.limitSize then
        popWhile (fun st => cache.limitSize < sizeOf st + stateSizeNew) rest
      else rest
    if allocates then
      let state : PromptCacheState C :=
        ⟨prompt.clone api, ⟨List.replicate stateSizeTgt 0, List.replicate stateSizeDft 0⟩⟩
      pure ({ cache with states := kept ++ [state] }, true)
    else
      let reduced := max 1 (ops.fourTenths (sizeOf kept))
      pure (update ops { cache with states := kept, limitSize := reduced }, false)

/-- The caller has the contexts fill the buffers of the new entry. -/
def allocFilled (prompt : ServerPrompt C) (data : PromptData) (allocates : Bool)
    (cache : PromptCache C) : Except ServerTokensError (PromptCache C × Bool) := do
  let (cache, stored) ← alloc api ops prompt data.main.length data.drft.length allocates cache
  if stored then
    pure ({ cache with states := cache.states.modifyLast fun state => { state with data } }, true)
  else pure (cache, false)

/-- What a slot does to save its prompt. -/
def promptSave (prompt : ServerPrompt C) (data : PromptData) (allocates : Bool)
    (cache : PromptCache C) : Except ServerTokensError (PromptCache C × Bool) :=
  if prompt.nTokens = 0 then pure (cache, false)
  else allocFilled api ops prompt data allocates cache

/-- The search for the most similar cached prompt, from the entry at `i` on. -/
def findBest (tokensNew : ServerTokens C) : ℕ → List (PromptCacheState C) → F → F →
    Option (ℕ × PromptCacheState C) → Except ServerTokensError (Option (ℕ × PromptCacheState C))
  | _, [], _, _, itBest => pure itBest
  | i, it :: its, fKeepBest, fSimBest, itBest => do
    let lcpCur ← ServerTokens.getCommonPrefix api it.prompt.tokens tokensNew
    let fKeepCur := ops.ratio lcpCur it.prompt.nTokens
    let fSimCur := ops.ratio lcpCur tokensNew.tokens.length
    if ops.lt fKeepCur ops.quarter then findBest tokensNew (i + 1) its fKeepBest fSimBest itBest
    else if ops.lt fKeepBest fKeepCur && ops.lt fSimBest fSimCur then
      findBest tokensNew (i + 1) its fKeepCur fSimCur (some (i, it))
    else findBest tokensNew (i + 1) its fKeepBest fSimBest itBest

/-- The entry that is better than what the slot has, and where it is. -/
def findBetter (prompt : ServerPrompt C) (tokensNew : ServerTokens C) (cache : PromptCache C) :
    Except ServerTokensError (Option (ℕ × PromptCacheState C)) := do
  let lcpBest ← ServerTokens.getCommonPrefix api prompt.tokens tokensNew
  let fKeepBest := if 0 < prompt.nTokens then ops.ratio lcpBest prompt.nTokens else ops.minusOne
  findBest api ops tokensNew 0 cache.states fKeepBest
    (ops.ratio lcpBest tokensNew.tokens.length) none

/-- `ctxDft` says whether there is a draft context. -/
def load (ctxDft : Bool) (slot : PromptSlot C) (tokensNew : ServerTokens C) (restore : Restore)
    (cache : PromptCache C) : Except ServerTokensError (Bool × PromptSlot C × PromptCache C) := do
  let itBest ← findBetter api ops slot.prompt tokensNew cache
  match itBest with
  | none => pure (true, slot, cache)
  | some (i, best) =>
    if restore.tgt best.data.main ≠ best.data.main.length then
      pure (false, { slot with tgt := none }, cache)
    else
      -- the main buffer is released before the draft is restored
      let slot := { slot with tgt := some best.data.main }
      let cleared := cache.states.set i { best with data := { best.data with main := [] } }
      if best.data.drft = [] then
        pure (true, { slot with prompt := best.prompt },
          { cache with states := cache.states.eraseIdx i })
      else if ctxDft then
        if restore.dft best.data.drft ≠ best.data.drft.length then
          pure (false, { slot with dft := none }, { cache with states := cleared })
        else
          pure (true, { slot with prompt := best.prompt, dft := some best.data.drft },
            { cache with states := cache.states.eraseIdx i })
      else .error .assertion

/-! ## Runs of the cache -/

inductive Action (C : Type)
  | alloc (prompt : ServerPrompt C) (data : PromptData) (allocates : Bool)
  | load (slot : PromptSlot C) (tokensNew : ServerTokens C) (restore : Restore)
  | update

structure LoadReport (C : Type) where
  before : PromptSlot C
  result : Bool
  after : PromptSlot C

/-- The cache with all entries that were ever stored and with what every load has done. -/
structure History (C : Type) where
  cache : PromptCache C
  stored : List (PromptCacheState C) := []
  loads : List (LoadReport C) := []

def step (ctxDft : Bool) (h : History C) : Action C → Option (History C)
  | .alloc prompt data allocates =>
    match allocFilled api ops prompt data allocates h.cache with
    | .ok (cache, true) =>
      some { h with cache := cache, stored := h.stored ++ [⟨prompt.clone api, data⟩] }
    | .ok (cache, false) => some { h with cache := cache }
    | .error _ => none
  | .load slot tokensNew restore =>
    match load api ops ctxDft slot tokensNew restore h.cache with
    | .ok (result, slot', cache) =>
      some { h with cache := cache, loads := h.loads ++ [⟨slot, result, slot'⟩] }
    | .error _ => none
  | .update => some { h with cache := update ops h.cache }

end PromptCache
end RocmFpx
