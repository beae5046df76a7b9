import Mathlib.Data.List.Basic
import Mathlib.Tactic

/-!
The n-gram map: for the n-grams that were looked up, the m-grams that followed them in the history.
Keys, values and the entries of the hash table are positions in the history. A read of the history
past its end and a failing check are errors.
-/

namespace RocmFpx
namespace NgramMap

def commonNgramMaxValues : ℕ := 4

def commonNgramMaxValueCount : ℕ := 16380

def commonNgramHashMapSize : ℕ := 262144

def lcgFactor : ℕ := 2654435761

def uint32Max : ℕ := 4294967295

abbrev Token := ℤ

inductive Error
  | outOfRange
  | abort
  deriving DecidableEq

/-- `common_ngram_map_value`. -/
structure Value where
  valueIdx : ℕ
  valueNum : ℕ
  nAccepted : ℤ
  deriving DecidableEq

/-- `common_ngram_map_key`. -/
structure Key where
  keyIdx : ℕ
  statIdx : ℕ
  keyNum : ℕ
  values : List Value
  deriving DecidableEq

/-- `common_ngram_map`, without the hash table if `keyMapSize` is zero. The argument parser keeps the
size of the keys positive. -/
structure Map where
  sizeKey : ℕ
  sizeValue : ℕ
  keyOnly : Bool
  keys : List Key
  minHits : ℕ
  sizeLastBegin : ℕ
  lastDraftCreated : Bool
  lastDraftKeyIdx : ℕ
  lastDraftValueIdx : ℕ
  idxLastCheck : ℕ
  keyMapSize : ℕ
  keyMap : ℕ → ℕ
  keyMapLastIdx : ℕ
  sizeKey_pos : 0 < sizeKey

/-- A value converted to `int16_t`. -/
def int16 (x : ℕ) : ℤ := ((x : ℤ) + 32768) % 65536 - 32768

/-! ## Reads of the history -/

section

variable (inp : List Token)

def read (i : ℕ) : Except Error Token :=
  match inp[i]? with
  | some t => .ok t
  | none => .error .outOfRange

/-- Compare the tokens from `i` on with `key`, up to the first difference. -/
def sameKey (i : ℕ) : List Token → Except Error Bool
  | [] => .ok true
  | t :: ts => do
    let x ← read inp i
    if x ≠ t then return false
    sameKey (i + 1) ts

/-- Compare the `size` tokens from `i` and from `j` on. -/
def sameGram (i j : ℕ) : ℕ → Except Error Bool
  | 0 => .ok true
  | size + 1 => do
    let x ← read inp i
    let y ← read inp j
    if x ≠ y then return false
    sameGram (i + 1) (j + 1) size

def readGram (i size : ℕ) : Except Error (List Token) :=
  (List.range size).mapM fun (j : ℕ) => read inp (i + j)

/-- `common_ngram_map_hash` of tokens that have been read. -/
def hash (tokens : List Token) : ℕ :=
  tokens.foldl (fun hash t => (((hash : ℤ) * lcgFactor + t) % (uint32Max + 1)).toNat) 0

/-- A search for the key from `hi` down to above `lo`; `0` if it is not found. -/
def searchDown (key : List Token) (lo : ℕ) : ℕ → Except Error ℕ
  | 0 => .ok 0
  | hi + 1 =>
    if lo < hi + 1 then do
      if ← sameKey inp (hi + 1) key then return hi + 1
      searchDown key lo hi
    else .ok 0

/-- The n-grams from `hi` down to above `lo` enter the hash table, each bucket once. -/
def addHashes (sizeKey keyMapSize lo : ℕ) (keyMap : ℕ → ℕ) : ℕ → Except Error (ℕ → ℕ)
  | 0 => .ok keyMap
  | hi + 1 =>
    if lo < hi + 1 then do
      let gram ← readGram inp (hi + 1) sizeKey
      let idxHash := hash gram % keyMapSize
      addHashes sizeKey keyMapSize lo
        (if keyMap idxHash = 0 then Function.update keyMap idxHash (hi + 1) else keyMap) hi
    else .ok keyMap

/-- The offset of the first entry for the key, or the number of entries. -/
def findKey (key : List Token) : List Key → Except Error ℕ
  | [] => .ok 0
  | k :: ks => do
    if ← sameKey inp k.keyIdx key then return 0
    return (← findKey key ks) + 1

/-- An occurrence of the m-gram at `idx`: it is counted in its slot or takes the first empty one. -/
def countValue (sizeValue idx : ℕ) : List Value → Except Error (List Value)
  | [] => .ok []
  | v :: vs =>
    if v.valueIdx = 0 then .ok (⟨idx, 1, int16 sizeValue⟩ :: vs)
    else do
      if ← sameGram inp idx v.valueIdx sizeValue then
        return { v with valueNum := min (v.valueNum + 1) commonNgramMaxValueCount } :: vs
      return v :: (← countValue sizeValue idx vs)

/-- One position of the statistics. -/
def statStep (sizeValue : ℕ) (key : List Token) (values : List Value) (i : ℕ) :
    Except Error (List Value) := do
  if ← sameKey inp i key then countValue inp sizeValue (i + key.length) values
  else return values

end

/-- The slot with the most occurrences, the first of them. -/
def slotMaxFrom (values : List Value) (slot : ℕ) (best : ℕ × ℕ) : ℕ × ℕ :=
  match values with
  | [] => best
  | v :: vs => slotMaxFrom vs (slot + 1) (if best.1 < v.valueNum then (v.valueNum, slot) else best)

/-- `max_occur` and `slot_max`. -/
def slotMax (values : List Value) : ℕ × ℕ := slotMaxFrom values 0 (0, 0)

/-- `sum_occur`. -/
def sumOccur (values : List Value) : ℕ :=
  ((values.eraseIdx (slotMax values).2).map Value.valueNum).sum

/-! ## A new start of the generation -/

/-- The value slots behind a deleted one move to the left. -/
def deleteValues (idxBeginCleanup : ℕ) (values : List Value) : List Value :=
  let kept := values.filter fun v => decide (v.valueIdx = 0 ∨ v.valueIdx < idxBeginCleanup)
  kept ++ List.replicate (values.length - kept.length) ⟨0, 0, (values.getLastD ⟨0, 0, -1⟩).nAccepted⟩

namespace Map

variable (map : Map)

def idxBeginCleanup (sizeBegin : ℕ) : ℕ :=
  if sizeBegin < map.sizeLastBegin then
    if map.sizeKey + map.sizeValue < sizeBegin then sizeBegin - map.sizeKey - map.sizeValue else 0
  else map.sizeLastBegin

/-- The entry of a key behind the cleanup, unless it is deleted. -/
def cleanKey (cleanup : ℕ) (key : Key) : Option Key :=
  if cleanup ≤ key.keyIdx then none
  else if map.keyOnly then some key
  else
    let values := deleteValues cleanup key.values
    if (values.headD ⟨0, 0, -1⟩).valueIdx = 0 then none else some { key with values := values }

/-- `common_ngram_map_begin`. -/
def begin (tokens : List Token) : Map :=
  let cleanup := map.idxBeginCleanup tokens.length
  let shrinks := decide (tokens.length < map.idxLastCheck)
  let cleanTable := decide (map.keyMapSize ≠ 0) && shrinks
  { map with
    keyMap := fun h =>
      if cleanTable && decide (cleanup ≤ map.keyMap h) then 0 else map.keyMap h
    keyMapLastIdx :=
      if cleanTable then (if 0 < cleanup then (cleanup - 1) % (uint32Max + 1) else 0)
      else map.keyMapLastIdx
    keys := if shrinks then map.keys.filterMap (map.cleanKey cleanup) else map.keys
    idxLastCheck := tokens.length
    sizeLastBegin := tokens.length }

/-! ## A draft -/

/-- The key: the last tokens with the sampled one behind them. -/
def keyTokens (inp : List Token) (sampled : Token) : List Token :=
  inp.drop (inp.length - map.sizeKey + 1) ++ [sampled]

/-- The last position where key and value lie in front of the end. -/
def lastPos (size : ℕ) : ℕ := size - map.sizeKey - map.sizeValue - 1

/-- The match that the hash table has. -/
def tableMatch (inp key : List Token) : Except Error ℕ :=
  let idxKey := map.keyMap (hash key % map.keyMapSize)
  if map.keyMapSize ≠ 0 ∧ idxKey ≠ 0 ∧ idxKey < map.lastPos inp.length then do
    if ← sameKey inp idxKey key then return idxKey
    return 0
  else .ok 0

/-- The match in front of `size_last_begin`. -/
def matchBefore (inp key : List Token) : Except Error ℕ :=
  if map.sizeKey + map.sizeValue + 1 < map.sizeLastBegin then
    searchDown inp key map.keyMapLastIdx (map.lastPos map.sizeLastBegin)
  else .ok 0

/-- The match behind `size_last_begin`. -/
def matchBehind (inp key : List Token) : Except Error ℕ :=
  searchDown inp key (max map.sizeLastBegin map.keyMapLastIdx) (map.lastPos inp.length)

/-- `match_pos`. -/
def findMatch (inp key : List Token) : Except Error ℕ := do
  let pos ← map.tableMatch inp key
  if pos ≠ 0 then return pos
  let pos ← map.matchBefore inp key
  if pos ≠ 0 then return pos
  map.matchBehind inp key

def enterBefore (inp : List Token) : Except Error (ℕ → ℕ) :=
  if map.sizeKey + map.sizeValue + 1 < map.sizeLastBegin then
    addHashes inp map.sizeKey map.keyMapSize map.keyMapLastIdx map.keyMap
      (map.lastPos map.sizeLastBegin)
  else .ok map.keyMap

/-- The new n-grams enter the hash table. -/
def enterHashes (inp : List Token) : Except Error Map :=
  if map.keyMapSize = 0 then .ok map
  else do
    let keyMap ← map.enterBefore inp
    let keyMap ← addHashes inp map.sizeKey map.keyMapSize (max map.sizeLastBegin map.keyMapLastIdx)
      keyMap (map.lastPos inp.length)
    return { map with
      keyMap := keyMap
      keyMapLastIdx := max (map.lastPos inp.length) map.keyMapLastIdx }

def newKey (pos : ℕ) : Key :=
  ⟨pos, 0, 0, List.replicate commonNgramMaxValues ⟨0, 0, int16 map.sizeValue⟩⟩

/-- The entries with one for the key, at `offset`. -/
def keysWith (offset pos : ℕ) : List Key :=
  if offset = map.keys.length then map.keys ++ [map.newKey pos] else map.keys

/-- `curr_key` with one more hit. -/
def currKey (offset pos : ℕ) : Key :=
  let key := (map.keysWith offset pos).getD offset (map.newKey pos)
  { key with keyNum := min (key.keyNum + 1) commonNgramMaxValueCount }

def setKey (offset pos : ℕ) (key : Key) : Map :=
  { map with keys := (map.keysWith offset pos).set offset key }

/-- The tokens behind the match, as many as were accepted of slot `slot`. -/
def fillDraft (inp : List Token) (pos offset slot : ℕ) (key : Key) :
    Except Error (Map × List Token) := do
  let nDraftTokens := (min (map.sizeValue : ℤ) (key.values.getD slot ⟨0, 0, -1⟩).nAccepted).toNat
  let draft ← readGram inp (pos + map.sizeKey) nDraftTokens
  return ({ map.setKey offset pos key with
    lastDraftCreated := true
    lastDraftKeyIdx := offset
    lastDraftValueIdx := slot }, draft)

/-- `curr_key` with the statistics up to the match. -/
def statistics (inp key : List Token) (pos : ℕ) (curr : Key) : Except Error Key := do
  let values ← (List.range' curr.statIdx (pos + 1 - curr.statIdx)).foldlM
    (statStep inp map.sizeValue key) curr.values
  return { curr with values := values, statIdx := pos }

def draftValue (inp : List Token) (pos offset : ℕ) (curr : Key) : Except Error (Map × List Token) :=
  if 0 < sumOccur curr.values ∧ (slotMax curr.values).1 < 2 * sumOccur curr.values then
    .ok (map.setKey offset pos curr, [])
  else map.fillDraft inp pos offset (slotMax curr.values).2 curr

/-- What follows a match. -/
def draftMatch (inp key : List Token) (pos : ℕ) : Except Error (Map × List Token) := do
  let offset ← findKey inp key map.keys
  let curr := map.currKey offset pos
  if map.keyOnly then map.fillDraft inp pos offset 0 curr
  else if curr.keyNum < map.minHits then return (map.setKey offset pos curr, [])
  else
    let curr ← map.statistics inp key pos curr
    map.draftValue inp pos offset curr

def resetDraft : Map :=
  { map with lastDraftCreated := false, lastDraftKeyIdx := 0, lastDraftValueIdx := 0 }

/-- The search and what follows it, once the sizes are checked. -/
def draftChecked (inp : List Token) (sampled : Token) : Except Error (Map × List Token) := do
  let key := map.keyTokens inp sampled
  let pos ← map.findMatch inp key
  let map ← map.enterHashes inp
  if pos = 0 then return (map, []) else map.draftMatch inp key pos

/-- `common_ngram_map_draft`. -/
def draft (inp : List Token) (sampled : Token) : Except Error (Map × List Token) :=
  if inp.length < 2 * map.sizeKey + map.sizeValue then .ok (map.resetDraft, [])
  else if uint32Max ≤ inp.length ∨ inp.length < map.idxLastCheck ∨ inp.length < map.sizeLastBegin then
    .error .abort
  else { map.resetDraft with idxLastCheck := inp.length }.draftChecked inp sampled

/-- `common_ngram_map_accept`. -/
def accept (nAccepted : ℕ) : Except Error Map :=
  if !map.lastDraftCreated then .ok map
  else
    match map.keys[map.lastDraftKeyIdx]? with
    | none => .error .outOfRange
    | some key =>
      .ok { map with
        keys := map.keys.set map.lastDraftKeyIdx { key with
          values := key.values.modify map.lastDraftValueIdx fun v =>
            { v with nAccepted := int16 nAccepted } } }

end Map

/-! ## Runs -/

/-- The map and the history it was last called with. -/
structure State where
  map : Map
  hist : List Token

inductive Op
  | begin (tokens : List Token)
  | draft (inp : List Token) (sampled : Token)
  | accept (nAccepted : ℕ)

/-- A call and the draft it makes. -/
def Op.call (s : State) : Op → Except Error (State × List Token)
  | .begin tokens => .ok (⟨s.map.begin tokens, tokens⟩, [])
  | .draft inp sampled => do
    let r ← s.map.draft inp sampled
    return (⟨r.1, inp⟩, r.2)
  | .accept nAccepted => do
    let map ← s.map.accept nAccepted
    return (⟨map, s.hist⟩, [])

def start (sizeKey sizeValue minHits keyMapSize : ℕ) (keyOnly : Bool) (h : 0 < sizeKey) : State where
  map :=
    { sizeKey := sizeKey
      sizeValue := sizeValue
      keyOnly := keyOnly
      keys := []
      minHits := minHits
      sizeLastBegin := 0
      lastDraftCreated := false
      lastDraftKeyIdx := 0
      lastDraftValueIdx := 0
      idxLastCheck := 0
      keyMapSize := keyMapSize
      keyMap := fun _ => 0
      keyMapLastIdx := 0
      sizeKey_pos := h }
  hist := []

/-- Every call of the run satisfies `P` in the state it is made in. -/
def Each (P : State → Op → Prop) : State → List Op → Prop
  | _, [] => True
  | s, op :: ops => P s op ∧ ∀ s' draft, op.call s = .ok (s', draft) → Each P s' ops

theorem each_of_invariant {I : State → Prop} {P Q : State → Op → Prop}
    (hQ : ∀ s op, I s → P s op → Q s op)
    (keep : ∀ s op s' draft, I s → P s op → op.call s = .ok (s', draft) → I s')
    {s : State} {ops : List Op} (hs : I s) (h : Each P s ops) : Each Q s ops := by
  induction ops generalizing s with
  | nil => trivial
  | cons op ops ih =>
    exact ⟨hQ s op hs h.1, fun s' draft hcall => ih (keep s op s' draft hs h.1 hcall)
      (h.2 s' draft hcall)⟩

end NgramMap
end RocmFpx
