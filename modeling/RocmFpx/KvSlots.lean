import RocmFpx.KvCache
import RocmFpx.KvCacheLaws
import Mathlib.Data.List.GetD

/-!
Placing ubatches: `find_slot` (with `cont = false`, as every caller has it),
`apply_ubatch` and `prepare`. In the results of `findSlot` the outer `Option` is the
failing assertion and the inner one the empty slot info.
-/

namespace RocmFpx
namespace KvCache

variable {E : Type*} (p : KvParams)

/-! ## Finding a slot -/

/-- The cell is empty, or occupied by a single sequence that no longer sees it. -/
def canUse (cells : KvCells) (idx : ℕ) : Bool :=
  cells.isEmpty idx ||
    (decide (cells.seqCount idx = 1) &&
      (cells.seqGet idx).elim false fun s =>
        isMaskedSwa p.nSwa p.swaType (cells.pos idx) (cells.seqPosMax s + 1))

def addUsable (usable : ℕ → Bool) (head : ℕ) (idxs : List ℕ) : List ℕ :=
  if usable head then idxs ++ [head] else idxs

/-- The search loop from `head`; `fuel` bounds its iterations. -/
def scan (usable : ℕ → Bool) (size nTokens : ℕ) : ℕ → ℕ → ℕ → List ℕ → Option (Option (List ℕ))
  | 0, _, _, _ => none
  | fuel + 1, head, nTested, idxs =>
    if head + 1 > size then
      scan usable size nTokens fuel 0 (nTested + (size - head)) idxs
    else
      let idxs := addUsable usable head idxs
      if idxs.length = nTokens then some (some idxs)
      else if nTested + 1 ≥ size then some none
      else scan usable size nTokens fuel (head + 1) (nTested + 1) idxs

def scanHead (head used nTokens : ℕ) : ℕ := if head > used + 2 * nTokens then 0 else head

def findIdxs (cells : KvCells) (head nTokens : ℕ) : Option (Option (List ℕ)) :=
  if nTokens > cells.size then some none
  else
    scan (canUse p cells) cells.size nTokens (2 * cells.size + 2)
      (scanHead head cells.getUsed nTokens) 0 []

def findSlotFor (c : KvCache) (ub : Ubatch E) (nTokens s : ℕ) : Option (Option (ℕ × List ℕ)) :=
  let seqId := ub.seqIdUnq.getD s 0
  if p.nStream > 1 ∧ ub.seqIdAt (s * nTokens) ≠ [seqId] then none
  else
    let strm := p.seqToStream seqId
    (findIdxs p (c.vCells strm) (c.vHeads strm) nTokens).map fun r => r.map fun idxs => (strm, idxs)

def findSlots (c : KvCache) (ub : Ubatch E) (nTokens : ℕ) :
    List ℕ → Option (Option (List (ℕ × List ℕ)))
  | [] => some (some [])
  | s :: rest =>
    match findSlotFor p c ub nTokens s with
    | none => none
    | some none => some none
    | some (some slot) =>
      (findSlots c ub nTokens rest).map fun r => r.map fun slots => slot :: slots

def slotInfoOf (slots : List (ℕ × List ℕ)) : SlotInfo where
  s0 := slots.foldl (fun s0 slot => min s0 slot.1) llamaMaxSeq
  s1 := slots.foldl (fun s1 slot => max s1 slot.1) 0
  slots := slots

def findSlot (c : KvCache) (ub : Ubatch E) : Option (Option SlotInfo) :=
  if p.nStream > 1 then
    if ub.nSeqsUnq = 0 ∨ ub.nTokens % ub.nSeqsUnq ≠ 0 then none
    else
      (findSlots p c ub (ub.nTokens / ub.nSeqsUnq) (List.range ub.nSeqsUnq)).map
        fun r => r.map slotInfoOf
  else
    (findSlots p c ub ub.nTokens (List.range 1)).map fun r => r.map slotInfoOf

/-! ## Placing an ubatch -/

def storesExt (ub : Ubatch E) : Bool := ub.isPos2d || ub.token.isSome || decide (p.pleNHeads > 0)

def ubatchExt (ub : Ubatch E) (i : ℕ) : KvCellExt where
  x := if ub.isPos2d then ub.posAt (i + ub.nTokens * 2) else 0
  y := if ub.isPos2d then ub.posAt (i + ub.nTokens) else 0
  tok :=
    if !ub.isEmbd i then (ub.token.getD []).getD i 0
    else if p.pleNHeads > 0 then
      if p.pleImageTokenId ≠ 0 then p.pleImageTokenId else p.pleEosTokenId
    else llamaTokenNull

/-- What the placing loop carries: the cache and `seq_pos_max_rm`. -/
structure Placing where
  cache : KvCache
  seqPosMaxRm : ℕ → ℤ

/-- Empty the cell if it is occupied, and remember the position it held. -/
def Placing.overwrite (st : Placing) (strm idx : ℕ) : Placing :=
  let cells := st.cache.vCells strm
  if cells.isEmpty idx then st
  else
    { cache := st.cache.setCells strm (cells.rm idx)
      seqPosMaxRm := (cells.seqGet idx).elim st.seqPosMaxRm fun s =>
        Function.update st.seqPosMaxRm s (max (st.seqPosMaxRm s) (cells.pos idx)) }

def fillCell (ub : Ubatch E) (i : ℕ) (cells : KvCells) (idx : ℕ) : KvCells :=
  let cells := cells.posSet idx (ub.posAt i)
  let cells := if storesExt p ub then cells.extSet idx (ubatchExt p ub i) else cells
  (ub.seqIdAt i).foldl (fun cells s => cells.seqAdd idx s) cells

def placeToken (ub : Ubatch E) (st : Placing) (t : ℕ × ℕ × ℕ) : Placing :=
  let st := st.overwrite t.1 t.2.1
  { st with cache := st.cache.setCells t.1 (fillCell p ub t.2.2 (st.cache.vCells t.1) t.2.1) }

def placeAll (c : KvCache) (sinfo : SlotInfo) (ub : Ubatch E) : Placing :=
  sinfo.placements.foldl (placeToken p ub) ⟨c, fun _ => -1⟩

/-- Purge what is before the overwritten positions of sequence `s`. The source asserts
`s < seq_to_stream.size()` here. -/
def purgeSeq (seqPosMaxRm : ℕ → ℤ) (c : KvCache) (s : ℕ) : KvCache :=
  if seqPosMaxRm s = -1 then c
  else if c.seqPosMin p s ≤ seqPosMaxRm s then
    c.seqRmOne p s (c.seqPosMin p s) (seqPosMaxRm s + 1)
  else c

def purge (seqPosMaxRm : ℕ → ℤ) (c : KvCache) : KvCache :=
  (List.range llamaMaxSeq).foldl (purgeSeq p seqPosMaxRm) c

def moveHeads (sinfo : SlotInfo) (c : KvCache) : KvCache :=
  sinfo.slots.foldl (fun c slot => c.setHead slot.1 (slot.2.getLastD 0 + 1)) c

def applyUbatch (c : KvCache) (sinfo : SlotInfo) (ub : Ubatch E) : KvCache :=
  let st := placeAll p c sinfo ub
  moveHeads sinfo (purge p st.seqPosMaxRm st.cache)

/-! ## Trying a list of ubatches -/

structure PrepState where
  sinfo : SlotInfo
  vHeadsOld : ℕ → ℕ
  vCells : List KvCells

def saveState (c : KvCache) (sinfo : SlotInfo) : PrepState where
  sinfo := sinfo
  vHeadsOld := c.vHeads
  vCells := sinfo.slots.map fun slot => (c.vCells slot.1).cpIdxs slot.2

/-- The Boolean tells whether every ubatch found a slot. -/
def tryAll (c : KvCache) : List (Ubatch E) → Option (KvCache × List PrepState × Bool)
  | [] => some (c, [], true)
  | ub :: ubs =>
    match findSlot p c ub with
    | none => none
    | some none => some (c, [], false)
    | some (some sinfo) =>
      if sinfo.slots = [] then some (c, [], false)
      else
        (tryAll (applyUbatch p c sinfo ub) ubs).map fun r =>
          (r.1, saveState c sinfo :: r.2.1, r.2.2)

/-- One iteration of the inner restoring loop. The old head is looked up under the
number `s` of the slot, not under the stream `strm[s]`. -/
def undoSlot (st : PrepState) (c : KvCache) (slot : (ℕ × List ℕ) × ℕ) : KvCache :=
  let saved := st.vCells.getD slot.2 KvCells.init
  (c.setCells slot.1.1 ((c.vCells slot.1.1).setIdxs slot.1.2 saved)).setHead slot.1.1
    (st.vHeadsOld slot.2)

def undoState (c : KvCache) (st : PrepState) : KvCache :=
  st.sinfo.slots.zipIdx.foldl (undoSlot st) c

/-- The slot of each ubatch, or no slot at all. -/
def prepare (c : KvCache) (ubs : List (Ubatch E)) : Option (KvCache × List SlotInfo) :=
  match tryAll p c ubs with
  | none => none
  | some (c', states, success) =>
    if states = [] ∧ success = true then none
    else
      let restored := states.reverse.foldl undoState c'
      some (restored, if success then states.map PrepState.sinfo else [])

end KvCache
end RocmFpx

/-!
What `find_slot` returns: the search ends, and a found slot has distinct usable cells
of the right stream for every token.
-/

namespace RocmFpx
namespace KvCache

open PointwiseLoop

variable {E : Type*} {p : KvParams}

/-! ## The search loop -/

/-- The cells collected so far lie in the part of the ring from `start` up to `head`,
whose length `nTested` counts. -/
def Seen (usable : ℕ → Bool) (size start head nTested : ℕ) (idxs : List ℕ) : Prop :=
  idxs.Nodup ∧ (∀ i ∈ idxs, i < size ∧ usable i = true) ∧
    ((start ≤ head ∧ head ≤ size ∧ nTested = head - start ∧ ∀ i ∈ idxs, start ≤ i ∧ i < head) ∨
      (head ≤ start ∧ start ≤ size ∧ nTested + start = size + head ∧
        ∀ i ∈ idxs, start ≤ i ∨ i < head))

theorem Seen.push {usable : ℕ → Bool} {size start head nTested : ℕ} {idxs : List ℕ}
    (h : Seen usable size start head nTested idxs) (hlt : nTested < size) (hfit : head + 1 ≤ size) :
    Seen usable size start (head + 1) (nTested + 1) (addUsable usable head idxs) := by
  rw [addUsable]
  obtain ⟨hnd, hus, hpos⟩ := h
  have hout : head ∉ idxs := by
    intro hmem
    rcases hpos with ⟨-, -, -, hin⟩ | ⟨h1, -, h3, hin⟩
    · exact absurd (hin head hmem).2 (lt_irrefl head)
    · rcases hin head hmem with h4 | h4 <;> omega
  refine ⟨?_, ?_, ?_⟩
  · split_ifs
    · exact hnd.append (List.nodup_singleton head) (by simpa using hout)
    · exact hnd
  · intro i hi
    split_ifs at hi with hu
    · rcases List.mem_append.mp hi with hi | hi
      · exact hus i hi
      · rw [List.mem_singleton.mp hi]
        exact ⟨hfit, hu⟩
    · exact hus i hi
  · rcases hpos with ⟨h1, h2, h3, hin⟩ | ⟨h1, h2, h3, hin⟩
    · refine .inl ⟨by omega, hfit, by omega, fun i hi => ?_⟩
      have hcase : i ∈ idxs ∨ i = head := by
        split_ifs at hi
        · simpa using hi
        · exact .inl hi
      rcases hcase with hi | rfl
      · have := hin i hi
        omega
      · omega
    · refine .inr ⟨by omega, h2, by omega, fun i hi => ?_⟩
      have hcase : i ∈ idxs ∨ i = head := by
        split_ifs at hi
        · simpa using hi
        · exact .inl hi
      rcases hcase with hi | rfl
      · have := hin i hi
        omega
      · omega

theorem scan_sound {usable : ℕ → Bool} {size nTokens start : ℕ} (fuel : ℕ) {head nTested : ℕ}
    {idxs r : List ℕ} (h : Seen usable size start head nTested idxs) (hlt : nTested < size)
    (hrun : scan usable size nTokens fuel head nTested idxs = some (some r)) :
    r.length = nTokens ∧ r.Nodup ∧ ∀ i ∈ r, i < size ∧ usable i = true := by
  induction fuel generalizing head nTested idxs with
  | zero => exact absurd hrun (by simp [scan])
  | succ fuel ih =>
    simp only [scan] at hrun
    split_ifs at hrun with hwrap hfound hfull
    · -- the head is at the end of the ring, nothing is skipped
      obtain ⟨hnd, hus, ⟨h1, h2, h3, hin⟩ | ⟨h1, h2, h3, hin⟩⟩ := h
      · have hseen : Seen usable size start 0 (nTested + (size - head)) idxs :=
          ⟨hnd, hus, .inr ⟨Nat.zero_le _, by omega, by omega, fun i hi => .inl (hin i hi).1⟩⟩
        exact ih hseen (by omega) hrun
      · omega
    · have hpush := h.push hlt (by omega)
      obtain rfl := Option.some.inj (Option.some.inj hrun)
      exact ⟨hfound, hpush.1, hpush.2.1⟩
    · simp at hrun
    · exact ih (h.push hlt (by omega)) (by omega) hrun

theorem scan_returns {usable : ℕ → Bool} {size nTokens : ℕ} (hsize : 0 < size) (fuel : ℕ)
    {head nTested : ℕ} {idxs : List ℕ} (hhead : head ≤ size) (hlt : nTested < size)
    (hfuel : 2 * (size - nTested) + (if head = size then 1 else 0) < fuel) :
    scan usable size nTokens fuel head nTested idxs ≠ none := by
  induction fuel generalizing head nTested idxs with
  | zero => exact absurd hfuel (Nat.not_lt_zero _)
  | succ fuel ih =>
    simp only [scan]
    split_ifs with hwrap hfound hfull
    · have heq : head = size := by omega
      subst heq
      rw [if_pos rfl] at hfuel
      refine ih (Nat.zero_le _) (by omega) ?_
      rw [if_neg (by omega)]
      omega
    · simp
    · simp
    · refine ih (by omega) (by omega) ?_
      split_ifs at hfuel ⊢ <;> omega

theorem findIdxs_sound {cells : KvCells} {head nTokens : ℕ} {r : List ℕ} (hhead : head ≤ cells.size)
    (hrun : findIdxs p cells head nTokens = some (some r)) (hn : 0 < nTokens) :
    r.length = nTokens ∧ r.Nodup ∧ ∀ i ∈ r, i < cells.size ∧ canUse p cells i = true := by
  rw [findIdxs] at hrun
  split_ifs at hrun with hbig
  · simp at hrun
  have hstart : scanHead head cells.getUsed nTokens ≤ cells.size := by
    rw [scanHead]
    split_ifs <;> omega
  have hseen : Seen (canUse p cells) cells.size (scanHead head cells.getUsed nTokens)
      (scanHead head cells.getUsed nTokens) 0 [] :=
    ⟨List.nodup_nil, by simp, .inl ⟨le_rfl, hstart, by omega, by simp⟩⟩
  exact scan_sound _ hseen (by omega) hrun

theorem findIdxs_returns {cells : KvCells} {head nTokens : ℕ} (hhead : head ≤ cells.size)
    (hn : 0 < nTokens) : findIdxs p cells head nTokens ≠ none := by
  rw [findIdxs]
  split_ifs with hbig
  · simp
  · have hstart : scanHead head cells.getUsed nTokens ≤ cells.size := by
      rw [scanHead]
      split_ifs <;> omega
    refine scan_returns (by omega) _ hstart (by omega) ?_
    split_ifs <;> omega

/-! ## Found slots -/

/-- What the batch splitters guarantee of an ubatch for this cache: sequence ids in
range, positions that `int32_t` can step past, tokens that fit it, and with several
streams one block of tokens per sequence. -/
structure Fits (p : KvParams) (ub : Ubatch E) : Prop where
  tokens : 0 < ub.nTokens
  unq_nodup : ub.seqIdUnq.Nodup
  unq_length : ub.seqIdUnq.length = ub.nSeqsUnq
  unq_lt : ∀ s ∈ ub.seqIdUnq, s < p.seqToStreamSize
  pos : ∀ i < ub.nTokens, 0 ≤ ub.posAt i ∧ ub.posAt i < llamaPosMax
  ext : ∀ i < ub.nTokens, ExtOk (ubatchExt p ub i)
  seqs : ∀ i < ub.nTokens, ∀ s ∈ ub.seqIdAt i, s < p.seqToStreamSize
  blocks : p.nStream > 1 → ∀ i < ub.nTokens, ∀ s ∈ ub.seqIdAt i,
    s = ub.seqIdUnq.getD (i / (ub.nTokens / ub.nSeqsUnq)) 0

structure SlotOk (c : KvCache) (ub : Ubatch E) (sinfo : SlotInfo) : Prop where
  size_pos : 0 < sinfo.size
  length : ∀ slot ∈ sinfo.slots, slot.2.length = sinfo.size
  total : sinfo.slots.length * sinfo.size = ub.nTokens
  strm_lt : ∀ slot ∈ sinfo.slots, slot.1 < p.nStream
  strm_nodup : (sinfo.slots.map Prod.fst).Nodup
  idxs_nodup : ∀ slot ∈ sinfo.slots, slot.2.Nodup
  usable : ∀ slot ∈ sinfo.slots, ∀ i ∈ slot.2, i < p.kvSize ∧ canUse p (c.vCells slot.1) i = true
  home : ∀ s (slot : ℕ × List ℕ), sinfo.slots[s]? = some slot → ∀ ii < sinfo.size,
    ∀ q ∈ ub.seqIdAt (s * sinfo.size + ii), q < p.seqToStreamSize ∧ p.seqToStream q = slot.1

theorem seqToStream_getD_lt {ub : Ubatch E} (hfit : Fits p ub) (s : ℕ) :
    p.seqToStream (ub.seqIdUnq.getD s 0) < p.nStream := by
  by_cases hs : s < ub.seqIdUnq.length
  · rw [List.getD_eq_getElem _ _ hs]
    exact p.seqToStream_lt (hfit.unq_lt _ (List.getElem_mem hs))
  · rw [List.getD_eq_default _ _ (by omega)]
    have := p.nStream_pos
    rw [KvParams.seqToStream]
    split_ifs <;> omega

theorem findSlots_sound {c : KvCache} (h : CacheInv p c) {ub : Ubatch E} (hfit : Fits p ub)
    {nTokens : ℕ} (hn : 0 < nTokens) (ss : List ℕ) {slots : List (ℕ × List ℕ)}
    (hrun : findSlots p c ub nTokens ss = some (some slots)) :
    slots.map Prod.fst = ss.map (fun s => p.seqToStream (ub.seqIdUnq.getD s 0)) ∧
      ∀ slot ∈ slots, slot.1 < p.nStream ∧ slot.2.length = nTokens ∧ slot.2.Nodup ∧
        ∀ i ∈ slot.2, i < p.kvSize ∧ canUse p (c.vCells slot.1) i = true := by
  induction ss generalizing slots with
  | nil =>
    obtain rfl := Option.some.inj (Option.some.inj hrun)
    exact ⟨rfl, by simp⟩
  | cons s ss ih =>
    rw [findSlots] at hrun
    rcases hone : findSlotFor p c ub nTokens s with _ | _ | slot
    · simp [hone] at hrun
    · simp [hone] at hrun
    simp only [hone, Option.map_eq_some_iff] at hrun
    obtain ⟨_, hrest, tail, rfl, rfl⟩ := hrun
    obtain ⟨hfst, htail⟩ := ih hrest
    have hlt := seqToStream_getD_lt hfit s
    have hhead : slot.1 = p.seqToStream (ub.seqIdUnq.getD s 0) ∧
        findIdxs p (c.vCells slot.1) (c.vHeads slot.1) nTokens = some (some slot.2) := by
      simp only [findSlotFor] at hone
      split_ifs at hone
      simp only [Option.map_eq_some_iff] at hone
      obtain ⟨_, hfind, idxs, rfl, rfl⟩ := hone
      exact ⟨rfl, hfind⟩
    obtain ⟨hslot, hfind⟩ := hhead
    rw [← hslot] at hlt
    have hsize := h.size _ hlt
    have hsound := findIdxs_sound (by rw [hsize]; exact h.head _ hlt) hfind hn
    rw [hsize] at hsound
    refine ⟨by rw [List.map_cons, List.map_cons, hfst, hslot], fun x hx => ?_⟩
    rcases List.mem_cons.mp hx with rfl | hx
    · exact ⟨hlt, hsound⟩
    · exact htail x hx

theorem SlotOk.of_slots {c : KvCache} {ub : Ubatch E} (hfit : Fits p ub) {nSeqs nTokens : ℕ}
    (hseqs : 0 < nSeqs) (hn : 0 < nTokens) (htotal : nSeqs * nTokens = ub.nTokens)
    (hunq : nSeqs = 1 ∨ nSeqs = ub.nSeqsUnq ∧ 1 < p.nStream)
    (hone : nSeqs = 1 → p.nStream = 1 ∨ ub.nSeqsUnq = 1 ∧ 1 < p.nStream)
    {slots : List (ℕ × List ℕ)}
    (hfst : slots.map Prod.fst =
      (List.range nSeqs).map (fun s => p.seqToStream (ub.seqIdUnq.getD s 0)))
    (hslots : ∀ slot ∈ slots, slot.1 < p.nStream ∧ slot.2.length = nTokens ∧ slot.2.Nodup ∧
      ∀ i ∈ slot.2, i < p.kvSize ∧ canUse p (c.vCells slot.1) i = true) :
    SlotOk (p := p) c ub (slotInfoOf slots) := by
  have hlen : slots.length = nSeqs := by simpa using congrArg List.length hfst
  have hsize : (slotInfoOf slots).size = nTokens := by
    rw [SlotInfo.size, slotInfoOf]
    cases slots with
    | nil => simp at hlen; omega
    | cons slot rest => simpa using (hslots slot (by simp)).2.1
  refine ⟨hsize ▸ hn, fun slot hs => hsize ▸ (hslots slot hs).2.1, ?_, fun slot hs => (hslots slot hs).1,
    ?_, fun slot hs => (hslots slot hs).2.2.1, fun slot hs => (hslots slot hs).2.2.2, ?_⟩
  · rw [hsize, ← htotal, ← hlen]
    rfl
  · change (slots.map Prod.fst).Nodup
    rw [hfst]
    rcases hunq with h1 | ⟨h1, h2⟩
    · rw [h1]
      exact List.nodup_singleton _
    · refine List.nodup_range.map_on fun s hs s' hs' heq => ?_
      rw [List.mem_range, h1, ← hfit.unq_length] at hs hs'
      rw [KvParams.seqToStream, KvParams.seqToStream, if_pos h2, if_pos h2,
        List.getD_eq_getElem _ _ hs, List.getD_eq_getElem _ _ hs'] at heq
      exact (hfit.unq_nodup.getElem_inj_iff).mp heq
  · intro s slot hs ii hii q hq
    rw [hsize] at hii hq
    have hslt : s < slots.length := (List.getElem?_eq_some_iff.mp hs).1
    have hi : s * nTokens + ii < ub.nTokens := by
      rw [← htotal]
      calc s * nTokens + ii < s * nTokens + nTokens := by omega
        _ = (s + 1) * nTokens := by ring
        _ ≤ nSeqs * nTokens := Nat.mul_le_mul_right _ (by omega)
    refine ⟨hfit.seqs _ hi q hq, ?_⟩
    have hstrm : slot.1 = p.seqToStream (ub.seqIdUnq.getD s 0) := by
      have := congrArg (fun l => l[s]?) hfst
      simp only [List.getElem?_map] at this
      rw [show slots[s]? = some slot from hs, List.getElem?_range (by omega)] at this
      simpa using this
    rw [hstrm]
    rcases p.stream_cases with h1 | -
    · rw [KvParams.seqToStream, KvParams.seqToStream, if_neg (by omega), if_neg (by omega)]
    · by_cases h2 : p.nStream > 1
      · have hblock := hfit.blocks h2 _ hi q hq
        have hper : ub.nTokens / ub.nSeqsUnq = nTokens := by
          have hns : nSeqs = ub.nSeqsUnq := by
            rcases hunq with h3 | h3
            · rcases hone h3 with h4 | h4 <;> omega
            · exact h3.1
          rw [← htotal, hns]
          exact Nat.mul_div_cancel_left _ (by omega)
        rw [hper, show (s * nTokens + ii) / nTokens = s by
          rw [mul_comm, Nat.mul_add_div hn, Nat.div_eq_of_lt hii, add_zero]] at hblock
        rw [hblock]
      · rw [KvParams.seqToStream, KvParams.seqToStream, if_neg h2, if_neg h2]

theorem findSlot_sound {c : KvCache} (h : CacheInv p c) {ub : Ubatch E} (hfit : Fits p ub)
    {sinfo : SlotInfo} (hrun : findSlot p c ub = some (some sinfo)) :
    SlotOk (p := p) c ub sinfo := by
  have htok := hfit.tokens
  rw [findSlot] at hrun
  split_ifs at hrun with hstrm hbad
  · simp only [Option.map_eq_some_iff] at hrun
    obtain ⟨_, hfind, slots, rfl, rfl⟩ := hrun
    rw [not_or, not_not] at hbad
    have hdvd : ub.nSeqsUnq * (ub.nTokens / ub.nSeqsUnq) = ub.nTokens :=
      Nat.mul_div_cancel' (Nat.dvd_of_mod_eq_zero hbad.2)
    have hpos : 0 < ub.nTokens / ub.nSeqsUnq := by
      rcases Nat.eq_zero_or_pos (ub.nTokens / ub.nSeqsUnq) with h0 | h0
      · rw [h0, mul_zero] at hdvd
        omega
      · exact h0
    obtain ⟨hfst, hslots⟩ := findSlots_sound h hfit hpos _ hfind
    exact .of_slots hfit (by omega) hpos hdvd (.inr ⟨rfl, hstrm⟩) (fun h1 => .inr ⟨h1, hstrm⟩)
      hfst hslots
  · simp only [Option.map_eq_some_iff] at hrun
    obtain ⟨_, hfind, slots, rfl, rfl⟩ := hrun
    obtain ⟨hfst, hslots⟩ := findSlots_sound h hfit htok _ hfind
    have hns := p.nStream_pos
    exact .of_slots hfit one_pos htok (one_mul _) (.inl rfl) (fun _ => .inl (by omega)) hfst hslots

end KvCache
end RocmFpx
