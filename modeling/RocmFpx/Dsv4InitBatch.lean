import RocmFpx.BatchOrder
import RocmFpx.Dsv4RollbackRuns
import RocmFpx.Fallible
import RocmFpx.KvPrepare

/-!
`llama_kv_cache_dsv4::init_batch`: the batch is split, both raw caches are asked for slots, and a
context is built, whose constructor resets `rs_idx`. A failing assertion is an error like the
exceptions.
-/

namespace RocmFpx

/-! ## Splitting a whole batch -/

namespace BatchAllocr

variable {E : Type*} (b : BatchAllocr E)

/-- The loop that splits until an empty ubatch comes back; `fuel` bounds its iterations. -/
def splitAll (call : SplitCall) : ℕ → SplitState → Option (SplitState × List (Ubatch E))
  | 0, _ => none
  | fuel + 1, st =>
    (b.split st call).bind fun r =>
      if r.2.nTokens = 0 then some (r.1, [])
      else (splitAll call fuel r.1).map fun rest => (rest.1, r.2 :: rest.2)

/-- `dsv4_batch_has_coupled`. -/
def hasCoupled : Bool := (List.range b.nTokens).any fun i => decide (1 < (b.seqIdAt i).length)

end BatchAllocr

namespace Dsv4

/-! ## Raw writes -/

section

variable {E : Type*}

/-- The tokens of the ubatch, those of each sequence together. -/
def rawWriteIdxs (ub : Ubatch E) : List (ℕ × ℕ) :=
  (ub.seqIdUnq.take ub.nSeqsUnq).flatMap fun s => (Layout.tokenIdxs ub s).map (s, ·)

def rawWriteUbatch (ub : Ubatch E) (nSeqTokens : ℕ) : Ubatch E where
  bEqualSeqs := true
  nTokens := (rawWriteIdxs ub).length
  nSeqTokens := nSeqTokens
  nSeqs := ub.nSeqsUnq
  nSeqsUnq := ub.nSeqsUnq
  nPos := ub.nPos
  token := ub.token.map fun token => (rawWriteIdxs ub).map fun x => token.getD x.2 0
  embd := none
  embdState := none
  pos := (List.range ub.nPos).flatMap fun (j : ℕ) =>
    (rawWriteIdxs ub).map fun x => ub.posAt (j * ub.nTokens + x.2)
  seqId := (rawWriteIdxs ub).map fun x => [x.1]
  seqIdUnq := ub.seqIdUnq.take ub.nSeqsUnq
  seqIdx := (List.range llamaMaxSeq).map fun s =>
    if s ∈ ub.seqIdUnq.take ub.nSeqsUnq then (ub.seqIdUnq.idxOf s : ℤ) else -1
  output := (rawWriteIdxs ub).map fun _ => 0
  type := none
  decisionOrder := none
  batchIdxs := []

/-- `dsv4_build_raw_write_ubatch`: every sequence of a coupled ubatch writes its own rows. -/
def buildRawWriteUbatch (ub : Ubatch E) : Except String (Ubatch E) :=
  if !hasCoupled ub then .ok ub
  else if ub.isMixed then .error "mixed token/embd ubatch is not supported here"
  else if ub.embd.isSome then .error "DSV4 coupled embedding ubatches are not supported"
  else
    let counts := (ub.seqIdUnq.take ub.nSeqsUnq).map fun s => (Layout.tokenIdxs ub s).length
    if rawWriteIdxs ub = [] then .ok ub
    else if counts.any fun n => decide (n ≠ counts.headD 0) then
      .error "DSV4 coupled raw writes require equal sequence lengths"
    else .ok (rawWriteUbatch ub (counts.headD 0))

/-- One step of `dsv4_build_raw_read_sinfos`: a coupled ubatch reads the stream of its first
sequence. -/
def buildRawReadSinfo (write : SlotInfo) (ub : Ubatch E) : Except String SlotInfo :=
  if !hasCoupled ub then .ok write
  else
    let seqId := (ub.seqIdAt 0).headD 0
    match write.slots.find? fun slot => decide (slot.1 = seqId) with
    | none => .error "DSV4 raw write stream not found for coupled read"
    | some slot => .ok ⟨slot.1, slot.1, [slot]⟩

/-- One step of `dsv4_build_comp_sinfos`. -/
def buildCompSinfo (nStream : ℕ) (ub : Ubatch E) : Except String SlotInfo := do
  if nStream ≤ 1 ∧ 1 < ub.nSeqsUnq then
    throw "DSV4 single compressed stream cannot serve multiple sequences"
  let ns := compGraphNStream ub nStream
  let strms ← (List.range ns).mapM fun s =>
    streamOffset nStream (if 1 < nStream then ub.seqIdUnq.getD s 0 else 0) 1
  let s0 := strms.foldl min (if 1 < nStream then llamaMaxSeq else 0)
  let s1 := strms.foldl max 0
  if 1 < nStream ∧ s1 - s0 + 1 ≠ ns then
    throw "DSV4 compressed streams are not contiguous in ubatch"
  return ⟨s0, s1, strms.map fun strm => (strm, [0])⟩

end

/-! ## The cache and its contexts -/

/-- What `init_batch` reads and writes of the cache. -/
structure Cache where
  nCtx : ℕ
  nSeqMax : ℕ
  nRsSeq : ℕ
  baseParams : KvParams
  swaParams : KvParams
  base : KvCache
  swa : KvCache
  rsIdx : List ℕ
  rsIdx_length : rsIdx.length = nSeqMax

/-- What the constructor of `llama_kv_cache_dsv4_context` keeps. -/
structure Context (E : Type*) where
  ubatches : List (Ubatch E)
  ubatchesRaw : List (Ubatch E)
  sinfosBaseWrite : List SlotInfo
  sinfosSwaWrite : List SlotInfo
  sinfosSwaRead : List SlotInfo
  plansCsa : List CompPlan
  plansHca : List CompPlan
  plansLid : List CompPlan
  sinfosComp : List SlotInfo

/-- The slots of the ubatches in both raw caches. -/
structure RawSlots (E : Type*) where
  ubatches : List (Ubatch E)
  ubatchesRaw : List (Ubatch E)
  base : List SlotInfo
  swa : List SlotInfo

variable {E : Type}

/-- `prepare` of one raw cache. -/
def prepareRaw (p : KvParams) (kv : KvCache) (ubs : List (Ubatch E)) :
    Except String (KvCache × List SlotInfo) :=
  match KvCache.prepare p kv ubs with
  | none => .error "assert"
  | some r => .ok r

namespace Cache

variable (c : Cache)

def csa : Layout := Layout.csa c.nCtx c.nSeqMax c.nRsSeq

def hca : Layout := Layout.hca c.nCtx c.nSeqMax c.nRsSeq

/-- The indexer keeps its rows as the CSA compressor does. -/
def lid : Layout := Layout.csa c.nCtx c.nSeqMax c.nRsSeq

def rawPerSeq : Bool := decide (c.baseParams.nStream ≠ 1)

def compPerSeq : Bool := decide (1 < c.csa.nStream)

/-- The first half of `make_context`: the second raw cache is only asked if the first one has slots. -/
def findSlots (ubs : List (Ubatch E)) : Except String (Cache × Option (RawSlots E)) := do
  let ubsRaw ← ubs.mapM buildRawWriteUbatch
  let (base, baseWrite) ← prepareRaw c.baseParams c.base ubsRaw
  if baseWrite = [] then
    return ({ c with base := base }, none)
  let (swa, swaWrite) ← prepareRaw c.swaParams c.swa ubsRaw
  if swaWrite = [] then
    return ({ c with base := base, swa := swa }, none)
  return ({ c with base := base, swa := swa }, some ⟨ubs, ubsRaw, baseWrite, swaWrite⟩)

theorem resetRsIdx_length (lay : Layout) (ubs : List (Ubatch E)) :
    (lay.resetRsIdx ubs c.rsIdx).length = c.nSeqMax :=
  (Dsv4.resetRsIdx_length ubs c.rsIdx).trans c.rsIdx_length

/-- The second half of `make_context`, with the constructor: the plans read `rs_idx`, and then it is
reset for the ubatches. -/
def newContext (slots : RawSlots E) : Except String (Cache × Context E) := do
  let swaRead ← (slots.swa.zip slots.ubatches).mapM fun x => buildRawReadSinfo x.1 x.2
  let plansCsa ← c.csa.buildCompPlans slots.ubatches c.rsIdx
  let plansHca ← c.hca.buildCompPlans slots.ubatches c.rsIdx
  let plansLid ← c.lid.buildCompPlans slots.ubatches c.rsIdx
  let sinfosComp ← slots.ubatches.mapM (buildCompSinfo c.nSeqMax)
  return ({ c with
      rsIdx := c.csa.resetRsIdx slots.ubatches c.rsIdx
      rsIdx_length := c.resetRsIdx_length c.csa slots.ubatches },
    ⟨slots.ubatches, slots.ubatchesRaw, slots.base, slots.swa, swaRead, plansCsa, plansHca, plansLid,
      sinfosComp⟩)

/-- One way of splitting the batch, up to the slots. -/
def splitSlots (b : BatchAllocr E) (call : SplitCall) :
    Except String (Cache × Option (RawSlots E)) :=
  match b.splitAll call (b.nTokens + 1) BatchAllocr.splitReset with
  | none => .error "assert"
  | some (st, ubs) => if st.marks.nUsed < b.nTokens then .ok (c, none) else c.findSlots ubs

def attempt (b : BatchAllocr E) (call : SplitCall) : Except String (Cache × Option (Context E)) := do
  let (c, slots) ← c.splitSlots b call
  match slots with
  | none => return (c, none)
  | some slots =>
    let (c, ctx) ← c.newContext slots
    return (c, some ctx)

/-- The splitter of the second attempt. -/
def seqCall (b : BatchAllocr E) (nUbatch : ℕ) : SplitCall :=
  if b.hasCoupled then .seq nUbatch
  else .equal nUbatch (c.rawPerSeq || c.compPerSeq) (if 0 < c.nRsSeq then c.nRsSeq + 1 else 0)

/-- The attempt with a simple split, if no state is per sequence. -/
def attemptSimple (b : BatchAllocr E) (nUbatch : ℕ) : Except String (Cache × Option (Context E)) :=
  if c.rawPerSeq || c.compPerSeq then .ok (c, none) else c.attempt b (.simple nUbatch)

/-- `none` for a context with `LLAMA_MEMORY_STATUS_FAILED_PREPARE`. -/
def initBatch (b : BatchAllocr E) (nUbatch : ℕ) : Except String (Cache × Option (Context E)) := do
  let (c, ctx) ← c.attemptSimple b nUbatch
  match ctx with
  | some ctx => return (c, some ctx)
  | none => c.attempt b (c.seqCall b nUbatch)

end Cache
end Dsv4
end RocmFpx

/-!
What is left of `rs_idx` behind `init_batch`. The ubatches of a context hold every token of the batch,
so that a context, applied or not, has used up the rollback of every sequence in the batch.
-/

namespace RocmFpx

/-! ## The ubatches of a whole batch -/

namespace BatchAllocr

variable {E : Type*} {b : BatchAllocr E} {call : SplitCall}

theorem split_emits_or_stays (hne : ∀ i < b.nTokens, b.seqSetAt i ≠ ∅) {st : SplitState}
    {r : SplitState × Ubatch E} (hpre : SetPrefix b st.marks.used)
    (hfresh : call.Fresh b st.marks.used) (hrun : b.split st call = some r) :
    r = (st, Ubatch.empty) ∨ ∃ idxs, Emits b st r idxs := by
  by_cases hall : ∀ i < b.nTokens, i ∈ st.marks.used
  · rw [split_done hall] at hrun
    exact .inl (Option.some.inj hrun).symm
  simp only [not_forall] at hall
  obtain ⟨i, hi, hunused⟩ := hall
  by_cases hsane : call.Sane b
  · obtain ⟨r', idxs, hrun', hr⟩ := split_emits hne hpre hsane hfresh ⟨i, hi, hunused⟩
    obtain rfl := Option.some.inj (hrun'.symm.trans hrun)
    exact .inr ⟨idxs, hr⟩
  · cases call with
    | simple => exact absurd trivial hsane
    | seq => exact absurd trivial hsane
    | equal nUbatch sequential nKeepTail =>
      by_cases hcpl : (sequential && b.hasCpl) = true
      · rw [split, splitEqual, if_pos hcpl] at hrun
        exact .inl (Option.some.inj hrun).symm
      -- the tail is not shorter than the ubatch, which fails an assertion
      have htail : 0 < nKeepTail ∧ ¬ nKeepTail < nUbatch := by
        by_contra hsmall
        refine hsane ⟨fun hseq => ?_, fun hpos => by_contra fun hlt => hsmall ⟨hpos, hlt⟩⟩
        simpa [hseq] using hcpl
      simp only [split, splitEqual, if_neg hcpl, if_pos htail.1, if_neg htail.2,
        Option.bind_fun_none] at hrun
      split_ifs at hrun
      exact .inl (Option.some.inj hrun).symm

/-- Simple splits use the tokens in order. -/
def Initial (call : SplitCall) (used : Finset ℕ) : Prop :=
  match call with
  | .simple _ => ∀ i j, i ≤ j → j ∈ used → i ∈ used
  | _ => True

theorem Initial.fresh {used : Finset ℕ} (h : Initial call used) : call.Fresh b used := by
  cases call with
  | simple nUbatch =>
    intro cur hcur i hi hmem
    exact (firstUnused_some hcur).2.1 (h cur i (mem_simpleIdxs.1 hi).1 hmem)
  | equal => trivial
  | seq => trivial

theorem Initial.next {st : SplitState} {r : SplitState × Ubatch E} (h : Initial call st.marks.used)
    (hrun : b.split st call = some r) : Initial call r.1.marks.used := by
  cases call with
  | simple nUbatch =>
    rw [split, splitSimple] at hrun
    cases hcur : b.firstUnused st.marks.used with
    | none =>
      simp only [hcur, Option.some.injEq] at hrun
      exact hrun ▸ h
    | some cur =>
      simp only [hcur, Option.some.injEq] at hrun
      subst hrun
      intro i j hij hj
      simp only [emit, Marks.foldl_set, Finset.mem_union, List.mem_toFinset, mem_simpleIdxs] at hj ⊢
      rcases hj with hj | hj
      · exact .inl (h i j hij hj)
      · by_cases hi : i < cur
        · exact .inl ((firstUnused_some hcur).2.2 i hi)
        · exact .inr (by omega)
  | equal => trivial
  | seq => trivial

theorem splitAll_logInv (hne : ∀ i < b.nTokens, b.seqSetAt i ≠ ∅) (fuel : ℕ) {st st' : SplitState}
    {ubs more : List (Ubatch E)} (h : LogInv b ⟨st, ubs⟩) (hinitial : Initial call st.marks.used)
    (hbusy : ∀ ub ∈ ubs, ub.nTokens ≠ 0)
    (hrun : b.splitAll call fuel st = some (st', more)) :
    LogInv b ⟨st', ubs ++ more⟩ ∧ ∀ ub ∈ ubs ++ more, ub.nTokens ≠ 0 := by
  induction fuel generalizing st ubs more with
  | zero => cases hrun
  | succ fuel ih =>
    rw [splitAll] at hrun
    obtain ⟨r, hsplit, hrest⟩ := Option.bind_eq_some_iff.mp hrun
    rcases split_emits_or_stays hne h.setPrefix hinitial.fresh hsplit with rfl | ⟨idxs, hr⟩
    · obtain ⟨rfl, rfl⟩ : st = st' ∧ [] = more := by simpa [Ubatch.empty] using hrest
      rw [List.append_nil]
      exact ⟨h, hbusy⟩
    · obtain ⟨nSeqs, equalSeqs, hub⟩ := hr.ubatch
      have hpos : r.2.nTokens ≠ 0 := by
        rw [hub]
        exact fun hzero => hr.ne_nil (List.length_eq_zero_iff.mp hzero)
      rw [if_neg hpos] at hrest
      obtain ⟨⟨st₂, more₂⟩, hrun₂, heq⟩ := Option.map_eq_some_iff.mp hrest
      obtain ⟨rfl, rfl⟩ := Prod.mk.inj heq
      have hbusy' : ∀ ub ∈ ubs ++ [r.2], ub.nTokens ≠ 0 := by
        intro ub hub
        rcases List.mem_append.mp hub with hub | hub
        · exact hbusy ub hub
        · exact List.mem_singleton.mp hub ▸ hpos
      have hnext := ih (h.emits hr) (hinitial.next hsplit) hbusy' hrun₂
      rwa [List.append_assoc] at hnext

theorem exists_seqIdAt_ubatchAdd {idxs : List ℕ} {nSeqs s : ℕ} {equalSeqs : Bool} :
    (∃ i < (b.ubatchAdd idxs nSeqs equalSeqs).nTokens,
      s ∈ (b.ubatchAdd idxs nSeqs equalSeqs).seqIdAt i) ↔ ∃ i ∈ idxs, s ∈ b.seqIdAt i := by
  have hseq : ∀ k < idxs.length, (b.ubatchAdd idxs nSeqs equalSeqs).seqIdAt k =
      b.seqIdAt (idxs.getD k 0) := by
    intro k hk
    simp [Ubatch.seqIdAt, ubatchAdd, List.getD_eq_getElem?_getD, hk]
  constructor
  · rintro ⟨k, hk, hs⟩
    rw [hseq k hk, List.getD_eq_getElem _ _ hk] at hs
    exact ⟨_, List.getElem_mem hk, hs⟩
  · rintro ⟨i, hi, hs⟩
    obtain ⟨k, hk, rfl⟩ := List.getElem_of_mem hi
    exact ⟨k, hk, by rwa [hseq k hk, List.getD_eq_getElem _ _ hk]⟩

theorem mem_seqsOf_splitAll (hne : ∀ i < b.nTokens, b.seqSetAt i ≠ ∅) {fuel : ℕ} {st : SplitState}
    {ubs : List (Ubatch E)} (hrun : b.splitAll call fuel splitReset = some (st, ubs))
    (hfull : b.nTokens ≤ st.marks.nUsed) {s : ℕ} :
    s ∈ Dsv4.seqsOf ubs ↔ ∃ i < b.nTokens, s ∈ b.seqIdAt i := by
  have hinitial : Initial call splitReset.marks.used := by
    cases call with
    | simple => exact fun i j _ hj => absurd hj (Finset.notMem_empty j)
    | equal => trivial
    | seq => trivial
  obtain ⟨hinv, hbusy⟩ := splitAll_logInv hne fuel startLog_inv hinitial
    (fun ub hub => absurd hub List.not_mem_nil) hrun
  rw [List.nil_append] at hinv hbusy
  have hmade : ∀ ub ∈ ubs, (∃ i < ub.nTokens, s ∈ ub.seqIdAt i) ↔
      ∃ i ∈ ub.batchIdxs, s ∈ b.seqIdAt i := by
    intro ub hub
    rcases hinv.made ub hub with ⟨rfl, -⟩ | ⟨idxs, nSeqs, equalSeqs, -, rfl⟩
    · exact absurd rfl (hbusy _ hub)
    · exact exists_seqIdAt_ubatchAdd
  have hused : (emitted ⟨st, ubs⟩).length = b.nTokens := by
    refine le_antisymm ?_ (hfull.trans_eq (congrArg Marks.nUsed hinv.marks))
    have hsub := (hinv.nodup.subperm fun i hi => List.mem_range.mpr (hinv.lt i hi)).length_le
    rwa [List.length_range] at hsub
  have hperm := (hinv.nodup.subperm fun i hi =>
    List.mem_range.mpr (hinv.lt i hi)).perm_of_length_le (by rw [hused, List.length_range])
  constructor
  · intro hs
    obtain ⟨ub, hub, hs⟩ := List.mem_flatMap.mp hs
    obtain ⟨i, hi, hs⟩ := List.mem_flatMap.mp hs
    obtain ⟨j, hj, hs⟩ := (hmade ub hub).mp ⟨i, List.mem_range.mp hi, hs⟩
    exact ⟨j, hinv.lt j (List.mem_flatMap.mpr ⟨ub, hub, hj⟩), hs⟩
  · rintro ⟨j, hj, hs⟩
    obtain ⟨ub, hub, hj⟩ := List.mem_flatMap.mp (hperm.mem_iff.mpr (List.mem_range.mpr hj))
    obtain ⟨i, hi, hs⟩ := (hmade ub hub).mpr ⟨j, hj, hs⟩
    exact List.mem_flatMap.mpr ⟨ub, hub, List.mem_flatMap.mpr ⟨i, List.mem_range.mpr hi, hs⟩⟩

end BatchAllocr

/-! ## What is reset -/

namespace Dsv4
namespace Cache

variable {E : Type} {c c' c₁ : Cache} {b : BatchAllocr E} {call : SplitCall}

/-- The same cache but for the raw caches. -/
def SameBut (c c' : Cache) : Prop := ∃ base swa, c' = { c with base := base, swa := swa }

theorem SameBut.rsIdx (h : SameBut c c') : c'.rsIdx = c.rsIdx := by
  obtain ⟨base, swa, rfl⟩ := h
  rfl

theorem SameBut.csa (h : SameBut c c') : c'.csa = c.csa := by
  obtain ⟨base, swa, rfl⟩ := h
  rfl

theorem SameBut.seqCall (h : SameBut c c') (nUbatch : ℕ) :
    c'.seqCall b nUbatch = c.seqCall b nUbatch := by
  obtain ⟨base, swa, rfl⟩ := h
  rfl

theorem findSlots_spec {ubs : List (Ubatch E)} {r : Option (RawSlots E)}
    (hrun : c.findSlots ubs = .ok (c', r)) :
    SameBut c c' ∧ ∀ slots, r = some slots → slots.ubatches = ubs := by
  obtain ⟨ubsRaw, -, hrun⟩ := Fallible.bind_eq_ok.1 hrun
  obtain ⟨⟨base, baseWrite⟩, -, hrun⟩ := Fallible.bind_eq_ok.1 hrun
  dsimp only at hrun
  split_ifs at hrun
  · obtain ⟨rfl, rfl⟩ := Prod.mk.inj (Except.ok.inj hrun)
    exact ⟨⟨base, c.swa, rfl⟩, fun slots h => nomatch h⟩
  obtain ⟨⟨swa, swaWrite⟩, -, hrun⟩ := Fallible.bind_eq_ok.1 hrun
  dsimp only at hrun
  split_ifs at hrun
  · obtain ⟨rfl, rfl⟩ := Prod.mk.inj (Except.ok.inj hrun)
    exact ⟨⟨base, swa, rfl⟩, fun slots h => nomatch h⟩
  · obtain ⟨rfl, rfl⟩ := Prod.mk.inj (Except.ok.inj hrun)
    exact ⟨⟨base, swa, rfl⟩, fun slots h => Option.some.inj h ▸ rfl⟩

theorem newContext_spec {slots : RawSlots E} {ctx : Context E}
    (hrun : c.newContext slots = .ok (c', ctx)) :
    c'.rsIdx = c.csa.resetRsIdx slots.ubatches c.rsIdx := by
  obtain ⟨swaRead, -, hrun⟩ := Fallible.bind_eq_ok.1 hrun
  obtain ⟨plansCsa, -, hrun⟩ := Fallible.bind_eq_ok.1 hrun
  obtain ⟨plansHca, -, hrun⟩ := Fallible.bind_eq_ok.1 hrun
  obtain ⟨plansLid, -, hrun⟩ := Fallible.bind_eq_ok.1 hrun
  obtain ⟨sinfosComp, -, hrun⟩ := Fallible.bind_eq_ok.1 hrun
  exact congrArg (fun x : Cache × Context E => x.1.rsIdx) (Except.ok.inj hrun).symm

theorem splitSlots_spec (hne : ∀ i < b.nTokens, b.seqSetAt i ≠ ∅) {r : Option (RawSlots E)}
    (hrun : c.splitSlots b call = .ok (c', r)) :
    SameBut c c' ∧ ∀ slots, r = some slots →
      ∀ s, s ∈ seqsOf slots.ubatches ↔ ∃ i < b.nTokens, s ∈ b.seqIdAt i := by
  rw [splitSlots] at hrun
  cases hsplit : b.splitAll call (b.nTokens + 1) BatchAllocr.splitReset with
  | none =>
    rw [hsplit] at hrun
    cases hrun
  | some x =>
    obtain ⟨st, ubs⟩ := x
    simp only [hsplit] at hrun
    split_ifs at hrun with hfull
    · obtain ⟨rfl, rfl⟩ := Prod.mk.inj (Except.ok.inj hrun)
      exact ⟨⟨c.base, c.swa, rfl⟩, fun slots h => nomatch h⟩
    · obtain ⟨hsame, hubs⟩ := findSlots_spec hrun
      refine ⟨hsame, fun slots h s => ?_⟩
      rw [hubs slots h]
      exact BatchAllocr.mem_seqsOf_splitAll hne hsplit (not_lt.mp hfull)

theorem attempt_spec (hne : ∀ i < b.nTokens, b.seqSetAt i ≠ ∅) {ctx : Option (Context E)}
    (hrun : c.attempt b call = .ok (c', ctx)) :
    (ctx = none ∧ c.splitSlots b call = .ok (c', none) ∧ SameBut c c') ∨
      (ctx.isSome = true ∧ (∀ c₁, c.splitSlots b call ≠ .ok (c₁, none)) ∧
        ∃ ubs : List (Ubatch E), (∀ s, s ∈ seqsOf ubs ↔ ∃ i < b.nTokens, s ∈ b.seqIdAt i) ∧
          c'.rsIdx = c.csa.resetRsIdx ubs c.rsIdx) := by
  obtain ⟨⟨c₁, slots⟩, hslots, hrun⟩ := Fallible.bind_eq_ok.1 hrun
  obtain ⟨hsame, hcover⟩ := splitSlots_spec hne hslots
  cases slots with
  | none =>
    obtain ⟨rfl, rfl⟩ := Prod.mk.inj (Except.ok.inj hrun)
    exact .inl ⟨rfl, hslots, hsame⟩
  | some slots =>
    obtain ⟨⟨c₂, ctx₂⟩, hnew, hrun⟩ := Fallible.bind_eq_ok.1 hrun
    obtain ⟨rfl, rfl⟩ := Prod.mk.inj (Except.ok.inj hrun)
    refine .inr ⟨rfl, fun c₃ h => ?_, slots.ubatches, hcover slots rfl, ?_⟩
    · rw [hslots] at h
      cases h
    · rw [newContext_spec hnew, hsame.csa, hsame.rsIdx]

/-- The first attempt, if there is one, leads to no slots and leaves `c₁`. -/
def SimpleFails (c : Cache) (b : BatchAllocr E) (nUbatch : ℕ) (c₁ : Cache) : Prop :=
  if c.rawPerSeq || c.compPerSeq then c₁ = c
  else c.splitSlots b (.simple nUbatch) = .ok (c₁, none)

/-- Neither way of splitting the batch leads to slots in both raw caches. The second one is tried on
the raw caches that the first one leaves. -/
def FindsNoSlots (c : Cache) (b : BatchAllocr E) (nUbatch : ℕ) : Prop :=
  ∃ c₁ c₂, c.SimpleFails b nUbatch c₁ ∧ c₁.splitSlots b (c.seqCall b nUbatch) = .ok (c₂, none)

/-- What an accepted batch does to `rs_idx`. -/
def Outcome (c : Cache) (b : BatchAllocr E) (nUbatch : ℕ) (c' : Cache) : Prop :=
  (c.FindsNoSlots b nUbatch ∧ c'.rsIdx = c.rsIdx) ∨
    (¬ c.FindsNoSlots b nUbatch ∧ ∃ ubs : List (Ubatch E),
      (∀ s, s ∈ seqsOf ubs ↔ ∃ i < b.nTokens, s ∈ b.seqIdAt i) ∧
        c'.rsIdx = c.csa.resetRsIdx ubs c.rsIdx)

theorem second_outcome (hne : ∀ i < b.nTokens, b.seqSetAt i ≠ ∅) {nUbatch : ℕ}
    {ctx : Option (Context E)} (hsame : SameBut c c₁)
    (hfails : ∀ c₂, c.SimpleFails b nUbatch c₂ ↔ c₂ = c₁)
    (hrun : c₁.attempt b (c.seqCall b nUbatch) = .ok (c', ctx)) : c.Outcome b nUbatch c' := by
  rcases attempt_spec hne hrun with ⟨-, hslots, hsame'⟩ | ⟨-, hslots, ubs, hcover, hreset⟩
  · exact .inl ⟨⟨c₁, c', (hfails c₁).mpr rfl, hslots⟩, hsame'.rsIdx.trans hsame.rsIdx⟩
  · refine .inr ⟨?_, ubs, hcover, by rw [hreset, hsame.csa, hsame.rsIdx]⟩
    rintro ⟨c₂, c₃, hc₂, hnone⟩
    rw [(hfails c₂).mp hc₂] at hnone
    exact hslots c₃ hnone

theorem initBatch_outcome (hne : ∀ i < b.nTokens, b.seqSetAt i ≠ ∅) {nUbatch : ℕ}
    {ctx : Option (Context E)} (hrun : c.initBatch b nUbatch = .ok (c', ctx)) :
    c.Outcome b nUbatch c' := by
  obtain ⟨⟨c₁, ctx₁⟩, hfirst, hrun⟩ := Fallible.bind_eq_ok.1 hrun
  by_cases hper : (c.rawPerSeq || c.compPerSeq) = true
  · rw [attemptSimple, if_pos hper] at hfirst
    obtain ⟨rfl, rfl⟩ := Prod.mk.inj (Except.ok.inj hfirst)
    refine second_outcome hne ⟨c.base, c.swa, rfl⟩ (fun c₂ => ?_) hrun
    rw [SimpleFails, if_pos hper]
  · rw [attemptSimple, if_neg hper] at hfirst
    rcases attempt_spec hne hfirst with ⟨rfl, hslots, hsame⟩ | ⟨hsome, hslots, ubs, hcover, hreset⟩
    · refine second_outcome hne hsame (fun c₂ => ?_)
        (by rw [← hsame.seqCall nUbatch]; exact hrun)
      rw [SimpleFails, if_neg hper, hslots]
      exact ⟨fun h => (Prod.mk.inj (Except.ok.inj h)).1.symm, fun h => h ▸ rfl⟩
    · obtain ⟨ctx₁, rfl⟩ := Option.isSome_iff_exists.mp hsome
      obtain ⟨rfl, rfl⟩ := Prod.mk.inj (Except.ok.inj hrun)
      refine .inr ⟨?_, ubs, hcover, hreset⟩
      rintro ⟨c₂, c₃, hc₂, -⟩
      rw [SimpleFails, if_neg hper] at hc₂
      exact hslots c₂ hc₂

/-- A returned context leaves the pending rollbacks alone exactly if there is nothing to reset. -/
theorem initBatch_keeps_rsIdx_iff [Zero E] {inp : BatchExt E} {nPosPerEmbd : ℕ}
    {allowMixed outputAll : Bool}
    (hinit : BatchAllocr.init nPosPerEmbd allowMixed inp outputAll = some b) {nUbatch : ℕ}
    {ctx : Option (Context E)} (hrun : c.initBatch b nUbatch = .ok (c', ctx)) :
    (∀ s, c'.rsIdx.getD s 0 = c.rsIdx.getD s 0) ↔
      c.nRsSeq = 0 ∨ c.FindsNoSlots b nUbatch ∨
        ∀ t ∈ inp.tokens, ∀ s ∈ t.seqIds, c.rsIdx.getD s 0 = 0 := by
  have hp := BatchAllocr.init_prepared hinit
  have hseqs : ∀ s, (∃ i < b.nTokens, s ∈ b.seqIdAt i) ↔ ∃ t ∈ inp.tokens, s ∈ t.seqIds := by
    intro s
    rw [hp.nTokens, BatchExt.nTok]
    constructor
    · rintro ⟨i, hi, hs⟩
      refine ⟨inp.tokens[i], List.getElem_mem hi, ?_⟩
      rwa [BatchAllocr.seqIdAt, hp.seqId, List.getD_eq_getElem _ _ (by rwa [List.length_map]),
        List.getElem_map] at hs
    · rintro ⟨t, ht, hs⟩
      obtain ⟨i, hi, rfl⟩ := List.getElem_of_mem ht
      refine ⟨i, hi, ?_⟩
      rwa [BatchAllocr.seqIdAt, hp.seqId, List.getD_eq_getElem _ _ (by rwa [List.length_map]),
        List.getElem_map]
  rcases initBatch_outcome (fun i hi => hp.seqSetAt_ne hi) hrun with ⟨hnone, hsame⟩ |
    ⟨hsome, ubs, hcover, hreset⟩
  · exact iff_of_true (fun s => by rw [hsame]) (.inr (.inl hnone))
  have hnRs : c.csa.nRsSeq = c.nRsSeq := rfl
  rw [hreset, Layout.resetRsIdx, hnRs]
  by_cases hrs : c.nRsSeq = 0
  · rw [if_pos hrs]
    exact iff_of_true (fun s => rfl) (.inl hrs)
  rw [if_neg hrs]
  have hget : ∀ s, ((seqsOf ubs).foldl (fun rs s => rs.set s 0) c.rsIdx).getD s 0 =
      if ∃ t ∈ inp.tokens, s ∈ t.seqIds then 0 else c.rsIdx.getD s 0 := by
    intro s
    rw [foldl_set_getD]
    exact if_congr ((hcover s).trans (hseqs s)) rfl rfl
  constructor
  · intro hkept
    refine .inr (.inr fun t ht s hs => ?_)
    rw [← hkept s]
    exact (hget s).trans (if_pos ⟨t, ht, hs⟩)
  · rintro (h | h | h) s
    · exact absurd h hrs
    · exact absurd h hsome
    · refine (hget s).trans ?_
      split_ifs with hmem
      · obtain ⟨t, ht, hs⟩ := hmem
        exact (h t ht s hs).symm
      · rfl

/-! ## One pending rollback -/

/-- A single stream of eight cells. -/
def eightCells : KvParams where
  nSeqMax := 1
  nStream := 1
  kvSize := 8
  nSwa := 0
  swaType := .none
  nPosPerEmbd := 1
  pleNHeads := 0
  pleImageTokenId := 0
  pleEosTokenId := 0
  archStep35 := false
  hasRope := true
  stream_cases := KvParams.oneStream_cases
  seqMax_pos := Nat.one_pos
  seqMax_le := KvParams.one_le_llamaMaxSeq

/-- Position 0 is decoded, and position 1 has been rolled back. -/
def rolledBack : Cache where
  nCtx := 8
  nSeqMax := 1
  nRsSeq := 1
  baseParams := eightCells
  swaParams := eightCells
  base := KvCache.applyUbatch eightCells (KvCache.init eightCells) ⟨0, 0, [(0, [0])]⟩
    (KvCache.oneToken 0 0)
  swa := KvCache.applyUbatch eightCells (KvCache.init eightCells) ⟨0, 0, [(0, [0])]⟩
    (KvCache.oneToken 0 0)
  rsIdx := [1]
  rsIdx_length := rfl

/-- The token at position 1. -/
def nextToken : BatchExt ℤ where
  nEmbdInp := 1
  nEmbdState := 0
  nSeqMax := 1
  mem := some ⟨fun _ => 0, fun _ => 0⟩
  nVocab := 10
  nEmbd := 0
  tokens := [BatchAllocr.wordToken [0] 1 BatchAllocr.zero_ne BatchAllocr.zero_nodup]
  embd := []
  state := []
  embd_length := BatchAllocr.meetingAgain.embd_length
  embd_fits := by decide

def nextBatch : BatchAllocr ℤ := (BatchAllocr.init 1 false nextToken false).get (by decide)

theorem init_nextToken : BatchAllocr.init 1 false nextToken false = some nextBatch :=
  (Option.some_get _).symm

theorem initBatch_rolledBack : ∃ c' ctx, rolledBack.initBatch nextBatch 512 = .ok (c', ctx) ∧
    c'.rsIdx = [0] ∧ ctx.isSome = true := by
  have hread : (rolledBack.initBatch nextBatch 512).toOption.map
      (fun r => (r.1.rsIdx, r.2.isSome)) = some ([0], true) := by decide +kernel
  cases hrun : rolledBack.initBatch nextBatch 512 with
  | error e =>
    rw [hrun] at hread
    cases hread
  | ok r =>
    rw [hrun] at hread
    obtain ⟨hrs, hsome⟩ := Prod.mk.inj (Option.some.inj hread)
    exact ⟨r.1, r.2, rfl, hrs, hsome⟩

theorem initBatch_consumes_rollback : ¬ ∀ (c c' : Cache) (inp : BatchExt ℤ) (b : BatchAllocr ℤ)
    (nUbatch : ℕ) (ctx : Option (Context ℤ)), BatchAllocr.init 1 false inp false = some b →
    c.initBatch b nUbatch = .ok (c', ctx) → ∀ s, c'.rsIdx.getD s 0 = c.rsIdx.getD s 0 := by
  intro hall
  obtain ⟨c', ctx, hrun, hrs, -⟩ := initBatch_rolledBack
  have hkept := hall rolledBack c' nextToken nextBatch 512 ctx init_nextToken hrun 0
  rw [hrs] at hkept
  exact absurd hkept (by decide)

theorem initBatch_keeps_rsIdx_rolledBack : ∃ (c' : Cache) (_ : Option (Context ℤ)),
    (∀ s, c'.rsIdx.getD s 0 = rolledBack.rsIdx.getD s 0) ↔
      rolledBack.nRsSeq = 0 ∨ rolledBack.FindsNoSlots nextBatch 512 ∨
        ∀ t ∈ nextToken.tokens, ∀ s ∈ t.seqIds, rolledBack.rsIdx.getD s 0 = 0 := by
  obtain ⟨c', ctx, hrun, -, -⟩ := initBatch_rolledBack
  exact ⟨c', ctx, initBatch_keeps_rsIdx_iff init_nextToken hrun⟩

end Cache
end Dsv4
end RocmFpx
