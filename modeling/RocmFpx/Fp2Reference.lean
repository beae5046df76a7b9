import RocmFpx.FpxLayout
import RocmFpx.LeastScan

/-!
The frozen FP2 reference: one loop over all 127 scale bytes for each group of 16 weights,
and in it one of two code selectors. The first one tries all four codes; the other one
decides between the magnitudes by one comparison and takes the sign of the source.
-/

namespace RocmFpx.Fp2Reference

open Fpx

structure Codebook where
  inner : ℕ
  outer : ℕ

inductive Mapping where
  | mord
  | msm

inductive Status where
  | invalidCodebook
  | invalidScaleMetadata
  | invalidCode
deriving DecidableEq

/-- The data bytes and the scale bytes of 32 weights. -/
structure Block where
  d : Fin 8 → BitVec 8
  s : Fin 2 → BitVec 8
deriving DecidableEq

def codebookIsValid (cb : Codebook) : Prop := cb.inner > 0 ∧ cb.outer > cb.inner ∧ cb.outer ≤ 127

instance (cb : Codebook) : Decidable (codebookIsValid cb) := instDecidableAnd

def scaleIsValid (scaleByte : BitVec 8) : Prop := scaleByte ≤ 0x7e

instance (scaleByte : BitVec 8) : Decidable (scaleIsValid scaleByte) :=
  inferInstanceAs (Decidable (scaleByte ≤ 0x7e))

def decodeScaleValid (scaleByte : BitVec 8) : ℚ :=
  let exponent := (scaleByte >>> 3).toNat
  let mantissa := (scaleByte &&& 7).toNat
  if exponent = 0 then mantissa * 2 ^ (-10 : ℤ)
  else (8 + mantissa : ℕ) * 2 ^ ((exponent : ℤ) - 11)

def decodeCodeValid (code : BitVec 8) (cb : Codebook) (mapping : Mapping) : ℤ :=
  match mapping with
  | .mord =>
    let magnitude : ℤ := if code = 0 ∨ code = 3 then cb.outer else cb.inner
    [-1, -1, 1, 1].getD code.toNat 0 * magnitude
  | .msm =>
    let magnitude : ℤ := if code = 1 ∨ code = 3 then cb.outer else cb.inner
    [1, 1, -1, -1].getD code.toNat 0 * magnitude

def encodeSemanticValid (negative outer : Bool) (mapping : Mapping) : BitVec 8 :=
  match mapping with
  | .mord => if negative then (if outer then 0 else 1) else (if outer then 3 else 2)
  | .msm => if negative then (if outer then 3 else 2) else (if outer then 1 else 0)

/-- Lower ranks implement the frozen semantic tie rules. -/
def codeTieRank (code : BitVec 8) (sourceNegative : Bool) (cb : Codebook) (mapping : Mapping) :
    ℕ :=
  let value := decodeCodeValid code cb mapping
  let codeNegative : Bool := decide (value < 0)
  let outer : Bool := decide (value.natAbs = cb.outer)
  (if outer then 2 else 0) + if codeNegative ≠ sourceNegative then 1 else 0

def codeError (source scale : ℚ) (cb : Codebook) (mapping : Mapping) (code : BitVec 8) : ℚ :=
  let delta := source - decodeCodeValid code cb mapping * scale
  delta * delta

def selectCodeRefValid (source scale : ℚ) (cb : Codebook) (mapping : Mapping) : BitVec 8 :=
  if scale = 0 then 0
  else
    let sourceNegative : Bool := decide (source < 0)
    (scanBest (codeError source scale cb mapping)
      (fun code => codeTieRank code sourceNegative cb mapping) [0, 1, 2, 3]).getD 0

def selectCodeOptimizedValid (source scale : ℚ) (cb : Codebook) (mapping : Mapping) : BitVec 8 :=
  if scale = 0 then 0
  else
    let magnitude := |source|
    let innerDelta := magnitude - cb.inner * scale
    let outerDelta := magnitude - cb.outer * scale
    let outer : Bool := decide (outerDelta * outerDelta < innerDelta * innerDelta)
    encodeSemanticValid (decide (source < 0)) outer mapping

def selectCodeRef (source : ℚ) (scaleByte : BitVec 8) (cb : Codebook) (mapping : Mapping) :
    Except Status (BitVec 8) :=
  if ¬ codebookIsValid cb then .error .invalidCodebook
  else if ¬ scaleIsValid scaleByte then .error .invalidScaleMetadata
  else .ok (selectCodeRefValid source (decodeScaleValid scaleByte) cb mapping)

def selectCodeOptimized (source : ℚ) (scaleByte : BitVec 8) (cb : Codebook) (mapping : Mapping) :
    Except Status (BitVec 8) :=
  if ¬ codebookIsValid cb then .error .invalidCodebook
  else if ¬ scaleIsValid scaleByte then .error .invalidScaleMetadata
  else .ok (selectCodeOptimizedValid source (decodeScaleValid scaleByte) cb mapping)

/-! ## Packing -/

def packCodes (codes : ℕ → BitVec 8) (scales : Fin 2 → BitVec 8) : Except Status Block :=
  if ¬ scaleIsValid (scales 0) ∨ ¬ scaleIsValid (scales 1) then .error .invalidScaleMetadata
  else if (List.range 32).any fun i => codes i > 3 then .error .invalidCode
  else .ok ⟨fun packed => fp2Pack codes packed, scales⟩

def unpackCodes (block : Block) : ℕ → BitVec 8 :=
  fp2Unpack fun i => if h : i < 8 then block.d ⟨i, h⟩ else 0

def validateBlock (block : Block) : Prop := scaleIsValid (block.s 0) ∧ scaleIsValid (block.s 1)

instance (block : Block) : Decidable (validateBlock block) := instDecidableAnd

/-! ## The quantizers -/

structure Candidate where
  scaleByte : BitVec 8
  codes : ℕ → BitVec 8
  sse : ℚ

/-- The squared error of 16 weights under a choice of codes. -/
def groupSse (source : ℕ → ℚ) (scale : ℚ) (cb : Codebook) (mapping : Mapping)
    (codes : ℕ → BitVec 8) : ℚ :=
  ((List.range 16).map fun i => codeError (source i) scale cb mapping (codes i)).sum

/-- The candidate of one scale byte for 16 weights. -/
def candidate (selector : ℚ → ℚ → Codebook → Mapping → BitVec 8) (source : ℕ → ℚ)
    (cb : Codebook) (mapping : Mapping) (scaleIndex : ℕ) : Candidate :=
  let scaleByte := BitVec.ofNat 8 scaleIndex
  let scale := decodeScaleValid scaleByte
  let codes := fun i => selector (source i) scale cb mapping
  ⟨scaleByte, codes, groupSse source scale cb mapping codes⟩

def bestCandidate (selector : ℚ → ℚ → Codebook → Mapping → BitVec 8) (source : ℕ → ℚ)
    (cb : Codebook) (mapping : Mapping) : Candidate :=
  (scanBest Candidate.sse (fun c => c.scaleByte.toNat)
    ((List.range (0x7e + 1)).map (candidate selector source cb mapping))).getD ⟨0, fun _ => 0, 0⟩

/-- The block and the errors of its groups. -/
def quantizeBlockImpl (selector : ℚ → ℚ → Codebook → Mapping → BitVec 8) (source : ℕ → ℚ)
    (cb : Codebook) (mapping : Mapping) : Except Status (Block × (Fin 2 → ℚ)) :=
  if ¬ codebookIsValid cb then .error .invalidCodebook
  else
    let best := fun group : ℕ =>
      bestCandidate selector (fun i => source (group * 16 + i)) cb mapping
    (packCodes (fun i => (best (i / 16)).codes (i % 16)) fun group => (best group).scaleByte).map
      fun block => (block, fun group => (best group).sse)

def quantizeBlockRef (source : ℕ → ℚ) (cb : Codebook) (mapping : Mapping) :
    Except Status (Block × (Fin 2 → ℚ)) :=
  quantizeBlockImpl selectCodeRefValid source cb mapping

def quantizeBlockOptimized (source : ℕ → ℚ) (cb : Codebook) (mapping : Mapping) :
    Except Status (Block × (Fin 2 → ℚ)) :=
  quantizeBlockImpl selectCodeOptimizedValid source cb mapping

def dequantizeBlock (block : Block) (cb : Codebook) (mapping : Mapping) :
    Except Status (ℕ → ℚ) :=
  if ¬ codebookIsValid cb then .error .invalidCodebook
  else if ¬ validateBlock block then .error .invalidScaleMetadata
  else .ok fun i =>
    decodeCodeValid (unpackCodes block i) cb mapping *
      decodeScaleValid (block.s (if i / 16 = 0 then 0 else 1))

/-! ## Codes by their sign and magnitude -/

variable {cb : Codebook} {mapping : Mapping}

/-- The value of a sign and a magnitude. -/
def semanticValue (cb : Codebook) (negative outer : Bool) : ℤ :=
  let magnitude : ℤ := if outer then cb.outer else cb.inner
  if negative then -magnitude else magnitude

theorem decode_encode (negative outer : Bool) :
    decodeCodeValid (encodeSemanticValid negative outer mapping) cb mapping =
      semanticValue cb negative outer := by
  cases mapping <;> cases negative <;> cases outer <;>
    simp [decodeCodeValid, encodeSemanticValid, semanticValue]

theorem encode_mem (negative outer : Bool) :
    encodeSemanticValid negative outer mapping ∈ ([0, 1, 2, 3] : List (BitVec 8)) := by
  cases mapping <;> cases negative <;> cases outer <;> decide

theorem exists_encode {code : BitVec 8} (hcode : code ∈ ([0, 1, 2, 3] : List (BitVec 8)))
    (mapping : Mapping) : ∃ negative outer, encodeSemanticValid negative outer mapping = code := by
  have hall : ∀ code ∈ ([0, 1, 2, 3] : List (BitVec 8)),
      (∃ negative outer, encodeSemanticValid negative outer .mord = code) ∧
        ∃ negative outer, encodeSemanticValid negative outer .msm = code := by decide
  cases mapping with
  | mord => exact (hall code hcode).1
  | msm => exact (hall code hcode).2

theorem codeTieRank_encode (hcb : codebookIsValid cb) (negative outer sourceNegative : Bool) :
    codeTieRank (encodeSemanticValid negative outer mapping) sourceNegative cb mapping =
      (if outer then 2 else 0) + if negative ≠ sourceNegative then 1 else 0 := by
  obtain ⟨hinner, houter, -⟩ := hcb
  have hneg : decide (semanticValue cb negative outer < 0) = negative := by
    cases negative <;> cases outer <;> simp [semanticValue] <;> omega
  have hout : decide ((semanticValue cb negative outer).natAbs = cb.outer) = outer := by
    cases negative <;> cases outer <;> simp [semanticValue] <;> omega
  rw [codeTieRank, decode_encode, hneg, hout]

end RocmFpx.Fp2Reference

/-!
The two selectors of the reference choose the same code, the only one with the least
error and rank, and so the two quantizers agree. Their block has the least error over all
scale bytes and all codes.
-/

namespace RocmFpx.Fp2Reference

open Fpx

variable {cb : Codebook} {mapping : Mapping}

/-! ## Selectors -/

/-- The magnitude of an outer or inner code. -/
def semanticMagnitude (cb : Codebook) (outer : Bool) : ℚ := if outer then cb.outer else cb.inner

theorem semanticMagnitude_nonneg (cb : Codebook) (outer : Bool) :
    0 ≤ semanticMagnitude cb outer := by
  cases outer <;> exact Nat.cast_nonneg _

theorem codeError_encode (source scale : ℚ) (negative outer : Bool) :
    codeError source scale cb mapping (encodeSemanticValid negative outer mapping) =
      if negative = decide (source < 0) then (|source| - semanticMagnitude cb outer * scale) ^ 2
      else (|source| + semanticMagnitude cb outer * scale) ^ 2 := by
  have hvalue : (semanticValue cb negative outer : ℚ) =
      if negative then -semanticMagnitude cb outer else semanticMagnitude cb outer := by
    cases negative <;> cases outer <;> simp [semanticValue, semanticMagnitude]
  rw [codeError, decode_encode, hvalue]
  by_cases hneg : source < 0
  · rw [abs_of_neg hneg]
    cases negative <;> simp only [hneg, decide_true, Bool.false_eq_true, if_true, if_false] <;> ring
  · rw [abs_of_nonneg (not_lt.mp hneg)]
    cases negative <;> simp only [hneg, decide_false, Bool.false_eq_true, if_true, if_false,
      Bool.true_eq_false] <;> ring

/-- The optimized choice of the magnitude. -/
def choosesOuter (source scale : ℚ) (cb : Codebook) : Bool :=
  decide ((|source| - cb.outer * scale) * (|source| - cb.outer * scale) <
    (|source| - cb.inner * scale) * (|source| - cb.inner * scale))

theorem choosesOuter_spec (source scale : ℚ) (cb : Codebook) (outer : Bool)
    (hne : outer ≠ choosesOuter source scale cb) :
    (|source| - semanticMagnitude cb (choosesOuter source scale cb) * scale) ^ 2 <
        (|source| - semanticMagnitude cb outer * scale) ^ 2 ∨
      (|source| - semanticMagnitude cb (choosesOuter source scale cb) * scale) ^ 2 =
          (|source| - semanticMagnitude cb outer * scale) ^ 2 ∧
        choosesOuter source scale cb = false := by
  by_cases hlt : (|source| - cb.outer * scale) * (|source| - cb.outer * scale) <
      (|source| - cb.inner * scale) * (|source| - cb.inner * scale)
  · have hchosen : choosesOuter source scale cb = true := decide_eq_true hlt
    obtain rfl : outer = false := by simpa [hchosen] using hne
    rw [hchosen]
    simp only [semanticMagnitude, if_true, Bool.false_eq_true, if_false]
    exact .inl (by linarith)
  · have hchosen : choosesOuter source scale cb = false := decide_eq_false hlt
    obtain rfl : outer = true := by simpa [hchosen] using hne
    rw [hchosen]
    simp only [semanticMagnitude, if_true, Bool.false_eq_true, if_false, and_true]
    rcases (not_lt.mp hlt).lt_or_eq with hlt | heq
    · exact .inl (by linarith)
    · exact .inr (by linarith)

theorem mismatch_le (source : ℚ) {scale m : ℚ} (hscale : 0 ≤ scale) (hm : 0 ≤ m) :
    (|source| - m * scale) ^ 2 ≤ (|source| + m * scale) ^ 2 := by
  have hms : 0 ≤ m * scale := mul_nonneg hm hscale
  have habs := abs_nonneg source
  nlinarith [mul_nonneg habs hms]

theorem optimized_beats (hcb : codebookIsValid cb) (source : ℚ) {scale : ℚ} (hscale : 0 ≤ scale)
    {code : BitVec 8} (hcode : code ∈ ([0, 1, 2, 3] : List (BitVec 8)))
    (hne : code ≠ encodeSemanticValid (decide (source < 0)) (choosesOuter source scale cb)
      mapping) :
    codeError source scale cb mapping (encodeSemanticValid (decide (source < 0))
        (choosesOuter source scale cb) mapping) < codeError source scale cb mapping code ∨
      codeError source scale cb mapping (encodeSemanticValid (decide (source < 0))
          (choosesOuter source scale cb) mapping) = codeError source scale cb mapping code ∧
        codeTieRank (encodeSemanticValid (decide (source < 0)) (choosesOuter source scale cb)
            mapping) (decide (source < 0)) cb mapping <
          codeTieRank code (decide (source < 0)) cb mapping := by
  obtain ⟨negative, outer, rfl⟩ := exists_encode hcode mapping
  rw [codeError_encode, codeError_encode, codeTieRank_encode hcb, codeTieRank_encode hcb,
    if_pos rfl]
  have hmismatch := mismatch_le source hscale (semanticMagnitude_nonneg cb outer)
  by_cases hsign : negative = decide (source < 0)
  · -- the other magnitude with the sign of the source
    subst hsign
    have houter : outer ≠ choosesOuter source scale cb := fun h => hne (by rw [h])
    rw [if_pos rfl]
    rcases choosesOuter_spec source scale cb outer houter with hlt | ⟨heq, hinner⟩
    · exact .inl hlt
    · obtain rfl : outer = true := by simpa [hinner] using houter
      exact .inr ⟨heq, by simp [hinner]⟩
  · rw [if_neg hsign]
    by_cases houter : outer = choosesOuter source scale cb
    · subst houter
      rcases hmismatch.lt_or_eq with hlt | heq
      · exact .inl hlt
      · exact .inr ⟨heq, by simp [hsign]⟩
    · rcases choosesOuter_spec source scale cb outer houter with hlt | ⟨heq, hinner⟩
      · exact .inl (hlt.trans_le hmismatch)
      · obtain rfl : outer = true := by simpa [hinner] using houter
        rcases hmismatch.lt_or_eq with hlt | heq'
        · exact .inl (heq.trans_lt hlt)
        · exact .inr ⟨heq.trans heq', by simp [hinner]⟩

theorem selectCode_eq (hcb : codebookIsValid cb) (source : ℚ) {scale : ℚ} (hscale : 0 ≤ scale) :
    selectCodeOptimizedValid source scale cb mapping =
      selectCodeRefValid source scale cb mapping := by
  rw [selectCodeOptimizedValid, selectCodeRefValid]
  split_ifs
  · rfl
  · have hbest : scanBest (codeError source scale cb mapping)
        (fun code => codeTieRank code (decide (source < 0)) cb mapping) [0, 1, 2, 3] =
          some (encodeSemanticValid (decide (source < 0)) (choosesOuter source scale cb) mapping) :=
      scanBest_eq_some (encode_mem _ _)
        fun code hcode hne => optimized_beats hcb source hscale hcode hne
    dsimp only
    rw [hbest]
    rfl

theorem selectCode_mem (source scale : ℚ) :
    selectCodeOptimizedValid source scale cb mapping ∈ ([0, 1, 2, 3] : List (BitVec 8)) := by
  rw [selectCodeOptimizedValid]
  split_ifs
  · exact List.mem_cons_self
  · exact encode_mem _ _

theorem codeError_selectCode_le (hcb : codebookIsValid cb) (source : ℚ) {scale : ℚ}
    (hscale : 0 ≤ scale) {code : BitVec 8} (hcode : code ∈ ([0, 1, 2, 3] : List (BitVec 8))) :
    codeError source scale cb mapping (selectCodeOptimizedValid source scale cb mapping) ≤
      codeError source scale cb mapping code := by
  rw [selectCodeOptimizedValid]
  split_ifs with hzero
  · simp only [codeError, hzero, mul_zero, le_refl]
  · by_cases hsame : code = encodeSemanticValid (decide (source < 0))
        (choosesOuter source scale cb) mapping
    · rw [hsame]
      exact le_rfl
    · rcases optimized_beats hcb source hscale hcode hsame with hlt | ⟨heq, -⟩
      · exact hlt.le
      · exact heq.le

/-! ## Scale bytes -/

theorem decodeScaleValid_nonneg (scaleByte : BitVec 8) : 0 ≤ decodeScaleValid scaleByte := by
  unfold decodeScaleValid
  dsimp only
  split_ifs <;> positivity

theorem selectors_eq (hcb : codebookIsValid cb) (source : ℚ) (scaleByte : BitVec 8) :
    selectCodeOptimized source scaleByte cb mapping = selectCodeRef source scaleByte cb mapping := by
  rw [selectCodeOptimized, selectCodeRef,
    selectCode_eq hcb source (decodeScaleValid_nonneg scaleByte)]

theorem candidate_eq (hcb : codebookIsValid cb) (source : ℕ → ℚ) :
    candidate selectCodeOptimizedValid source cb mapping =
      candidate selectCodeRefValid source cb mapping := by
  funext scaleIndex
  simp only [candidate, selectCode_eq hcb _ (decodeScaleValid_nonneg _)]

theorem quantizeBlockOptimized_eq (hcb : codebookIsValid cb) (source : ℕ → ℚ) :
    quantizeBlockOptimized source cb mapping = quantizeBlockRef source cb mapping := by
  simp only [quantizeBlockOptimized, quantizeBlockRef, quantizeBlockImpl, bestCandidate,
    candidate_eq hcb]

/-! ## The best candidate -/

theorem toNat_ofNat_le {e : ℕ} (he : e ≤ 0x7e) : (BitVec.ofNat 8 e).toNat = e := by
  rw [BitVec.toNat_ofNat]
  exact Nat.mod_eq_of_lt (by omega)

theorem scaleIsValid_iff (e : BitVec 8) : scaleIsValid e ↔ e.toNat ≤ 0x7e := by
  rw [scaleIsValid, BitVec.le_def]
  rfl

theorem mem_codes_iff (code : BitVec 8) :
    code ∈ ([0, 1, 2, 3] : List (BitVec 8)) ↔ code ≤ 3 := by
  revert code
  decide

/-- The kept candidate is the one of its own scale byte, and the least. -/
theorem bestCandidate_spec (selector : ℚ → ℚ → Codebook → Mapping → BitVec 8)
    (source : ℕ → ℚ) (cb : Codebook) (mapping : Mapping) :
    ∃ e ≤ 0x7e, bestCandidate selector source cb mapping =
        candidate selector source cb mapping e ∧
      ∀ e' ≤ 0x7e, (candidate selector source cb mapping e).sse <
          (candidate selector source cb mapping e').sse ∨
        (candidate selector source cb mapping e).sse =
          (candidate selector source cb mapping e').sse ∧ e ≤ e' := by
  obtain ⟨best, hbest⟩ : ∃ best, scanBest Candidate.sse (fun c => c.scaleByte.toNat)
      ((List.range (0x7e + 1)).map (candidate selector source cb mapping)) = some best :=
    scanBest_isSome (by simp)
  obtain ⟨hmem, hleast⟩ := scanBest_spec hbest
  obtain ⟨e, he, rfl⟩ := List.mem_map.mp hmem
  have he : e ≤ 0x7e := Nat.lt_succ_iff.mp (List.mem_range.mp he)
  refine ⟨e, he, by rw [bestCandidate, hbest]; rfl, fun e' he' => ?_⟩
  have hother := hleast _ (List.mem_map_of_mem (List.mem_range.mpr (Nat.lt_succ_of_le he')))
  have hrank : (candidate selector source cb mapping e).scaleByte.toNat = e := toNat_ofNat_le he
  have hrank' : (candidate selector source cb mapping e').scaleByte.toNat = e' :=
    toNat_ofNat_le he'
  rwa [hrank, hrank'] at hother

theorem groupSse_congr {source : ℕ → ℚ} {scale : ℚ} {codes codes' : ℕ → BitVec 8}
    (h : ∀ i < 16, codes i = codes' i) :
    groupSse source scale cb mapping codes = groupSse source scale cb mapping codes' := by
  rw [groupSse, groupSse, List.map_congr_left fun i hi => ?_]
  rw [h i (List.mem_range.mp hi)]

theorem candidate_sse_le (hcb : codebookIsValid cb) (mapping : Mapping) (source : ℕ → ℚ) (e : ℕ)
    {codes : ℕ → BitVec 8} (hcodes : ∀ i < 16, codes i ≤ 3) :
    (candidate selectCodeOptimizedValid source cb mapping e).sse ≤
      groupSse source (decodeScaleValid (BitVec.ofNat 8 e)) cb mapping codes := by
  refine List.sum_le_sum fun i hi => ?_
  exact codeError_selectCode_le hcb _ (decodeScaleValid_nonneg _)
    ((mem_codes_iff _).mpr (hcodes i (List.mem_range.mp hi)))

/-! ## Blocks -/

theorem unpackCodes_packed {codes : ℕ → BitVec 8} {scales : Fin 2 → BitVec 8}
    (hcodes : ∀ i < 32, codes i ≤ 3) {i : ℕ} (hi : i < 32) :
    unpackCodes ⟨fun packed => fp2Pack codes packed, scales⟩ i = codes i := by
  have hwidth : ∀ i < 32, InWidth 2 (codes i) := fun i hi => by
    have hle : (codes i).toNat ≤ 3 := BitVec.le_def.mp (hcodes i hi)
    rw [InWidth]
    omega
  rw [← fp2_densePacking.unpack_pack hwidth i hi]
  refine fp2_densePacking.unpack_congr (fun b hb => ?_) i hi
  rw [dif_pos hb]

theorem packCodes_ok {codes : ℕ → BitVec 8} {scales : Fin 2 → BitVec 8}
    (hcodes : ∀ i < 32, codes i ≤ 3) (hscales : ∀ group, scaleIsValid (scales group)) :
    packCodes codes scales = .ok ⟨fun packed => fp2Pack codes packed, scales⟩ := by
  have hnone : ((List.range 32).any fun i => codes i > 3) = false := by
    rw [List.any_eq_false]
    intro i hi
    rw [decide_eq_true_eq, gt_iff_lt, BitVec.not_lt]
    exact hcodes i (List.mem_range.mp hi)
  rw [packCodes, if_neg (by simp [hscales]), if_neg (by rw [hnone]; exact Bool.false_ne_true)]

/-- The best candidate of a group of the block. -/
def bestOf (source : ℕ → ℚ) (cb : Codebook) (mapping : Mapping) (group : ℕ) : Candidate :=
  bestCandidate selectCodeOptimizedValid (fun i => source (group * 16 + i)) cb mapping

theorem quantizeBlock_ok (hcb : codebookIsValid cb) (mapping : Mapping) (source : ℕ → ℚ) :
    quantizeBlockRef source cb mapping = .ok
      (⟨fun packed => fp2Pack (fun i => (bestOf source cb mapping (i / 16)).codes (i % 16)) packed,
          fun group => (bestOf source cb mapping group).scaleByte⟩,
        fun group => (bestOf source cb mapping group).sse) ∧
      (∀ i < 32, (bestOf source cb mapping (i / 16)).codes (i % 16) ≤ 3) ∧
      ∀ group : Fin 2, scaleIsValid (bestOf source cb mapping group).scaleByte := by
  have hcodes : ∀ i < 32, (bestOf source cb mapping (i / 16)).codes (i % 16) ≤ 3 := by
    intro i _
    obtain ⟨e, -, heq, -⟩ := bestCandidate_spec selectCodeOptimizedValid
      (fun j => source (i / 16 * 16 + j)) cb mapping
    rw [bestOf, heq]
    exact (mem_codes_iff _).mp (selectCode_mem _ _)
  have hscales : ∀ group : Fin 2, scaleIsValid (bestOf source cb mapping group).scaleByte := by
    intro group
    obtain ⟨e, he, heq, -⟩ := bestCandidate_spec selectCodeOptimizedValid
      (fun j => source (group * 16 + j)) cb mapping
    rw [bestOf, heq, scaleIsValid_iff]
    exact (toNat_ofNat_le he).le.trans he
  refine ⟨?_, hcodes, hscales⟩
  rw [← quantizeBlockOptimized_eq hcb, quantizeBlockOptimized, quantizeBlockImpl,
    if_neg (not_not.mpr hcb)]
  dsimp only
  have hpack := packCodes_ok hcodes hscales
  simp only [bestOf] at hpack ⊢
  rw [hpack]
  rfl

/-- The errors of the groups are those of the stored codes. No scale byte with any codes has a
smaller one, nor a lower byte the same one. -/
def IsOptimal (source : ℕ → ℚ) (cb : Codebook) (mapping : Mapping) (block : Block)
    (sse : Fin 2 → ℚ) : Prop :=
  ∀ group : Fin 2, scaleIsValid (block.s group) ∧
    sse group = groupSse (fun i => source (group * 16 + i)) (decodeScaleValid (block.s group)) cb
      mapping (fun i => unpackCodes block (group * 16 + i)) ∧
    ∀ e, scaleIsValid e → ∀ codes : ℕ → BitVec 8, (∀ i < 16, codes i ≤ 3) →
      sse group < groupSse (fun i => source (group * 16 + i)) (decodeScaleValid e) cb mapping
          codes ∨
        sse group = groupSse (fun i => source (group * 16 + i)) (decodeScaleValid e) cb mapping
          codes ∧ block.s group ≤ e

theorem quantizeBlock_optimal (hcb : codebookIsValid cb) (mapping : Mapping) (source : ℕ → ℚ) :
    (∀ weight scaleByte, selectCodeOptimized weight scaleByte cb mapping =
      selectCodeRef weight scaleByte cb mapping) ∧
    quantizeBlockOptimized source cb mapping = quantizeBlockRef source cb mapping ∧
    ∃ block sse, quantizeBlockRef source cb mapping = .ok (block, sse) ∧
      IsOptimal source cb mapping block sse := by
  obtain ⟨hok, hcodes, hscales⟩ := quantizeBlock_ok hcb mapping source
  refine ⟨selectors_eq hcb, quantizeBlockOptimized_eq hcb source, _, _, hok, fun group =>
    ⟨hscales group, ?_, fun e he codes hle => ?_⟩⟩
  · obtain ⟨e, -, heq, -⟩ := bestCandidate_spec selectCodeOptimizedValid
      (fun j => source (group * 16 + j)) cb mapping
    have hgroup : ∀ i < 16, unpackCodes ⟨fun packed => fp2Pack
          (fun i => (bestOf source cb mapping (i / 16)).codes (i % 16)) packed,
          fun group => (bestOf source cb mapping group).scaleByte⟩ (group * 16 + i) =
        (bestOf source cb mapping group).codes i := by
      intro i hi
      have hdiv : ((group : ℕ) * 16 + i) / 16 = group := by omega
      have hmod : ((group : ℕ) * 16 + i) % 16 = i := by omega
      rw [unpackCodes_packed hcodes (by omega), hdiv, hmod]
    rw [groupSse_congr hgroup]
    dsimp only
    rw [bestOf, heq]
    rfl
  · obtain ⟨best, hbest, heq, hleast⟩ := bestCandidate_spec selectCodeOptimizedValid
      (fun j => source (group * 16 + j)) cb mapping
    have he' := (scaleIsValid_iff e).mp he
    have hsse := candidate_sse_le hcb mapping (fun i => source (group * 16 + i)) e.toNat hle
    rw [BitVec.ofNat_toNat, BitVec.setWidth_eq] at hsse
    dsimp only
    rw [bestOf, heq, BitVec.le_def]
    have hbyte : (candidate selectCodeOptimizedValid (fun j => source (group * 16 + j)) cb mapping
        best).scaleByte.toNat = best := toNat_ofNat_le hbest
    rw [hbyte]
    rcases hleast e.toNat he' with hlt | ⟨hsame, hlow⟩
    · exact .inl (hlt.trans_le hsse)
    · rcases hsse.lt_or_eq with hlt | heq'
      · exact .inl (hsame.trans_lt hlt)
      · exact .inr ⟨hsame.trans heq', hlow⟩

def rampSource (i : ℕ) : ℚ := i / 7 - 2

theorem quantizeBlock_optimal_ramp :
    (∀ weight scaleByte, selectCodeOptimized weight scaleByte ⟨3, 10⟩ .msm =
      selectCodeRef weight scaleByte ⟨3, 10⟩ .msm) ∧
    quantizeBlockOptimized rampSource ⟨3, 10⟩ .msm = quantizeBlockRef rampSource ⟨3, 10⟩ .msm ∧
    ∃ block sse, quantizeBlockRef rampSource ⟨3, 10⟩ .msm = .ok (block, sse) ∧
      IsOptimal rampSource ⟨3, 10⟩ .msm block sse :=
  quantizeBlock_optimal (by decide) .msm rampSource

end RocmFpx.Fp2Reference
