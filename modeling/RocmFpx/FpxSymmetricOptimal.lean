import RocmFpx.FpxOptimal
import RocmFpx.FpxSymmetric

/-!
The searches of the formats with a symmetric codebook find the lowest byte of least
error. No code reaches above the largest magnitude, so the part of the largest input
that a small scale clips is an error that no byte below can undo: the stopping bound of
each format is a lower bound.
-/

namespace RocmFpx.Fpx

variable {n : ℕ}

inductive SymmetricRoutine (n : ℕ) where
  | fp2 (quantWeights : Option (Fin n → ℚ))
  | fp3 (quantWeights : Option (Fin n → ℚ))
  | fp8 (quantWeights : Fin n → ℚ)
  | fp4 (quantWeights : Option (Fin n → ℚ))

open Routine (squareRoot squareRoot_nonneg)

namespace SymmetricRoutine

def quantWeights : SymmetricRoutine n → Option (Fin n → ℚ)
  | .fp2 qw => qw
  | .fp3 qw => qw
  | .fp8 qw => some qw
  | .fp4 qw => qw

def maxCode : SymmetricRoutine n → ℤ
  | .fp2 _ => 4
  | .fp3 _ => 4
  | .fp8 _ => 127
  | .fp4 _ => 10

/-- The value of the stored code of `x`. -/
def decoded (x invScale : ℚ) : SymmetricRoutine n → ℤ
  | .fp2 _ => decodeFp2Code (quantizeFp2Code x invScale)
  | .fp3 _ => decodeFp3Code (quantizeFp3Code x invScale)
  | .fp8 _ => (BitVec.ofInt 8 (quantizeFp8Code x invScale)).toInt
  | .fp4 _ => rocmfp4Decode (rocmfp4BestIndexScaled x invScale)

section

variable (sqrtf : ℚ → ℚ) (x : Fin n → ℚ) (sigma2 : ℚ)

def choose : SymmetricRoutine n → ℕ
  | .fp2 qw => chooseScaleFp2Mse sqrtf x qw sigma2
  | .fp3 none => chooseScaleFp3Mse x
  | .fp3 (some qw) => chooseScaleFp3WeightedMse sqrtf x qw sigma2
  | .fp8 qw => chooseScaleFp8WeightedMse sqrtf x qw sigma2
  | .fp4 qw => rocmfp4ChooseScaleUe4m3 sqrtf x qw sigma2

def weight (r : SymmetricRoutine n) (i : Fin n) : ℚ :=
  match r.quantWeights with
  | some qw => (prepareMseWeights sqrtf x qw sigma2).dst i
  | none => 1

/-- The weight of the largest magnitude. -/
def clipWeight (r : SymmetricRoutine n) : ℚ :=
  match r.quantWeights with
  | some qw => (prepareMseWeights sqrtf x qw sigma2).maxAbsWeight
  | none => 1

/-- The squared error of the block that is quantized with the scale byte `e` and decoded. -/
def blockError (r : SymmetricRoutine n) (e : ℕ) : ℚ :=
  ∑ i, r.weight sqrtf x sigma2 i *
    (x i - r.decoded (x i) (1 / scaleLookup e) * scaleLookup e) ^ 2

/-- The initial error of the search is above the error of some byte. -/
def StartsAbove : SymmetricRoutine n → Prop
  | .fp4 qw => ∃ e ∈ Set.Icc 1 126, (fp4 qw).blockError sqrtf x sigma2 e < fltMax
  | _ => True

end

variable {sqrtf : ℚ → ℚ} {x : Fin n → ℚ} {sigma2 : ℚ} {r : SymmetricRoutine n}

theorem maxCode_pos : 0 < r.maxCode := by
  cases r <;> norm_num [maxCode]

theorem weight_nonneg (hsqrt : ∀ q, 0 ≤ sqrtf q) (i : Fin n) :
    0 ≤ r.weight sqrtf x sigma2 i := by
  unfold weight
  split
  · exact prepareMseWeights_dst_nonneg hsqrt x _ sigma2 i
  · exact zero_le_one

theorem clipWeight_nonneg (hsqrt : ∀ q, 0 ≤ sqrtf q) : 0 ≤ r.clipWeight sqrtf x sigma2 := by
  unfold clipWeight
  split
  · exact prepareMseWeights_maxAbsWeight_nonneg hsqrt x _ sigma2
  · exact zero_le_one

theorem exists_peak (hpos : 0 < maxAbs x) (r : SymmetricRoutine n) :
    ∃ i, |x i| = maxAbs x ∧ r.weight sqrtf x sigma2 i = r.clipWeight sqrtf x sigma2 := by
  unfold weight clipWeight
  split
  · exact prepareMseWeights_peak x _ sigma2 hpos
  · rcases (maxAbs_fold x (List.finRange n) 0).2.2 with heq | ⟨i, -, heq⟩
    · exact absurd hpos (by rw [maxAbs, heq]; exact lt_irrefl 0)
    · exact ⟨i, heq.symm, rfl⟩

/-! ## The routines are one search -/

/-- The value that the error sum takes for the decoded one. -/
def value : SymmetricRoutine n → ℚ → ℚ → ℤ
  | .fp2 _ => fun x invScale => decodeFp2Code (quantizeFp2Code x invScale)
  | .fp3 _ => fp3DecodedMag
  | .fp8 _ => quantizeFp8Code
  | .fp4 _ => rocmfp4DecodedMagScaled

theorem decoded_eq (xi : ℚ) {invScale : ℚ} (h : 0 < invScale) :
    r.decoded xi invScale = r.value xi invScale := by
  cases r with
  | fp2 qw => rfl
  | fp3 qw => exact decode_quantize_fp3 xi h
  | fp8 qw =>
    have hle := abs_le.mp (abs_quantizeFp8Code_le xi invScale)
    rw [decoded, value, BitVec.toInt_ofInt]
    exact Int.bmod_eq_of_le (by norm_num; omega) (by norm_num; omega)
  | fp4 qw => exact decode_bestIndex xi invScale

theorem abs_value_le (xi invScale : ℚ) : |r.value xi invScale| ≤ r.maxCode := by
  cases r with
  | fp2 qw => exact abs_decodeFp2Code_le _
  | fp3 qw => exact abs_fp3DecodedMag_le xi invScale
  | fp8 qw => exact abs_quantizeFp8Code_le xi invScale
  | fp4 qw => exact abs_rocmfp4DecodedMagScaled_le xi invScale

/-- ROCmFP4 divides without a check. -/
def invScale : SymmetricRoutine n → ℕ → ℚ
  | .fp4 _, e => 1 / scaleLookup e
  | _, e => invScaleOf (scaleLookup e)

theorem invScale_eq {e : ℕ} (he : e ∈ Set.Icc 1 126) : r.invScale e = 1 / scaleLookup e := by
  have hscale : scaleLookup e > 0 := scaleLookup_pos he.1 he.2
  cases r with
  | fp4 qw => rfl
  | fp2 qw => exact if_pos hscale
  | fp3 qw => exact if_pos hscale
  | fp8 qw => exact if_pos hscale

section

variable (sqrtf : ℚ → ℚ) (x : Fin n → ℚ) (sigma2 : ℚ) (r : SymmetricRoutine n)

def clipDelta (e : ℕ) : ℚ := maxAbs x - r.maxCode * scaleLookup e

/-- ROCmFP4 does not stop at a weight of zero. -/
def clips (e : ℕ) : Bool :=
  match r with
  | .fp4 _ => decide (r.clipWeight sqrtf x sigma2 > 0 ∧ r.clipDelta x e > 0)
  | _ => decide (r.clipDelta x e > 0)

/-- The term of the input `i` in the error of the scale byte `e`. -/
def term (e : ℕ) (i : Fin n) : ℚ :=
  let d := x i - r.value (x i) (r.invScale e) * scaleLookup e
  r.weight sqrtf x sigma2 i * d * d

def searchedError (e : ℕ) : ℚ := ∑ i, r.term sqrtf x sigma2 e i

def search : PrunedSearch ℚ where
  hi := 126
  start := nearestScaleUe4m3 (maxAbs x / r.maxCode)
  err e bestErr := cappedSum (r.term sqrtf x sigma2 e) bestErr (List.finRange n) 0
  clips := r.clips sqrtf x sigma2
  bound e := r.clipWeight sqrtf x sigma2 * r.clipDelta x e * r.clipDelta x e

/-- How the routine runs the search. -/
def searched : ℕ :=
  match r with
  | .fp4 _ => rocmfp4Search (r.search sqrtf x sigma2)
  | _ => (r.search sqrtf x sigma2).search 126

end

theorem rocmfp4NearestScaleUe4m3_eq {target : ℚ} (h : 0 < target) :
    rocmfp4NearestScaleUe4m3 target = nearestScaleUe4m3 target := by
  rw [rocmfp4NearestScaleUe4m3, nearestScaleUe4m3, if_neg (not_not.mpr h), if_neg (not_not.mpr h)]

theorem choose_eq_searched (hpos : 0 < maxAbs x) :
    r.choose sqrtf x sigma2 = r.searched sqrtf x sigma2 := by
  cases r with
  | fp2 qw =>
    cases qw with
    | none =>
      simp only [choose, chooseScaleFp2Mse, Option.map_none, not_true, if_false, hpos]
      rfl
    | some qw =>
      simp only [choose, chooseScaleFp2Mse, Option.map_some, prepareMseWeights_maxAbs, not_true,
        if_false, hpos]
      rfl
  | fp3 qw =>
    cases qw with
    | none =>
      simp only [choose, chooseScaleFp3Mse, not_true, if_false, hpos, chooseScaleFp3MseImpl,
        searched, search, clipWeight, quantWeights, one_mul]
      rfl
    | some qw =>
      simp only [choose, chooseScaleFp3WeightedMse, prepareMseWeights_maxAbs, not_true, if_false,
        hpos]
      rfl
  | fp8 qw =>
    simp only [choose, chooseScaleFp8WeightedMse, prepareMseWeights_maxAbs, not_true, if_false,
      hpos]
    rfl
  | fp4 qw =>
    have hstart : rocmfp4NearestScaleUe4m3 (maxAbs x / 10) = nearestScaleUe4m3 (maxAbs x / 10) :=
      rocmfp4NearestScaleUe4m3_eq (div_pos hpos (by norm_num))
    have hcode : ((10 : ℤ) : ℚ) = 10 := by norm_num
    cases qw with
    | none =>
      have hclips : clips sqrtf x sigma2 (fp4 none) =
          fun e => decide (maxAbs x - 10 * scaleLookup e > 0) := by
        funext e
        simp [clips, clipWeight, quantWeights, clipDelta, maxCode]
      simp only [choose, rocmfp4ChooseScaleUe4m3, not_true, if_false, hpos,
        rocmfp4ChooseScaleUnweighted, hstart, searched, search, hclips, clipWeight, quantWeights,
        one_mul, clipDelta, maxCode, hcode]
      rfl
    | some qw =>
      simp only [choose, rocmfp4ChooseScaleUe4m3, prepareMseWeights_maxAbs, not_true, if_false,
        hpos, rocmfp4ChooseScaleWeighted, hstart]
      rfl

/-! ## The bound is a lower bound -/

theorem term_nonneg (hsqrt : ∀ q, 0 ≤ sqrtf q) (e : ℕ) (i : Fin n) :
    0 ≤ r.term sqrtf x sigma2 e i := by
  rw [term, mul_assoc]
  exact mul_nonneg (weight_nonneg hsqrt i) (mul_self_nonneg _)

theorem searchedError_eq {e : ℕ} (he : e ∈ Set.Icc 1 126) :
    r.searchedError sqrtf x sigma2 e = r.blockError sqrtf x sigma2 e := by
  have hscale := scaleLookup_pos he.1 he.2
  refine Finset.sum_congr rfl fun i _ => ?_
  rw [term, decoded_eq (x i) (one_div_pos.mpr hscale), invScale_eq he]
  ring

theorem clipDelta_anti {e e' : ℕ} (hle : e ≤ e') (he' : e' ≤ 126) :
    r.clipDelta x e' ≤ r.clipDelta x e := by
  have hscale : scaleLookup e ≤ scaleLookup e' := by
    rw [scaleLookup_of_le he', scaleLookup_of_le (hle.trans he')]
    exact scaleTable_strictMono.monotone hle
  have hcode : (0 : ℚ) < r.maxCode := by exact_mod_cast maxCode_pos
  unfold clipDelta
  gcongr

theorem clips_spec {e : ℕ} (h : r.clips sqrtf x sigma2 e = true) :
    0 < r.clipDelta x e ∧ ∀ e', r.clipDelta x e ≤ r.clipDelta x e' →
      r.clips sqrtf x sigma2 e' = true := by
  cases r with
  | fp4 qw =>
    have h := of_decide_eq_true h
    exact ⟨h.2, fun e' hle => decide_eq_true ⟨h.1, h.2.trans_le hle⟩⟩
  | fp2 qw => exact ⟨of_decide_eq_true h, fun e' hle =>
      decide_eq_true ((of_decide_eq_true h).trans_le hle)⟩
  | fp3 qw => exact ⟨of_decide_eq_true h, fun e' hle =>
      decide_eq_true ((of_decide_eq_true h).trans_le hle)⟩
  | fp8 qw => exact ⟨of_decide_eq_true h, fun e' hle =>
      decide_eq_true ((of_decide_eq_true h).trans_le hle)⟩

theorem search_sound (hsqrt : ∀ q, 0 ≤ sqrtf q) (hpos : 0 < maxAbs x) :
    (r.search sqrtf x sigma2).Sound (r.searchedError sqrtf x sigma2) where
  start_pos :=
    (nearestScaleUe4m3_bounds (div_pos hpos (by exact_mod_cast maxCode_pos (r := r)))).1
  start_le :=
    (nearestScaleUe4m3_bounds (div_pos hpos (by exact_mod_cast maxCode_pos (r := r)))).2
  err e best := by
    have hsum : ((List.finRange n).map (r.term sqrtf x sigma2 e)).sum =
        r.searchedError sqrtf x sigma2 e := by
      rw [← List.ofFn_eq_map, List.sum_ofFn, searchedError]
    have hcapped := cappedSum_spec
      (fun i => (term_nonneg hsqrt e i : 0 ≤ r.term sqrtf x sigma2 e i)) best (List.finRange n) 0
    rwa [zero_add, hsum] at hcapped
  clips_anti e e' hle he' hclips := (clips_spec hclips).2 e (clipDelta_anti hle he')
  bound_anti e e' hle he' hclips := by
    have hpos' : 0 < r.clipDelta x e' := (clips_spec hclips).1
    have hdelta : r.clipDelta x e' ≤ r.clipDelta x e := clipDelta_anti hle he'
    have hweight : 0 ≤ r.clipWeight sqrtf x sigma2 := clipWeight_nonneg hsqrt
    change r.clipWeight sqrtf x sigma2 * r.clipDelta x e' * r.clipDelta x e' ≤
      r.clipWeight sqrtf x sigma2 * r.clipDelta x e * r.clipDelta x e
    have hprod : 0 ≤ r.clipWeight sqrtf x sigma2 * r.clipDelta x e :=
      mul_nonneg hweight (hpos'.le.trans hdelta)
    gcongr
  bound_le e he he' hclips := by
    obtain ⟨i, hpeak, hweight⟩ : ∃ i, |x i| = maxAbs x ∧
        r.weight sqrtf x sigma2 i = r.clipWeight sqrtf x sigma2 := exists_peak hpos r
    have hdelta : 0 < r.clipDelta x e := (clips_spec hclips).1
    rw [clipDelta, ← hpeak] at hdelta
    have hterm : r.clipWeight sqrtf x sigma2 * r.clipDelta x e * r.clipDelta x e ≤
        r.term sqrtf x sigma2 e i := by
      rw [term, clipDelta, ← hpeak, hweight]
      exact clip_le (abs_value_le _ _) (scaleLookup_pos he he').le (clipWeight_nonneg hsqrt)
        hdelta.le
    exact hterm.trans (Finset.single_le_sum (fun j _ => term_nonneg hsqrt e j) (Finset.mem_univ i))

/-! ## The chosen byte -/

theorem choose_zero (hzero : ¬ 0 < maxAbs x) : r.choose sqrtf x sigma2 = 0 := by
  cases r with
  | fp2 qw => cases qw <;> simp [choose, chooseScaleFp2Mse, prepareMseWeights_maxAbs, hzero]
  | fp3 qw =>
    cases qw <;>
      simp [choose, chooseScaleFp3Mse, chooseScaleFp3WeightedMse, prepareMseWeights_maxAbs, hzero]
  | fp8 qw => simp [choose, chooseScaleFp8WeightedMse, prepareMseWeights_maxAbs, hzero]
  | fp4 qw => cases qw <;> simp [choose, rocmfp4ChooseScaleUe4m3, prepareMseWeights_maxAbs, hzero]

theorem searched_isBest_iff (hsqrt : ∀ q, 0 ≤ sqrtf q) (hpos : 0 < maxAbs x) :
    IsBest (r.searchedError sqrtf x sigma2) (Set.Icc 1 126) (r.searched sqrtf x sigma2) ↔
      r.StartsAbove sqrtf x sigma2 := by
  have hsound : (r.search sqrtf x sigma2).Sound (r.searchedError sqrtf x sigma2) :=
    search_sound hsqrt hpos
  cases r with
  | fp4 qw =>
    refine (hsound.loop_isBest_iff (n := 126) le_rfl fltMax).trans
      (exists_congr fun e => and_congr_right fun he => ?_)
    rw [searchedError_eq he, WithTop.coe_lt_coe]
  | fp2 qw => exact iff_of_true (hsound.search_isBest (n := 126) le_rfl hsound.bound_le) trivial
  | fp3 qw => exact iff_of_true (hsound.search_isBest (n := 126) le_rfl hsound.bound_le) trivial
  | fp8 qw => exact iff_of_true (hsound.search_isBest (n := 126) le_rfl hsound.bound_le) trivial

theorem choose_best_iff (hsqrt : ∀ q, 0 ≤ sqrtf q) (r : SymmetricRoutine n) (x : Fin n → ℚ)
    (sigma2 : ℚ) :
    IsBest (r.blockError sqrtf x sigma2) (Set.Icc 1 126) (r.choose sqrtf x sigma2) ↔
      (∃ i, x i ≠ 0) ∧ r.StartsAbove sqrtf x sigma2 := by
  rw [← maxAbs_pos_iff]
  by_cases hpos : 0 < maxAbs x
  · rw [choose_eq_searched hpos, ← IsBest.congr fun e he => searchedError_eq he,
      searched_isBest_iff hsqrt hpos]
    exact (and_iff_right hpos).symm
  · rw [choose_zero hpos]
    exact ⟨fun h => absurd h.1.1 (by decide), fun h => absurd h.1 hpos⟩

/-- Every block with an input other than zero gets the lowest byte of least error, and a block
of zeros gets the byte 0, which decodes to zeros. -/
theorem choose_optimal (hsqrt : ∀ q, 0 ≤ sqrtf q) (r : SymmetricRoutine n) (x : Fin n → ℚ)
    (sigma2 : ℚ) (hstart : r.StartsAbove sqrtf x sigma2) :
    ((∃ i, x i ≠ 0) →
      IsBest (r.blockError sqrtf x sigma2) (Set.Icc 1 126) (r.choose sqrtf x sigma2)) ∧
    ((∀ i, x i = 0) → r.choose sqrtf x sigma2 = 0) := by
  refine ⟨fun hne => (choose_best_iff hsqrt r x sigma2).mpr ⟨hne, hstart⟩, fun hall => ?_⟩
  refine choose_zero fun hpos => ?_
  obtain ⟨i, hi⟩ := (maxAbs_pos_iff x).mp hpos
  exact hi (hall i)

def sampleBlock (i : Fin 16) : ℚ := if i.val = 0 then 1 else if i.val = 1 then -1 / 3 else 0

theorem choose_optimal_sample :
    ((∃ i, sampleBlock i ≠ 0) →
      IsBest (blockError squareRoot sampleBlock 0 (.fp4 (some fun _ => 1))) (Set.Icc 1 126)
        (choose squareRoot sampleBlock 0 (.fp4 (some fun _ => 1)))) ∧
    ((∀ i, sampleBlock i = 0) → choose squareRoot sampleBlock 0 (.fp4 (some fun _ => 1)) = 0) :=
  choose_optimal squareRoot_nonneg (.fp4 (some fun _ => 1)) sampleBlock 0
    ⟨50, by decide, by decide +kernel⟩

/-- A block of zeros has the byte 0, and ROCmFP4 finds no byte for a block whose errors are
all above its initial one. -/
theorem choose_out_of_range :
    (¬ IsBest (blockError squareRoot (fun _ : Fin 16 => 0) 0 (.fp3 none)) (Set.Icc 1 126)
      (choose squareRoot (fun _ : Fin 16 => 0) 0 (.fp3 none))) ∧
    ¬ IsBest (blockError squareRoot (fun _ : Fin 16 => 2 ^ 70) 0 (.fp4 none)) (Set.Icc 1 126)
      (choose squareRoot (fun _ : Fin 16 => 2 ^ 70) 0 (.fp4 none)) := by
  refine ⟨fun hbest => ?_, fun hbest => ?_⟩
  · exact absurd hbest.1 (by decide +kernel)
  · exact absurd hbest.1 (by decide +kernel)

end SymmetricRoutine
end RocmFpx.Fpx
