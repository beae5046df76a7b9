import RocmFpx.FpxCodec

/-!
When the searches find the lowest byte of least error. The routines differ in their
number of bits and in their weights; all four are one search. Its clipping bound takes
the largest magnitude for clipped at the largest code, but a negative input of this
magnitude reaches one code further.
-/

namespace RocmFpx.Fpx

variable {n : ℕ}

inductive Routine (n : ℕ) where
  | fp5 (quantWeights : Option (Fin n → ℚ))
  | fp6 (quantWeights : Option (Fin n → ℚ))
  | fp7 (quantWeights : Option (Fin n → ℚ))
  | i4 (quantWeights : Fin n → ℚ)

namespace Routine

def bits : Routine n → ℕ
  | .fp5 _ => 5
  | .fp6 _ => 6
  | .fp7 _ => 7
  | .i4 _ => 4

def maxCode (r : Routine n) : ℚ := 2 ^ (r.bits - 1) - 1

def quantWeights : Routine n → Option (Fin n → ℚ)
  | .fp5 qw => qw
  | .fp6 qw => qw
  | .fp7 qw => qw
  | .i4 qw => some qw

/-- The value of the stored code of `x`. -/
def decoded (x invScale : ℚ) : Routine n → ℤ
  | .fp5 _ => decodeLinearCode (quantizeLinearCode x invScale 5) 5
  | .fp6 _ => decodeFp6Code (quantizeFp6Code x invScale)
  | .fp7 _ => decodeLinearCode (quantizeLinearCode x invScale 7) 7
  | .i4 _ => rocmi4NibbleToI8 (rocmi4Nibble (rocmi4QuantizeCode x invScale))

section

variable (sqrtf : ℚ → ℚ) (x : Fin n → ℚ) (sigma2 : ℚ)

def choose : Routine n → ℕ
  | .fp5 qw => chooseScaleLinear sqrtf x qw sigma2 5
  | .fp6 none => chooseScaleFp6Mse x
  | .fp6 (some qw) => chooseScaleFp6WeightedMse sqrtf x qw sigma2
  | .fp7 qw => chooseScaleLinear sqrtf x qw sigma2 7
  | .i4 qw => chooseScaleI4WeightedMse sqrtf x qw sigma2

def weight (r : Routine n) (i : Fin n) : ℚ :=
  match r.quantWeights with
  | some qw => (prepareMseWeights sqrtf x qw sigma2).dst i
  | none => 1

/-- The weight of the largest magnitude. -/
def clipWeight (r : Routine n) : ℚ :=
  match r.quantWeights with
  | some qw => (prepareMseWeights sqrtf x qw sigma2).maxAbsWeight
  | none => 1

/-- The squared error of the block that is quantized with the scale byte `e` and decoded. -/
def blockError (r : Routine n) (e : ℕ) : ℚ :=
  ∑ i, r.weight sqrtf x sigma2 i *
    (x i - r.decoded (x i) (1 / scaleLookup e) * scaleLookup e) ^ 2

def start (r : Routine n) : ℕ := nearestScaleUe4m3 (maxAbs x / r.maxCode)

def clipDelta (r : Routine n) (e : ℕ) : ℚ := maxAbs x - r.maxCode * scaleLookup e

/-- The clipping bound at `e` is above the error of a byte nearer to the first guess. -/
def CutOff (r : Routine n) (e : ℕ) : Prop :=
  0 < r.clipDelta x e ∧ ∃ e', e < e' ∧ e' < 2 * r.start x - e ∧ e' ≤ 126 ∧
    r.blockError sqrtf x sigma2 e' <
      r.clipWeight sqrtf x sigma2 * r.clipDelta x e * r.clipDelta x e

end

variable {sqrtf : ℚ → ℚ} {x : Fin n → ℚ} {sigma2 : ℚ} {r : Routine n}

theorem maxCode_pos : 0 < r.maxCode := by
  cases r <;> norm_num [maxCode, bits]

theorem weight_nonneg (hsqrt : ∀ q, 0 ≤ sqrtf q) (i : Fin n) :
    0 ≤ r.weight sqrtf x sigma2 i := by
  unfold weight
  split
  · exact prepareMseWeights_dst_nonneg hsqrt x _ sigma2 i
  · exact zero_le_one

theorem clipWeight_nonneg (hsqrt : ∀ q, 0 ≤ sqrtf q) : 0 ≤ r.clipWeight sqrtf x sigma2 := by
  unfold clipWeight
  split
  · exact prepareMseWeights_maxAbsWeight_nonneg hsqrt x _ sigma2
  · exact zero_le_one

theorem decoded_eq (xi : ℚ) {invScale : ℚ} (h : 0 < invScale) :
    r.decoded xi invScale = linearValue xi invScale r.bits := by
  cases r with
  | fp5 qw => exact decode_quantize_linear (by decide) xi h
  | fp6 qw => exact @decode_quantize_linear 6 (by decide) xi _ h
  | fp7 qw => exact decode_quantize_linear (by decide) xi h
  | i4 qw =>
    rw [decoded, decode_quantize_i4 xi h, rocmi4QuantizeCode, if_neg (not_le_of_gt h)]
    rfl

/-! ## The four routines are one search -/

/-- The term of the input `i` in the error of the scale byte `e`. -/
def term (sqrtf : ℚ → ℚ) (x : Fin n → ℚ) (sigma2 : ℚ) (r : Routine n) (e : ℕ) (i : Fin n) : ℚ :=
  let d := x i - linearValue (x i) (invScaleOf (scaleLookup e)) r.bits * scaleLookup e
  r.weight sqrtf x sigma2 i * d * d

def searchedError (sqrtf : ℚ → ℚ) (x : Fin n → ℚ) (sigma2 : ℚ) (r : Routine n) (e : ℕ) : ℚ :=
  ∑ i, r.term sqrtf x sigma2 e i

def search (sqrtf : ℚ → ℚ) (x : Fin n → ℚ) (sigma2 : ℚ) (r : Routine n) : PrunedSearch ℚ :=
  scaleSearch (maxAbs x) r.maxCode
    (fun clipDelta => r.clipWeight sqrtf x sigma2 * clipDelta * clipDelta)
    (fun e bestErr => cappedSum (r.term sqrtf x sigma2 e) bestErr (List.finRange n) 0)

theorem rocmi4QuantizeCode_inv (xi scale : ℚ) :
    rocmi4QuantizeCode xi (invScaleOf scale) = linearValue xi (invScaleOf scale) 4 := by
  unfold rocmi4QuantizeCode
  split_ifs with h
  · have hzero : invScaleOf scale = 0 := by
      unfold invScaleOf at h ⊢
      split_ifs with hpos
      · rw [if_pos hpos] at h
        exact absurd h (not_le_of_gt (one_div_pos.mpr hpos))
      · rfl
    rw [hzero, linearValue, mul_zero]
    decide +kernel
  · rfl

theorem chooseScaleLinear_eq_search (hpos : 0 < maxAbs x) (qw : Option (Fin n → ℚ)) (bits : ℕ) :
    chooseScaleLinear sqrtf x qw sigma2 bits =
      (scaleSearch (maxAbs x) (2 ^ (bits - 1) - 1)
        (fun clipDelta => (fp5 qw).clipWeight sqrtf x sigma2 * clipDelta * clipDelta)
        (fun e bestErr => cappedSum (fun i =>
          let d := x i - linearValue (x i) (invScaleOf (scaleLookup e)) bits * scaleLookup e
          (fp5 qw).weight sqrtf x sigma2 i * d * d) bestErr (List.finRange n) 0)).search 126 := by
  cases qw with
  | none =>
    simp only [chooseScaleLinear, Option.map_none, not_true, if_false, hpos]
    rfl
  | some qw =>
    simp only [chooseScaleLinear, Option.map_some, prepareMseWeights_maxAbs, not_true, if_false,
      hpos]
    rfl

theorem choose_eq_search (hpos : 0 < maxAbs x) :
    r.choose sqrtf x sigma2 = (r.search sqrtf x sigma2).search 126 := by
  cases r with
  | fp5 qw => exact chooseScaleLinear_eq_search hpos qw 5
  | fp7 qw => exact chooseScaleLinear_eq_search hpos qw 7
  | fp6 qw =>
    have hcode : (fp6 qw).maxCode = 31 := by norm_num [maxCode, bits]
    rw [search, hcode]
    cases qw with
    | none =>
      -- without weights the routine leaves the factor 1 out
      have hterm : ∀ e i, (fp6 none).term sqrtf x sigma2 e i =
          (x i - fp6DecodedValue (x i) (invScaleOf (scaleLookup e)) * scaleLookup e) *
            (x i - fp6DecodedValue (x i) (invScaleOf (scaleLookup e)) * scaleLookup e) :=
        fun e i => by simp only [term, weight, quantWeights, one_mul]; rfl
      simp only [choose, chooseScaleFp6Mse, not_true, if_false, hpos, chooseScaleFp6MseImpl,
        fp6BlockMseForScale, funext (hterm _), clipWeight, quantWeights, one_mul]
    | some qw =>
      simp only [choose, chooseScaleFp6WeightedMse, prepareMseWeights_maxAbs, not_true, if_false,
        hpos]
      rfl
  | i4 qw =>
    have hcode : (i4 qw).maxCode = 7 := by norm_num [maxCode, bits]
    rw [search, hcode]
    simp only [choose, chooseScaleI4WeightedMse, prepareMseWeights_maxAbs, not_true, if_false,
      hpos, i4BlockWeightedMseForScale, rocmi4QuantizeCode_inv]
    rfl

/-! ## The search is exact -/

theorem term_nonneg (hsqrt : ∀ q, 0 ≤ sqrtf q) (e : ℕ) (i : Fin n) :
    0 ≤ r.term sqrtf x sigma2 e i := by
  rw [term, mul_assoc]
  exact mul_nonneg (weight_nonneg hsqrt i) (mul_self_nonneg _)

theorem searchedError_eq {e : ℕ} (he : e ∈ Set.Icc 1 126) :
    r.searchedError sqrtf x sigma2 e = r.blockError sqrtf x sigma2 e := by
  have hscale := scaleLookup_pos he.1 he.2
  refine Finset.sum_congr rfl fun i _ => ?_
  rw [term, decoded_eq (x i) (one_div_pos.mpr hscale), invScaleOf, if_pos hscale]
  ring

theorem clipDelta_anti {e e' : ℕ} (hle : e ≤ e') (he' : e' ≤ 126) :
    r.clipDelta x e' ≤ r.clipDelta x e := by
  have hscale : scaleLookup e ≤ scaleLookup e' := by
    rw [scaleLookup_of_le he', scaleLookup_of_le (hle.trans he')]
    exact scaleTable_strictMono.monotone hle
  have hcode := maxCode_pos (r := r)
  unfold clipDelta
  gcongr

theorem search_exact (hsqrt : ∀ q, 0 ≤ sqrtf q) (hpos : 0 < maxAbs x) :
    (r.search sqrtf x sigma2).Exact (r.searchedError sqrtf x sigma2) where
  start_pos := (nearestScaleUe4m3_bounds (div_pos hpos maxCode_pos)).1
  start_le := (nearestScaleUe4m3_bounds (div_pos hpos maxCode_pos)).2
  err e best := by
    have hsum : ((List.finRange n).map (r.term sqrtf x sigma2 e)).sum =
        r.searchedError sqrtf x sigma2 e := by
      rw [← List.ofFn_eq_map, List.sum_ofFn, searchedError]
    have hcapped := cappedSum_spec
      (fun i => (term_nonneg hsqrt e i : 0 ≤ r.term sqrtf x sigma2 e i)) best (List.finRange n) 0
    rwa [zero_add, hsum] at hcapped
  clips_anti e e' hle he' hclips :=
    decide_eq_true ((of_decide_eq_true hclips).trans_le (clipDelta_anti hle he'))
  bound_anti e e' hle he' hclips := by
    have hpos' : 0 < r.clipDelta x e' := of_decide_eq_true hclips
    have hdelta : r.clipDelta x e' ≤ r.clipDelta x e := clipDelta_anti hle he'
    have hweight : 0 ≤ r.clipWeight sqrtf x sigma2 := clipWeight_nonneg hsqrt
    change r.clipWeight sqrtf x sigma2 * r.clipDelta x e' * r.clipDelta x e' ≤
      r.clipWeight sqrtf x sigma2 * r.clipDelta x e * r.clipDelta x e
    have hprod : 0 ≤ r.clipWeight sqrtf x sigma2 * r.clipDelta x e :=
      mul_nonneg hweight (hpos'.le.trans hdelta)
    gcongr

theorem cut_iff {e : ℕ} (he : 1 ≤ e) :
    (r.search sqrtf x sigma2).Cut (r.searchedError sqrtf x sigma2) e ↔
      r.CutOff sqrtf x sigma2 e := by
  constructor
  · rintro ⟨hclips, e', hlt, hmirror, hhi, herr⟩
    rw [searchedError_eq ⟨by omega, hhi⟩] at herr
    exact ⟨of_decide_eq_true hclips, e', hlt, hmirror, hhi, herr⟩
  · rintro ⟨hclips, e', hlt, hmirror, hhi, herr⟩
    rw [← searchedError_eq ⟨by omega, hhi⟩] at herr
    exact ⟨decide_eq_true hclips, e', hlt, hmirror, hhi, herr⟩

theorem choose_zero (hzero : ¬ 0 < maxAbs x) : r.choose sqrtf x sigma2 = 0 := by
  cases r with
  | fp5 qw => cases qw <;> simp [choose, chooseScaleLinear, prepareMseWeights_maxAbs, hzero]
  | fp6 qw =>
    cases qw <;>
      simp [choose, chooseScaleFp6Mse, chooseScaleFp6WeightedMse, prepareMseWeights_maxAbs, hzero]
  | fp7 qw => cases qw <;> simp [choose, chooseScaleLinear, prepareMseWeights_maxAbs, hzero]
  | i4 qw => simp [choose, chooseScaleI4WeightedMse, prepareMseWeights_maxAbs, hzero]

/-- The chosen byte is the lowest one of least error just when the block is not zero and the
lowest byte of least error is not cut off below the first guess. -/
theorem choose_isBest_iff (hsqrt : ∀ q, 0 ≤ sqrtf q) (r : Routine n) (x : Fin n → ℚ)
    (sigma2 : ℚ) :
    IsBest (r.blockError sqrtf x sigma2) (Set.Icc 1 126) (r.choose sqrtf x sigma2) ↔
      (∃ i, x i ≠ 0) ∧ ∀ e, IsBest (r.blockError sqrtf x sigma2) (Set.Icc 1 126) e →
        e < r.start x → ¬ r.CutOff sqrtf x sigma2 e := by
  rw [← maxAbs_pos_iff]
  by_cases hpos : 0 < maxAbs x
  · have hexact : (r.search sqrtf x sigma2).Exact (r.searchedError sqrtf x sigma2) :=
      search_exact hsqrt hpos
    have hbest : ∀ e, IsBest (r.blockError sqrtf x sigma2) (Set.Icc 1 126) e ↔
        IsBest (r.searchedError sqrtf x sigma2) (Set.Icc 1 126) e :=
      fun e => IsBest.congr fun e he => (searchedError_eq he).symm
    have hsearch := hexact.search_isBest_iff (n := 126) le_rfl
    rw [choose_eq_search hpos, hbest]
    refine hsearch.trans ⟨fun hall => ⟨hpos, fun e he hlt => ?_⟩, fun hall e he hlt => ?_⟩
    · exact fun hcut => hall e ((hbest e).mp he) hlt ((cut_iff he.1.1).mpr hcut)
    · exact fun hcut => hall.2 e ((hbest e).mpr he) hlt ((cut_iff he.1.1).mp hcut)
  · rw [choose_zero hpos]
    exact ⟨fun h => absurd h.1.1 (by decide), fun h => absurd h.1 hpos⟩

/-! ## A positive peak -/

/-! ## A negative peak -/

def negativePeak (i : Fin 16) : ℚ := if i = 0 then -1 / 8 else if i = 1 then 1 / 128 else 0

/-- A square root that is exact on squares. -/
def squareRoot (q : ℚ) : ℚ := (Nat.sqrt q.num.toNat : ℚ) / Nat.sqrt q.den

theorem squareRoot_nonneg (q : ℚ) : 0 ≤ squareRoot q :=
  div_nonneg (Nat.cast_nonneg _) (Nat.cast_nonneg _)

/-- With the byte 8 the block is exact, but the search settles for the byte 9. -/
theorem choose_misses_best : ¬ ∀ (sqrtf : ℚ → ℚ), (∀ q, 0 ≤ sqrtf q) →
    ∀ (n : ℕ) (r : Routine n) (x : Fin n → ℚ) (sigma2 : ℚ), (∃ i, x i ≠ 0) →
      IsBest (r.blockError sqrtf x sigma2) (Set.Icc 1 126) (r.choose sqrtf x sigma2) := by
  intro hall
  have hbest := hall squareRoot squareRoot_nonneg 16 (.fp5 none) negativePeak 0
    ⟨0, by decide +kernel⟩
  have hchosen : choose squareRoot negativePeak 0 (.fp5 none) = 9 := by decide +kernel
  have hlt : blockError squareRoot negativePeak 0 (.fp5 none) 8 <
      blockError squareRoot negativePeak 0 (.fp5 none) 9 := by decide +kernel
  rw [hchosen] at hbest
  exact absurd (hbest.le (by decide)) (not_le_of_gt hlt)

/-- The same block with weights in FP7. -/
theorem choose_isBest_iff_negativePeak :
    IsBest (blockError squareRoot negativePeak 0 (.fp7 (some fun _ => 1))) (Set.Icc 1 126)
        (choose squareRoot negativePeak 0 (.fp7 (some fun _ => 1))) ↔
      (∃ i, negativePeak i ≠ 0) ∧
        ∀ e, IsBest (blockError squareRoot negativePeak 0 (.fp7 (some fun _ => 1)))
            (Set.Icc 1 126) e → e < start negativePeak (.fp7 (some fun _ => 1)) →
            ¬ CutOff squareRoot negativePeak 0 (.fp7 (some fun _ => 1)) e :=
  choose_isBest_iff squareRoot_nonneg (.fp7 (some fun _ => 1)) negativePeak 0

end Routine
end RocmFpx.Fpx
