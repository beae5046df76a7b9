import RocmFpx.FpxCodec
import RocmFpx.SoundSearch

/-!
The formats with a symmetric codebook, over exact rationals: FP2 (1 and 4, no zero), FP3
(0, 1, 2, 4), FP8 (integers up to 127) and ROCmFP4 (0 to 4, 6, 8, 10), with their
choices of the scale byte. The errors of the formats differ in the decoded value only.
-/

namespace RocmFpx.Fpx

variable {n : ℕ}

/-! ## Codes -/

def decodeFp2Code (code : BitVec 8) : ℤ := [-4, -1, 1, 4].getD (code &&& 3).toNat 0

def quantizeFp2Code (x invScale : ℚ) : BitVec 8 :=
  if ¬ invScale > 0 then 0
  else
    let outer : Bool := decide (|x * invScale| > 5 / 2)
    if x < 0 then (if outer then 0 else 1) else (if outer then 3 else 2)

def decodeFp3Code (code : BitVec 8) : ℤ :=
  let value : ℤ := [0, 1, 2, 4].getD (code &&& 3).toNat 0
  if code &&& 4 ≠ 0 then -value else value

def quantizeFp3Code (x invScale : ℚ) : BitVec 8 :=
  if invScale ≤ 0 then 0
  else
    let ax := |x * invScale|
    let mag : BitVec 8 :=
      if ax ≤ 1 / 2 then 0 else if ax ≤ 3 / 2 then 1 else if ax ≤ 3 then 2 else 3
    if mag = 0 then 0 else (if x < 0 then 4 else 0) ||| mag

def fp3DecodedMag (x invScale : ℚ) : ℤ :=
  let a := |x * invScale|
  if a ≤ 1 / 2 then 0
  else
    let mag : ℤ := if a ≤ 3 / 2 then 1 else if a ≤ 3 then 2 else 4
    if x < 0 then -mag else mag

def quantizeFp8Code (x invScale : ℚ) : ℤ :=
  if invScale ≤ 0 then 0
  else
    let q := toInt (lroundf (x * invScale))
    if q > 127 then 127 else if q < -127 then -127 else q

def rocmfp4Decode (q : BitVec 8) : ℤ :=
  let q := q &&& 0x0f
  let mag3 : ℤ := (q &&& 0x07).toNat
  let mag := if mag3 ≤ 4 then mag3 else 2 * mag3 - 4
  if q &&& 0x08 ≠ 0 then -mag else mag

def rocmfp4BestIndexScaled (x invScaleHalf : ℚ) : BitVec 8 :=
  let a := |x * invScaleHalf|
  if a ≤ 1 / 2 then 0
  else
    let neg : Bool := decide (x < 0)
    if a ≤ 3 / 2 then (if neg then 9 else 1)
    else if a ≤ 5 / 2 then (if neg then 10 else 2)
    else if a ≤ 7 / 2 then (if neg then 11 else 3)
    else if a ≤ 5 then (if neg then 12 else 4)
    else if a ≤ 7 then (if neg then 13 else 5)
    else if a ≤ 9 then (if neg then 14 else 6)
    else (if neg then 15 else 7)

def rocmfp4DecodedMagScaled (x invScaleHalf : ℚ) : ℤ :=
  let a := |x * invScaleHalf|
  let mag : ℤ :=
    if a ≤ 1 / 2 then 0
    else if a ≤ 3 / 2 then 1
    else if a ≤ 5 / 2 then 2
    else if a ≤ 7 / 2 then 3
    else if a ≤ 5 then 4
    else if a ≤ 7 then 6
    else if a ≤ 9 then 8
    else 10
  if x < 0 then -mag else mag

theorem decode_quantize_fp3 (x : ℚ) {invScale : ℚ} (h : 0 < invScale) :
    decodeFp3Code (quantizeFp3Code x invScale) = fp3DecodedMag x invScale := by
  unfold quantizeFp3Code fp3DecodedMag
  rw [if_neg (not_le_of_gt h)]
  dsimp only
  split_ifs <;> first | rfl | contradiction

theorem decode_bestIndex (x invScaleHalf : ℚ) :
    rocmfp4Decode (rocmfp4BestIndexScaled x invScaleHalf) =
      rocmfp4DecodedMagScaled x invScaleHalf := by
  unfold rocmfp4BestIndexScaled rocmfp4DecodedMagScaled
  dsimp only
  by_cases hneg : x < 0
  · simp only [hneg, decide_true, if_true]
    split_ifs <;> rfl
  · simp only [hneg, decide_false, if_false, Bool.false_eq_true]
    split_ifs <;> rfl

/-! ## Largest magnitudes -/

theorem abs_decodeFp2Code_le (code : BitVec 8) : |decodeFp2Code code| ≤ 4 := by
  have hall : ∀ k < 4, |[-4, -1, 1, 4].getD k (0 : ℤ)| ≤ 4 := by decide
  refine hall _ ?_
  have : (code &&& 3).toNat ≤ 3 := by
    rw [BitVec.toNat_and]
    exact Nat.and_le_right
  omega

theorem abs_fp3DecodedMag_le (x invScale : ℚ) : |fp3DecodedMag x invScale| ≤ 4 := by
  unfold fp3DecodedMag
  dsimp only
  split_ifs <;> decide

theorem abs_quantizeFp8Code_le (x invScale : ℚ) : |quantizeFp8Code x invScale| ≤ 127 := by
  unfold quantizeFp8Code
  rw [abs_le]
  dsimp only
  split_ifs <;> omega

theorem abs_rocmfp4DecodedMagScaled_le (x invScaleHalf : ℚ) :
    |rocmfp4DecodedMagScaled x invScaleHalf| ≤ 10 := by
  unfold rocmfp4DecodedMagScaled
  dsimp only
  split_ifs <;> decide

/-! ## Errors of a scale byte -/

/-- The error sum that the formats share: `value` is the decoded value of an input. -/
def mseForScale (value : ℚ → ℚ → ℤ) (x weight : Fin n → ℚ) (scale invScale : ℚ)
    (bestErr : WithTop ℚ) : ℚ :=
  cappedSum (fun i =>
    let d := x i - value (x i) invScale * scale
    weight i * d * d) bestErr (List.finRange n) 0

def fp2GroupMseForScale (x : Fin n → ℚ) (mseWeights : Option (Fin n → ℚ)) (e : ℕ)
    (bestErr : WithTop ℚ) : ℚ :=
  mseForScale (fun xi invScale => decodeFp2Code (quantizeFp2Code xi invScale)) x
    (mseWeights.getD fun _ => 1) (scaleLookup e) (invScaleOf (scaleLookup e)) bestErr

def fp3BlockMseForScale (x : Fin n → ℚ) (e : ℕ) (bestErr : WithTop ℚ) : ℚ :=
  mseForScale fp3DecodedMag x (fun _ => 1) (scaleLookup e) (invScaleOf (scaleLookup e)) bestErr

def fp3BlockWeightedMseForScale (x mseWeights : Fin n → ℚ) (e : ℕ) (bestErr : WithTop ℚ) : ℚ :=
  mseForScale fp3DecodedMag x mseWeights (scaleLookup e) (invScaleOf (scaleLookup e)) bestErr

def fp8BlockWeightedMseForScale (x mseWeights : Fin n → ℚ) (e : ℕ) (bestErr : WithTop ℚ) : ℚ :=
  mseForScale quantizeFp8Code x mseWeights (scaleLookup e) (invScaleOf (scaleLookup e)) bestErr

def rocmfp4BlockMseForScaleUnweighted (x : Fin n → ℚ) (e : ℕ) (bestErr : WithTop ℚ) : ℚ :=
  mseForScale rocmfp4DecodedMagScaled x (fun _ => 1) (scaleLookup e) (1 / scaleLookup e) bestErr

def rocmfp4BlockMseForScaleWeighted (x mseWeights : Fin n → ℚ) (e : ℕ)
    (bestErr : WithTop ℚ) : ℚ :=
  mseForScale rocmfp4DecodedMagScaled x mseWeights (scaleLookup e) (1 / scaleLookup e) bestErr

/-! ## The searches -/

section

variable (sqrtf : ℚ → ℚ)

def chooseScaleFp2Mse (x : Fin n → ℚ) (quantWeights : Option (Fin n → ℚ)) (sigma2 : ℚ) : ℕ :=
  let prepared := quantWeights.map fun qw => prepareMseWeights sqrtf x qw sigma2
  let maxAbs := match prepared with | some p => p.maxAbs | none => maxAbs x
  let maxAbsWeight := match prepared with | some p => p.maxAbsWeight | none => 1
  if ¬ 0 < maxAbs then 0
  else
    (scaleSearch maxAbs 4 (fun clipDelta => maxAbsWeight * clipDelta * clipDelta)
      (fun e bestErr =>
        fp2GroupMseForScale x (prepared.map MseWeights.dst) e bestErr)).search 126

def chooseScaleFp3MseImpl (x : Fin n → ℚ) (mseWeights : Option (Fin n → ℚ))
    (maxAbs maxAbsWeight : ℚ) : ℕ :=
  (scaleSearch maxAbs 4
    (fun clipDelta => match mseWeights with
      | some _ => maxAbsWeight * clipDelta * clipDelta
      | none => clipDelta * clipDelta)
    (fun e bestErr => match mseWeights with
      | some w => fp3BlockWeightedMseForScale x w e bestErr
      | none => fp3BlockMseForScale x e bestErr)).search 126

def chooseScaleFp3Mse (x : Fin n → ℚ) : ℕ :=
  let maxAbs := maxAbs x
  if ¬ 0 < maxAbs then 0 else chooseScaleFp3MseImpl x none maxAbs 0

def chooseScaleFp3WeightedMse (x quantWeights : Fin n → ℚ) (sigma2 : ℚ) : ℕ :=
  let p := prepareMseWeights sqrtf x quantWeights sigma2
  if ¬ 0 < p.maxAbs then 0 else chooseScaleFp3MseImpl x (some p.dst) p.maxAbs p.maxAbsWeight

def chooseScaleFp8WeightedMse (x quantWeights : Fin n → ℚ) (sigma2 : ℚ) : ℕ :=
  let p := prepareMseWeights sqrtf x quantWeights sigma2
  if ¬ 0 < p.maxAbs then 0
  else
    (scaleSearch p.maxAbs 127 (fun clipDelta => p.maxAbsWeight * clipDelta * clipDelta)
      (fun e bestErr => fp8BlockWeightedMseForScale x p.dst e bestErr)).search 126

def rocmfp4NearestScaleUe4m3 (targetScaleHalf : ℚ) : ℕ :=
  if ¬ 0 < targetScaleHalf then 1
  else
    let lo := bisect targetScaleHalf 126 1 126
    if lo = 1 then 1
    else if targetScaleHalf - scaleTable (lo - 1) ≤ scaleTable lo - targetScaleHalf then lo - 1
    else lo

/-- `FLT_MAX`. -/
def fltMax : ℚ := (2 ^ 24 - 1) * 2 ^ 104

/-- The ROCmFP4 loops start with no byte and the error `FLT_MAX`. -/
def rocmfp4Search (S : PrunedSearch ℚ) : ℕ := (S.loop 126 0 ⟨0, (fltMax : ℚ), false⟩).bestE

def rocmfp4ChooseScaleUnweighted (x : Fin n → ℚ) (maxAbs : ℚ) : ℕ :=
  rocmfp4Search
    { hi := 126
      start := rocmfp4NearestScaleUe4m3 (maxAbs / 10)
      err := fun e bestErr => rocmfp4BlockMseForScaleUnweighted x e bestErr
      clips := fun e => decide (maxAbs - 10 * scaleLookup e > 0)
      bound := fun e =>
        (maxAbs - 10 * scaleLookup e) * (maxAbs - 10 * scaleLookup e) }

def rocmfp4ChooseScaleWeighted (x mseWeights : Fin n → ℚ) (maxAbs maxAbsWeight : ℚ) : ℕ :=
  rocmfp4Search
    { hi := 126
      start := rocmfp4NearestScaleUe4m3 (maxAbs / 10)
      err := fun e bestErr => rocmfp4BlockMseForScaleWeighted x mseWeights e bestErr
      clips := fun e => decide (maxAbsWeight > 0 ∧ maxAbs - 10 * scaleLookup e > 0)
      bound := fun e =>
        maxAbsWeight * (maxAbs - 10 * scaleLookup e) * (maxAbs - 10 * scaleLookup e) }

/-- For one scale byte per half block (the normal layout) or per block (the fast one). -/
def rocmfp4ChooseScaleUe4m3 (x : Fin n → ℚ) (quantWeights : Option (Fin n → ℚ)) (sigma2 : ℚ) :
    ℕ :=
  match quantWeights with
  | some qw =>
    let p := prepareMseWeights sqrtf x qw sigma2
    if ¬ 0 < p.maxAbs then 0 else rocmfp4ChooseScaleWeighted x p.dst p.maxAbs p.maxAbsWeight
  | none =>
    let maxAbs := maxAbs x
    if ¬ 0 < maxAbs then 0 else rocmfp4ChooseScaleUnweighted x maxAbs

end

/-! ## The weight of the largest magnitude -/

theorem prepareMseWeights_peak {sqrtf : ℚ → ℚ} (x quantWeights : Fin n → ℚ) (sigma2 : ℚ)
    (hpos : 0 < maxAbs x) : ∃ i, |x i| = maxAbs x ∧
      (prepareMseWeights sqrtf x quantWeights sigma2).dst i =
        (prepareMseWeights sqrtf x quantWeights sigma2).maxAbsWeight := by
  have hfold : ∀ (w : Fin n → ℚ) (is : List (Fin n)) (m : ℚ × ℚ),
      m.1 ≤ 0 ∨ (∃ i, |x i| = m.1 ∧ w i = m.2) →
      let r := is.foldl (fun (m : ℚ × ℚ) i =>
        if |x i| > m.1 then (|x i|, w i) else if |x i| = m.1 ∧ w i > m.2 then (m.1, w i)
        else m) m
      r.1 ≤ 0 ∨ ∃ i, |x i| = r.1 ∧ w i = r.2 := by
    intro w is
    induction is with
    | nil => exact fun m hm => hm
    | cons i is ih =>
      intro m hm
      rw [List.foldl_cons]
      refine ih _ ?_
      split_ifs with hgt heq
      · exact .inr ⟨i, rfl, rfl⟩
      · exact .inr ⟨i, heq.1, rfl⟩
      · exact hm
  have hmax : (prepareMseWeights sqrtf x quantWeights sigma2).maxAbs = maxAbs x :=
    prepareMseWeights_maxAbs x quantWeights sigma2
  rcases hfold (prepareMseWeights sqrtf x quantWeights sigma2).dst (List.finRange n) (0, 0)
    (.inl le_rfl) with hle | ⟨i, hi, hw⟩
  · rw [← hmax] at hpos
    exact absurd hpos (not_lt_of_ge hle)
  · exact ⟨i, hi.trans hmax, hw⟩

theorem clip_le {v M : ℤ} (hv : |v| ≤ M) {xi scale weight : ℚ} (hscale : 0 ≤ scale)
    (hweight : 0 ≤ weight) (hclip : 0 ≤ |xi| - M * scale) :
    weight * (|xi| - M * scale) * (|xi| - M * scale) ≤
      weight * (xi - v * scale) * (xi - v * scale) := by
  have hvq : |(v : ℚ)| ≤ M := by exact_mod_cast hv
  have hvs : |(v : ℚ) * scale| ≤ M * scale := by
    rw [abs_mul, abs_of_nonneg hscale]
    gcongr
  have hd : |xi| - M * scale ≤ |xi - v * scale| := by
    have := abs_sub_abs_le_abs_sub xi (v * scale)
    linarith
  have hsq : (|xi| - M * scale) * (|xi| - M * scale) ≤ (xi - v * scale) * (xi - v * scale) := by
    rw [← abs_mul_abs_self (xi - v * scale)]
    exact mul_self_le_mul_self hclip hd
  rw [mul_assoc, mul_assoc]
  gcongr

end RocmFpx.Fpx
