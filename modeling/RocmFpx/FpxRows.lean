import RocmFpx.FpxLayout
import RocmFpx.FpxSymmetric

/-!
The row quantizers. They differ in the layout, in the choice of the scale bytes and in
the code of an input; every scale byte they write is one of the 127 valid ones.
-/

namespace RocmFpx.Fpx

/-! ## Rows -/

/-- The mean square of a row of `nb` blocks. -/
def rowSigma2 (x : ℕ → ℚ) (nb : ℕ) : ℚ :=
  ((List.range (nb * 32)).map fun i => x i * x i).sum / (nb * 32 : ℕ)

/-- The part `half` of block `ib`, `n` long. -/
def part (n : ℕ) (x : ℕ → ℚ) (ib half : ℕ) (j : Fin n) : ℚ := x (ib * 32 + half * n + j)

/-- The loop over the blocks that the row quantizers repeat. -/
def quantizeRow (L : Layout) (chooseScale : ℕ → ℕ → ℕ) (quantizeCode : ℚ → ℚ → L.Code)
    (x : ℕ → ℚ) (nb : ℕ) : List (BitVec 8) :=
  let e := fun ib half => BitVec.ofNat 8 (chooseScale ib half)
  L.rowBytes nb (fun ib j =>
    quantizeCode (x (ib * 32 + j)) (invScaleOf (scaleLookup (e ib (j * L.scales / 32)).toNat))) e

section

variable (sqrtf : ℚ → ℚ) (x : ℕ → ℚ) (nb : ℕ)

def quantizeRowFp2Impl (quantWeights : Option (ℕ → ℚ)) : List (BitVec 8) :=
  quantizeRow fp2Layout (fun ib half =>
    chooseScaleFp2Mse sqrtf (part 16 x ib half) (quantWeights.map fun qw => part 16 qw ib half)
      (rowSigma2 x nb)) quantizeFp2Code x nb

def quantizeRowFp3Ref : List (BitVec 8) :=
  quantizeRow fp3Layout (fun ib half => chooseScaleFp3Mse (part 16 x ib half)) quantizeFp3Code x nb

def quantizeRowFp3Weighted (quantWeights : ℕ → ℚ) : List (BitVec 8) :=
  quantizeRow fp3Layout (fun ib half =>
    chooseScaleFp3WeightedMse sqrtf (part 16 x ib half) (part 16 quantWeights ib half)
      (rowSigma2 x nb)) quantizeFp3Code x nb

def quantizeRowFp6Ref : List (BitVec 8) :=
  quantizeRow fp6Layout (fun ib half => chooseScaleFp6Mse (part 16 x ib half)) quantizeFp6Code x nb

def quantizeRowFp6Weighted (quantWeights : ℕ → ℚ) : List (BitVec 8) :=
  quantizeRow fp6Layout (fun ib half =>
    chooseScaleFp6WeightedMse sqrtf (part 16 x ib half) (part 16 quantWeights ib half)
      (rowSigma2 x nb)) quantizeFp6Code x nb

/-- The sum of squares is taken with weights only. -/
def linearSigma2 (quantWeights : Option (ℕ → ℚ)) : ℚ :=
  match quantWeights with
  | some _ => rowSigma2 x nb
  | none => 0

def quantizeRowFp5 (quantWeights : Option (ℕ → ℚ)) : List (BitVec 8) :=
  quantizeRow fp5Layout (fun ib half =>
    chooseScaleLinear sqrtf (part 16 x ib half) (quantWeights.map fun qw => part 16 qw ib half)
      (linearSigma2 x nb quantWeights) 5) (fun xi invScale => quantizeLinearCode xi invScale 5) x nb

def quantizeRowFp7 (quantWeights : Option (ℕ → ℚ)) : List (BitVec 8) :=
  quantizeRow fp7Layout (fun ib half =>
    chooseScaleLinear sqrtf (part 16 x ib half) (quantWeights.map fun qw => part 16 qw ib half)
      (linearSigma2 x nb quantWeights) 7) (fun xi invScale => quantizeLinearCode xi invScale 7) x nb

def quantizeRowFp8Ref : List (BitVec 8) :=
  quantizeRow fp8Layout (fun ib half => nearestScaleUe4m3 (maxAbs (part 32 x ib half) / 127))
    quantizeFp8Code x nb

def quantizeRowFp8Weighted (quantWeights : ℕ → ℚ) : List (BitVec 8) :=
  quantizeRow fp8Layout (fun ib half =>
    chooseScaleFp8WeightedMse sqrtf (part 32 x ib half) (part 32 quantWeights ib half)
      (rowSigma2 x nb)) quantizeFp8Code x nb

def quantizeRowI4Ref : List (BitVec 8) :=
  quantizeRow i4Layout (fun ib half => nearestScaleUe4m3 (maxAbs (part 32 x ib half) / 7))
    rocmi4QuantizeCode x nb

def quantizeRowI4Weighted (quantWeights : ℕ → ℚ) : List (BitVec 8) :=
  quantizeRow i4Layout (fun ib half =>
    chooseScaleI4WeightedMse sqrtf (part 32 x ib half) (part 32 quantWeights ib half)
      (rowSigma2 x nb)) rocmi4QuantizeCode x nb

end

/-! ## Scale bytes -/

theorem nearestScaleUe4m3_le (target : ℚ) : nearestScaleUe4m3 target ≤ 126 := by
  by_cases h : 0 < target
  · exact (nearestScaleUe4m3_bounds h).2
  · rw [nearestScaleUe4m3, if_pos h]
    decide

theorem scaleSearch_le (maxAbs maxCode : ℚ) (clipErr : ℚ → ℚ) (err : ℕ → WithTop ℚ → ℚ) :
    (scaleSearch maxAbs maxCode clipErr err).search 126 ≤ 126 :=
  PrunedSearch.search_le (nearestScaleUe4m3_le _) 126

/-- A block without a positive magnitude has the byte 0. -/
theorem guarded_le {p : Prop} [Decidable p] {e : ℕ} (he : e ≤ 126) :
    (if ¬ p then 0 else e) ≤ 126 := by
  split_ifs
  · exact he
  · exact Nat.zero_le 126

section

variable {n : ℕ} {sqrtf : ℚ → ℚ} (x qw : Fin n → ℚ) (oqw : Option (Fin n → ℚ)) (sigma2 : ℚ)

theorem chooseScaleFp2Mse_le : chooseScaleFp2Mse sqrtf x oqw sigma2 ≤ 126 :=
  guarded_le (scaleSearch_le _ _ _ _)

theorem chooseScaleFp3Mse_le : chooseScaleFp3Mse x ≤ 126 :=
  guarded_le (scaleSearch_le _ _ _ _)

theorem chooseScaleFp3WeightedMse_le : chooseScaleFp3WeightedMse sqrtf x qw sigma2 ≤ 126 :=
  guarded_le (scaleSearch_le _ _ _ _)

theorem chooseScaleFp6Mse_le : chooseScaleFp6Mse x ≤ 126 :=
  guarded_le (scaleSearch_le _ _ _ _)

theorem chooseScaleFp6WeightedMse_le : chooseScaleFp6WeightedMse sqrtf x qw sigma2 ≤ 126 :=
  guarded_le (scaleSearch_le _ _ _ _)

theorem chooseScaleLinear_le (bits : ℕ) :
    chooseScaleLinear sqrtf x oqw sigma2 bits ≤ 126 :=
  guarded_le (scaleSearch_le _ _ _ _)

theorem chooseScaleFp8WeightedMse_le : chooseScaleFp8WeightedMse sqrtf x qw sigma2 ≤ 126 :=
  guarded_le (scaleSearch_le _ _ _ _)

theorem chooseScaleI4WeightedMse_le : chooseScaleI4WeightedMse sqrtf x qw sigma2 ≤ 126 :=
  guarded_le (scaleSearch_le _ _ _ _)

end

theorem quantizeRow_valid {L : Layout} (hpos : 0 < L.blockSize) {chooseScale : ℕ → ℕ → ℕ}
    (hscale : ∀ ib half, chooseScale ib half ≤ 126) (quantizeCode : ℚ → ℚ → L.Code) (x : ℕ → ℚ)
    (nb : ℕ) : L.validateRowData (quantizeRow L chooseScale quantizeCode x nb) = true := by
  refine (Layout.validateRowData_iff hpos _).mpr
    ⟨nb, Layout.rowBytes_length, fun ib hib half hhalf => ?_⟩
  rw [quantizeRow, Layout.rowScales_rowBytes hib hhalf, BitVec.toNat_ofNat]
  exact (Nat.mod_le _ _).trans (hscale ib half)

section

variable {sqrtf : ℚ → ℚ} {x qw : ℕ → ℚ} {oqw : Option (ℕ → ℚ)} {nb : ℕ}

theorem quantizeRowFp2Impl_valid :
    fp2Layout.validateRowData (quantizeRowFp2Impl sqrtf x nb oqw) = true :=
  quantizeRow_valid (by decide) (fun _ _ => chooseScaleFp2Mse_le _ _ _) _ x nb

theorem quantizeRowFp3Ref_valid :
    fp3Layout.validateRowData (quantizeRowFp3Ref x nb) = true :=
  quantizeRow_valid (by decide) (fun _ _ => chooseScaleFp3Mse_le _) _ x nb

theorem quantizeRowFp3Weighted_valid :
    fp3Layout.validateRowData (quantizeRowFp3Weighted sqrtf x nb qw) = true :=
  quantizeRow_valid (by decide) (fun _ _ => chooseScaleFp3WeightedMse_le _ _ _) _ x nb

theorem quantizeRowFp6Ref_valid :
    fp6Layout.validateRowData (quantizeRowFp6Ref x nb) = true :=
  quantizeRow_valid (by decide) (fun _ _ => chooseScaleFp6Mse_le _) _ x nb

theorem quantizeRowFp6Weighted_valid :
    fp6Layout.validateRowData (quantizeRowFp6Weighted sqrtf x nb qw) = true :=
  quantizeRow_valid (by decide) (fun _ _ => chooseScaleFp6WeightedMse_le _ _ _) _ x nb

theorem quantizeRowFp5_valid :
    fp5Layout.validateRowData (quantizeRowFp5 sqrtf x nb oqw) = true :=
  quantizeRow_valid (by decide) (fun _ _ => chooseScaleLinear_le _ _ _ 5) _ x nb

theorem quantizeRowFp7_valid :
    fp7Layout.validateRowData (quantizeRowFp7 sqrtf x nb oqw) = true :=
  quantizeRow_valid (by decide) (fun _ _ => chooseScaleLinear_le _ _ _ 7) _ x nb

theorem quantizeRowFp8Ref_valid :
    fp8Layout.validateRowData (quantizeRowFp8Ref x nb) = true :=
  quantizeRow_valid (by decide) (fun _ _ => nearestScaleUe4m3_le _) _ x nb

theorem quantizeRowFp8Weighted_valid :
    fp8Layout.validateRowData (quantizeRowFp8Weighted sqrtf x nb qw) = true :=
  quantizeRow_valid (by decide) (fun _ _ => chooseScaleFp8WeightedMse_le _ _ _) _ x nb

theorem quantizeRowI4Ref_valid :
    i4Layout.validateRowData (quantizeRowI4Ref x nb) = true :=
  quantizeRow_valid (by decide) (fun _ _ => nearestScaleUe4m3_le _) _ x nb

theorem quantizeRowI4Weighted_valid :
    i4Layout.validateRowData (quantizeRowI4Weighted sqrtf x nb qw) = true :=
  quantizeRow_valid (by decide) (fun _ _ => chooseScaleI4WeightedMse_le _ _ _) _ x nb

end

/-! ## The formats -/

inductive Format where
  | fp2 | fp3 | fp5 | fp6 | fp7 | fp8 | i4

namespace Format

def layout : Format → Layout
  | .fp2 => fp2Layout
  | .fp3 => fp3Layout
  | .fp5 => fp5Layout
  | .fp6 => fp6Layout
  | .fp7 => fp7Layout
  | .fp8 => fp8Layout
  | .i4 => i4Layout

/-- The row quantizers, with and without weights. -/
def quantize (sqrtf : ℚ → ℚ) (x : ℕ → ℚ) (nb : ℕ) : Format → Option (ℕ → ℚ) → List (BitVec 8)
  | .fp2, qw => quantizeRowFp2Impl sqrtf x nb qw
  | .fp3, none => quantizeRowFp3Ref x nb
  | .fp3, some qw => quantizeRowFp3Weighted sqrtf x nb qw
  | .fp5, qw => quantizeRowFp5 sqrtf x nb qw
  | .fp6, none => quantizeRowFp6Ref x nb
  | .fp6, some qw => quantizeRowFp6Weighted sqrtf x nb qw
  | .fp7, qw => quantizeRowFp7 sqrtf x nb qw
  | .fp8, none => quantizeRowFp8Ref x nb
  | .fp8, some qw => quantizeRowFp8Weighted sqrtf x nb qw
  | .i4, none => quantizeRowI4Ref x nb
  | .i4, some qw => quantizeRowI4Weighted sqrtf x nb qw

theorem blockSize_pos (F : Format) : 0 < F.layout.blockSize := by
  cases F <;> decide

theorem quantize_valid (F : Format) (sqrtf : ℚ → ℚ) (x : ℕ → ℚ) (nb : ℕ)
    (quantWeights : Option (ℕ → ℚ)) :
    F.layout.validateRowData (F.quantize sqrtf x nb quantWeights) = true := by
  cases F with
  | fp2 => exact quantizeRowFp2Impl_valid
  | fp3 =>
    cases quantWeights with
    | none => exact quantizeRowFp3Ref_valid
    | some qw => exact quantizeRowFp3Weighted_valid
  | fp5 => exact quantizeRowFp5_valid
  | fp6 =>
    cases quantWeights with
    | none => exact quantizeRowFp6Ref_valid
    | some qw => exact quantizeRowFp6Weighted_valid
  | fp7 => exact quantizeRowFp7_valid
  | fp8 =>
    cases quantWeights with
    | none => exact quantizeRowFp8Ref_valid
    | some qw => exact quantizeRowFp8Weighted_valid
  | i4 =>
    cases quantWeights with
    | none => exact quantizeRowI4Ref_valid
    | some qw => exact quantizeRowI4Weighted_valid

/-- Rows of any number of blocks lose nothing in either direction, and the check accepts the
rows with valid scale bytes, those of the quantizers among them. -/
theorem rows_lossless (F : Format) :
    (∀ nb codes e, (∀ ib < nb, ∀ i < 32, F.layout.InRange (codes ib i)) → ∀ ib < nb,
      (∀ i < 32, F.layout.rowCodes (F.layout.rowBytes nb codes e) ib i = codes ib i) ∧
        ∀ half < F.layout.scales,
          F.layout.rowScales (F.layout.rowBytes nb codes e) ib half = e ib half) ∧
    (∀ nb data, data.length = nb * F.layout.blockSize →
      F.layout.rowBytes nb (F.layout.rowCodes data) (F.layout.rowScales data) = data ∧
        ∀ ib < nb, ∀ i < 32, F.layout.InRange (F.layout.rowCodes data ib i)) ∧
    (∀ data, F.layout.validateRowData data = true ↔
      ∃ nb, data.length = nb * F.layout.blockSize ∧
        ∀ ib < nb, ∀ half < F.layout.scales, (F.layout.rowScales data ib half).toNat ≤ 0x7e) ∧
    ∀ sqrtf x nb quantWeights,
      F.layout.validateRowData (F.quantize sqrtf x nb quantWeights) = true := by
  refine ⟨fun nb codes e hcodes ib hib => ⟨?_, ?_⟩, fun nb data hlen => ⟨?_, ?_⟩, ?_, ?_⟩
  · exact Layout.rowCodes_rowBytes hcodes hib
  · exact fun half hhalf => Layout.rowScales_rowBytes hib hhalf
  · exact Layout.rowBytes_rowCodes hlen
  · exact fun ib _ => F.layout.inRange (F.layout.blockAt data ib)
  · exact Layout.validateRowData_iff F.blockSize_pos
  · exact F.quantize_valid

end Format
end RocmFpx.Fpx
