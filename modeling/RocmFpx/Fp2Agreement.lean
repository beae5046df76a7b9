import RocmFpx.Fp2Reference
import RocmFpx.FpxRows
import RocmFpx.FpxSymmetricOptimal

/-!
The FP2 row quantizer without weights against the frozen reference with the magnitudes 1
and 4. For one scale byte both store the same codes. The reference searches the byte 0
too, the row quantizer takes it for groups of zeros only.
-/

namespace RocmFpx.Fp2Reference

open Fpx

def s40 : Codebook := ⟨1, 4⟩

theorem s40_valid : codebookIsValid s40 := by decide

def Block.bytes (block : Block) : List (BitVec 8) := List.ofFn block.d ++ List.ofFn block.s

/-- The bytes of the blocks of a row, each from the reference. -/
def referenceRow (x : ℕ → ℚ) (nb : ℕ) : List (BitVec 8) :=
  (List.range nb).flatMap fun ib =>
    match quantizeBlockRef (fun i => x (ib * 32 + i)) s40 .mord with
    | .ok (block, _) => block.bytes
    | .error _ => []

def dequantizeRowFp2 (data : List (BitVec 8)) (i : ℕ) : ℚ :=
  decodeFp2Code (fp2Layout.rowCodes data (i / 32) (i % 32)) *
    scaleLookup (fp2Layout.rowScales data (i / 32) (i % 32 / 16)).toNat

/-- The decoded values of the blocks of the reference. -/
def referenceValue (x : ℕ → ℚ) (i : ℕ) : Except Status ℚ :=
  (quantizeBlockRef (fun j => x (i / 32 * 32 + j)) s40 .mord).bind fun quantized =>
    (dequantizeBlock quantized.1 s40 .mord).map fun output => output (i % 32)

/-! ## One scale byte -/

theorem decodeScaleValid_eq {e : ℕ} (he : e ≤ 126) :
    decodeScaleValid (BitVec.ofNat 8 e) = scaleLookup e := by
  have hall : ∀ e < 127, decodeScaleValid (BitVec.ofNat 8 e) = scaleLookup e := by decide +kernel
  exact hall e (by omega)

theorem selectCode_eq_quantizeFp2Code (x : ℚ) {e : ℕ} (he : e ≤ 126) :
    selectCodeOptimizedValid x (decodeScaleValid (BitVec.ofNat 8 e)) s40 .mord =
      quantizeFp2Code x (invScaleOf (scaleLookup e)) := by
  rw [decodeScaleValid_eq he]
  rcases Nat.eq_zero_or_pos e with rfl | hpos
  · rw [selectCodeOptimizedValid, if_pos scaleLookup_zero, quantizeFp2Code, invScaleOf,
      scaleLookup_zero]
    rfl
  · have hscale := scaleLookup_pos hpos he
    have hinv : invScaleOf (scaleLookup e) = 1 / scaleLookup e := if_pos hscale
    have hmagnitude : |x * (1 / scaleLookup e)| > 5 / 2 ↔
        (|x| - (4 : ℕ) * scaleLookup e) * (|x| - (4 : ℕ) * scaleLookup e) <
          (|x| - (1 : ℕ) * scaleLookup e) * (|x| - (1 : ℕ) * scaleLookup e) := by
      rw [abs_mul, abs_of_pos (one_div_pos.mpr hscale), mul_one_div, gt_iff_lt, lt_div_iff₀ hscale]
      push_cast
      constructor
      · intro h
        nlinarith
      · intro h
        nlinarith
    rw [selectCodeOptimizedValid, if_neg hscale.ne', quantizeFp2Code, hinv,
      if_neg (not_not.mpr (one_div_pos.mpr hscale))]
    simp only [s40, encodeSemanticValid, decide_eq_decide.mpr hmagnitude]
    by_cases hneg : x < 0 <;> simp [hneg]

theorem decodeCodeValid_eq {code : BitVec 8} (hcode : code ≤ 3) :
    decodeCodeValid code s40 .mord = decodeFp2Code code := by
  revert code
  decide

/-! ## One group -/

/-- The error of a group under the scale byte `e`. -/
def groupError (y : Fin 16 → ℚ) (e : ℕ) : ℚ :=
  SymmetricRoutine.blockError (fun _ => 0) y 0 (.fp2 none) e

/-- The group is zero or some scale above zero has an error below its energy, the error of
the scale zero. -/
def UsesScale (y : Fin 16 → ℚ) : Prop :=
  (∀ j, y j = 0) ∨ ∃ e ∈ Set.Icc 1 126, groupError y e < ∑ j, y j * y j

variable {source : ℕ → ℚ} {y : Fin 16 → ℚ}

/-- What the reference minimizes. -/
def referenceSse (source : ℕ → ℚ) (e : ℕ) : ℚ :=
  (candidate selectCodeOptimizedValid source s40 .mord e).sse

theorem referenceSse_eq_sum (source : ℕ → ℚ) {e : ℕ} (he : e ≤ 126) :
    referenceSse source e = ∑ j : Fin 16, (source j -
      decodeFp2Code (quantizeFp2Code (source j) (invScaleOf (scaleLookup e))) *
        scaleLookup e) ^ 2 := by
  have hsum : referenceSse source e = ∑ i ∈ Finset.range 16, codeError (source i)
      (decodeScaleValid (BitVec.ofNat 8 e)) s40 .mord
        (selectCodeOptimizedValid (source i) (decodeScaleValid (BitVec.ofNat 8 e)) s40 .mord) :=
    rfl
  rw [hsum, Finset.sum_range]
  refine Finset.sum_congr rfl fun j _ => ?_
  rw [codeError, decodeCodeValid_eq ((mem_codes_iff _).mp (selectCode_mem _ _)),
    selectCode_eq_quantizeFp2Code _ he, decodeScaleValid_eq he]
  ring

theorem referenceSse_eq (hy : ∀ j : Fin 16, y j = source j) {e : ℕ} (he : e ∈ Set.Icc 1 126) :
    referenceSse source e = groupError y e := by
  have hinv : invScaleOf (scaleLookup e) = 1 / scaleLookup e := if_pos (scaleLookup_pos he.1 he.2)
  rw [referenceSse_eq_sum source he.2, groupError, SymmetricRoutine.blockError, hinv]
  refine Finset.sum_congr rfl fun j _ => ?_
  rw [hy j]
  exact (one_mul _).symm

theorem referenceSse_zero (hy : ∀ j : Fin 16, y j = source j) :
    referenceSse source 0 = ∑ j, y j * y j := by
  rw [referenceSse_eq_sum source (Nat.zero_le 126), scaleLookup_zero]
  refine Finset.sum_congr rfl fun j _ => ?_
  rw [hy j, mul_zero, sub_zero, sq]

theorem reference_isBest (source : ℕ → ℚ) :
    IsBest (referenceSse source) (Set.Icc 0 126)
      (bestCandidate selectCodeOptimizedValid source s40 .mord).scaleByte.toNat := by
  obtain ⟨e, he, heq, hleast⟩ := bestCandidate_spec selectCodeOptimizedValid source s40 .mord
  have hbyte : (candidate selectCodeOptimizedValid source s40 .mord e).scaleByte.toNat = e :=
    toNat_ofNat_le he
  rw [heq, hbyte]
  exact ⟨⟨Nat.zero_le e, he⟩, fun e' he' => hleast e' he'.2⟩

theorem production_isBest (sqrtf : ℚ → ℚ) (sigma2 : ℚ) (hne : ∃ j, y j ≠ 0) :
    IsBest (groupError y) (Set.Icc 1 126) (chooseScaleFp2Mse sqrtf y none sigma2) := by
  have hbest := (@SymmetricRoutine.choose_best_iff 16 (fun _ => 0) (fun _ => le_rfl)
    (.fp2 none) y 0).mpr ⟨hne, trivial⟩
  exact hbest

theorem production_zero (sqrtf : ℚ → ℚ) (sigma2 : ℚ) (hzero : ∀ j, y j = 0) :
    chooseScaleFp2Mse sqrtf y none sigma2 = 0 := by
  have hmax : ¬ 0 < maxAbs y := by
    rw [maxAbs_pos_iff]
    exact fun ⟨j, hj⟩ => hj (hzero j)
  rw [chooseScaleFp2Mse]
  exact if_pos hmax

theorem scaleByte_eq_iff (sqrtf : ℚ → ℚ) (sigma2 : ℚ) (hy : ∀ j : Fin 16, y j = source j) :
    chooseScaleFp2Mse sqrtf y none sigma2 =
        (bestCandidate selectCodeOptimizedValid source s40 .mord).scaleByte.toNat ↔
      UsesScale y := by
  have href := reference_isBest source
  by_cases hzero : ∀ j, y j = 0
  · have henergy : referenceSse source 0 = 0 := by
      rw [referenceSse_zero hy]
      exact Finset.sum_eq_zero fun j _ => by rw [hzero j, mul_zero]
    have hbest : IsBest (referenceSse source) (Set.Icc 0 126) 0 := by
      refine ⟨⟨le_rfl, Nat.zero_le 126⟩, fun e he => ?_⟩
      have hnonneg : 0 ≤ referenceSse source e := by
        rw [referenceSse_eq_sum source he.2]
        exact Finset.sum_nonneg fun j _ => sq_nonneg _
      rw [henergy]
      rcases hnonneg.lt_or_eq with hlt | heq
      · exact .inl hlt
      · exact .inr ⟨heq, Nat.zero_le e⟩
    rw [production_zero sqrtf sigma2 hzero, ← hbest.unique href]
    exact iff_of_true rfl (.inl hzero)
  · push Not at hzero
    have hprod := production_isBest sqrtf sigma2 hzero
    constructor
    · intro heq
      refine .inr ⟨_, hprod.1, ?_⟩
      rw [← referenceSse_eq hy hprod.1, ← referenceSse_zero hy, heq]
      rw [← heq] at href ⊢
      rcases href.2 0 ⟨le_rfl, Nat.zero_le 126⟩ with hlt | ⟨-, hle⟩
      · exact hlt
      · exact absurd hprod.1.1 (by omega)
    · rintro (hall | ⟨e, he, hlt⟩)
      · obtain ⟨j, hj⟩ := hzero
        exact absurd (hall j) hj
      · rw [← referenceSse_eq hy he, ← referenceSse_zero hy] at hlt
        have hpos : 1 ≤ (bestCandidate selectCodeOptimizedValid source s40 .mord).scaleByte.toNat := by
          refine Nat.one_le_iff_ne_zero.mpr fun h0 => ?_
          rw [h0] at href
          exact absurd (href.le ⟨Nat.zero_le e, he.2⟩) (not_le_of_gt hlt)
        have hsub : IsBest (referenceSse source) (Set.Icc 1 126)
            (bestCandidate selectCodeOptimizedValid source s40 .mord).scaleByte.toNat :=
          href.mono (Set.Icc_subset_Icc_left (Nat.zero_le 1)) ⟨hpos, href.1.2⟩
        exact hprod.unique ((IsBest.congr fun e he => referenceSse_eq hy he).mp hsub)

/-! ## Rows -/

theorem fp2_rowScales {nb : ℕ} {codes e : ℕ → ℕ → BitVec 8} {ib half : ℕ} (hib : ib < nb)
    (hhalf : half < 2) : fp2Layout.rowScales (fp2Layout.rowBytes nb codes e) ib half = e ib half :=
  Layout.rowScales_rowBytes (L := fp2Layout) hib hhalf

theorem inWidth_of_le {code : BitVec 8} (h : code ≤ 3) : InWidth 2 code := by
  have hle : code.toNat ≤ 3 := BitVec.le_def.mp h
  rw [InWidth]
  omega

theorem fp2_rowCodes {nb : ℕ} {codes e : ℕ → ℕ → BitVec 8} (hcodes : ∀ ib j, codes ib j ≤ 3)
    {ib j : ℕ} (hib : ib < nb) (hj : j < 32) :
    fp2Layout.rowCodes (fp2Layout.rowBytes nb codes e) ib j = codes ib j :=
  Layout.rowCodes_rowBytes (L := fp2Layout)
    (fun ib _ j _ => inWidth_of_le (hcodes ib j)) hib j hj

theorem dequantizeBlock_ok {cb : Codebook} (hcb : codebookIsValid cb) (mapping : Mapping)
    {block : Block} (hblock : ∀ group, scaleIsValid (block.s group)) :
    dequantizeBlock block cb mapping = .ok fun i =>
      decodeCodeValid (unpackCodes block i) cb mapping *
        decodeScaleValid (block.s (if i / 16 = 0 then 0 else 1)) := by
  rw [dequantizeBlock, if_neg (not_not.mpr hcb), if_neg (not_not.mpr ⟨hblock 0, hblock 1⟩)]

def referenceScale (x : ℕ → ℚ) (ib half : ℕ) : BitVec 8 :=
  (bestOf (fun i => x (ib * 32 + i)) s40 .mord half).scaleByte

def referenceCodes (x : ℕ → ℚ) (ib j : ℕ) : BitVec 8 :=
  (bestOf (fun i => x (ib * 32 + i)) s40 .mord (j / 16)).codes (j % 16)

theorem referenceRow_eq (x : ℕ → ℚ) (nb : ℕ) :
    referenceRow x nb = fp2Layout.rowBytes nb (referenceCodes x) (referenceScale x) := by
  refine List.flatMap_congr fun ib _ => ?_
  obtain ⟨hok, -, -⟩ := quantizeBlock_ok s40_valid .mord fun i => x (ib * 32 + i)
  rw [hok]
  rfl

theorem referenceCodes_eq (x : ℕ → ℚ) (ib j : ℕ) :
    referenceCodes x ib j = quantizeFp2Code (x (ib * 32 + j))
      (invScaleOf (scaleLookup (referenceScale x ib (j / 16)).toNat)) := by
  obtain ⟨e, he, heq, -⟩ := bestCandidate_spec selectCodeOptimizedValid
    (fun i => x (ib * 32 + (j / 16 * 16 + i))) s40 .mord
  have hbyte : (candidate selectCodeOptimizedValid (fun i => x (ib * 32 + (j / 16 * 16 + i)))
      s40 .mord e).scaleByte.toNat = e := toNat_ofNat_le he
  have hat : j / 16 * 16 + j % 16 = j := Nat.div_add_mod' j 16
  rw [referenceCodes, referenceScale, bestOf, heq, hbyte, ← selectCode_eq_quantizeFp2Code _ he,
    ← hat]
  simp only [candidate, hat]

theorem fp2_blockBytes_congr {codes codes' e e' : ℕ → BitVec 8}
    (hcodes : ∀ j < 32, codes j = codes' j) (he : ∀ half < 2, e half = e' half) :
    fp2Layout.blockBytes codes e = fp2Layout.blockBytes codes' e' := by
  have hpack : ∀ b ∈ List.range 8, fp2Pack codes b = fp2Pack codes' b := by
    intro b hb
    have hb := List.mem_range.mp hb
    have h0 := hcodes (4 * b) (by omega)
    have h1 := hcodes (4 * b + 1) (by omega)
    have h2 := hcodes (4 * b + 2) (by omega)
    have h3 := hcodes (4 * b + 3) (by omega)
    simp [fp2Pack, fp2PackByte, List.range_succ, h0, h1, h2, h3]
  have hscales : ∀ half ∈ List.range 2, e half = e' half :=
    fun half hhalf => he half (List.mem_range.mp hhalf)
  exact congrArg₂ (· ++ ·) (List.map_congr_left hpack) (List.map_congr_left hscales)

section

variable (sqrtf : ℚ → ℚ) (x : ℕ → ℚ) (nb : ℕ)

def productionScale (ib half : ℕ) : BitVec 8 :=
  BitVec.ofNat 8 (chooseScaleFp2Mse sqrtf (part 16 x ib half) none (rowSigma2 x nb))

variable {sqrtf x nb}

theorem productionScale_eq_iff {ib half : ℕ} :
    productionScale sqrtf x nb ib half = referenceScale x ib half ↔
      UsesScale (part 16 x ib half) := by
  have hpart : ∀ j : Fin 16, part 16 x ib half j = x (ib * 32 + (half * 16 + j)) :=
    fun j => by rw [part, Nat.add_assoc]
  have hiff := @scaleByte_eq_iff (fun i => x (ib * 32 + (half * 16 + i))) _ sqrtf
    (rowSigma2 x nb) hpart
  have hle := @chooseScaleFp2Mse_le 16 sqrtf (part 16 x ib half) none (rowSigma2 x nb)
  rw [← hiff, ← BitVec.toNat_inj, productionScale, toNat_ofNat_le hle]
  rfl

theorem quantizeRowFp2_eq_iff (sqrtf : ℚ → ℚ) (x : ℕ → ℚ) (nb : ℕ) :
    quantizeRowFp2Impl sqrtf x nb none = referenceRow x nb ↔
      ∀ ib < nb, ∀ half < 2, UsesScale (part 16 x ib half) := by
  have hprod : quantizeRowFp2Impl sqrtf x nb none = fp2Layout.rowBytes nb
      (fun ib j => quantizeFp2Code (x (ib * 32 + j))
        (invScaleOf (scaleLookup (productionScale sqrtf x nb ib (j * 2 / 32)).toNat)))
      (productionScale sqrtf x nb) := rfl
  rw [hprod, referenceRow_eq]
  constructor
  · intro heq ib hib half hhalf
    have hscale := congrArg (fun data => fp2Layout.rowScales data ib half) heq
    rw [fp2_rowScales hib hhalf, fp2_rowScales hib hhalf] at hscale
    exact productionScale_eq_iff.1 hscale
  · intro hall
    refine List.flatMap_congr fun ib hib => ?_
    have hib := List.mem_range.mp hib
    have hscale : ∀ half < 2, productionScale sqrtf x nb ib half = referenceScale x ib half :=
      fun half hhalf => productionScale_eq_iff.2 (hall ib hib half hhalf)
    refine fp2_blockBytes_congr (fun j hj => ?_) hscale
    have hhalf : j * 2 / 32 = j / 16 := by omega
    simp only [referenceCodes_eq, hhalf, hscale (j / 16) (by omega)]

theorem quantizeFp2Code_le (xi invScale : ℚ) : quantizeFp2Code xi invScale ≤ 3 := by
  unfold quantizeFp2Code
  dsimp only
  split_ifs <;> decide

theorem decodeScaleValid_toNat {scaleByte : BitVec 8} (h : scaleIsValid scaleByte) :
    decodeScaleValid scaleByte = scaleLookup scaleByte.toNat := by
  rw [← decodeScaleValid_eq ((scaleIsValid_iff scaleByte).mp h), BitVec.ofNat_toNat,
    BitVec.setWidth_eq]

theorem referenceValue_eq (x : ℕ → ℚ) (i : ℕ) :
    referenceValue x i = .ok (decodeCodeValid (referenceCodes x (i / 32) (i % 32)) s40 .mord *
      decodeScaleValid (referenceScale x (i / 32) (i % 32 / 16))) := by
  have hj : i % 32 < 32 := Nat.mod_lt i (by decide)
  obtain ⟨hok, hcodes, hscales⟩ := quantizeBlock_ok s40_valid .mord fun j => x (i / 32 * 32 + j)
  have hhalf : ((if i % 32 / 16 = 0 then 0 else 1 : Fin 2) : ℕ) = i % 32 / 16 := by
    split_ifs with hlow
    · exact hlow.symm
    · exact (by omega : 1 = i % 32 / 16)
  rw [referenceValue, hok, Except.bind, dequantizeBlock_ok s40_valid .mord hscales, Except.map]
  dsimp only
  rw [unpackCodes_packed hcodes hj, hhalf]
  rfl

theorem dequantize_referenceRow {i : ℕ} (hi : i < nb * 32) :
    referenceValue x i = .ok (dequantizeRowFp2 (referenceRow x nb) i) := by
  have hib : i / 32 < nb := by omega
  have hj : i % 32 < 32 := Nat.mod_lt i (by decide)
  have hcodes : ∀ ib j, referenceCodes x ib j ≤ 3 := fun ib j => by
    rw [referenceCodes_eq]
    exact quantizeFp2Code_le _ _
  have hscale : scaleIsValid (referenceScale x (i / 32) (i % 32 / 16)) :=
    (scaleIsValid_iff _).mpr (reference_isBest _).1.2
  rw [referenceValue_eq, dequantizeRowFp2, referenceRow_eq, fp2_rowCodes hcodes hib hj,
    fp2_rowScales hib (by omega), decodeCodeValid_eq (hcodes _ _), decodeScaleValid_toNat hscale]

end

/-- The row quantizer stores the bytes of the reference just when every group is zero or is
better off with some scale than without one. -/
theorem production_agrees (sqrtf : ℚ → ℚ) (x : ℕ → ℚ) (nb : ℕ) :
    (quantizeRowFp2Impl sqrtf x nb none = referenceRow x nb ↔
      ∀ ib < nb, ∀ half < 2, UsesScale (part 16 x ib half)) ∧
    ((∀ ib < nb, ∀ half < 2, UsesScale (part 16 x ib half)) → ∀ i < nb * 32,
      referenceValue x i = .ok (dequantizeRowFp2 (quantizeRowFp2Impl sqrtf x nb none) i)) := by
  refine ⟨quantizeRowFp2_eq_iff sqrtf x nb, fun hall i hi => ?_⟩
  rw [(quantizeRowFp2_eq_iff sqrtf x nb).mpr hall]
  exact dequantize_referenceRow hi

/-- A weight too small for any scale: the reference stores the byte 0. -/
def tinyWeight (i : ℕ) : ℚ := if i = 0 then 1 / 4096 else 0

theorem tinyWeight_ne {i : ℕ} (h : i ≠ 0) : tinyWeight i = 0 := if_neg h

theorem part_tinyWeight (j : Fin 16) : part 16 tinyWeight 0 0 j = tinyWeight j := by
  rw [part, zero_mul, zero_mul, zero_add, zero_add]

theorem one_le_decodeFp2Code_sq (code : BitVec 8) : 1 ≤ decodeFp2Code code ^ 2 := by
  have hall : ∀ k < 4, 1 ≤ [-4, -1, 1, 4].getD k (0 : ℤ) ^ 2 := by decide
  refine hall _ (Nat.lt_succ_of_le ?_)
  rw [BitVec.toNat_and]
  exact Nat.and_le_right

/-- No level is zero, so a weight of zero costs at least the square of the scale. -/
theorem scaleLookup_sq_le_referenceSse {source : ℕ → ℚ} {e : ℕ} (he : e ≤ 126) {j : Fin 16}
    (hj : source j = 0) : scaleLookup e ^ 2 ≤ referenceSse source e := by
  rw [referenceSse_eq_sum source he]
  refine le_trans ?_ (Finset.single_le_sum (fun i _ => sq_nonneg _) (Finset.mem_univ j))
  rw [hj, zero_sub, neg_sq, mul_pow]
  exact le_mul_of_one_le_left (sq_nonneg _) (by exact_mod_cast one_le_decodeFp2Code_sq _)

theorem production_diverges : ¬ ∀ (sqrtf : ℚ → ℚ) (x : ℕ → ℚ) (nb : ℕ),
    quantizeRowFp2Impl sqrtf x nb none = referenceRow x nb := by
  intro hall
  have huses := (quantizeRowFp2_eq_iff (fun _ => 0) tinyWeight 1).mp (hall _ _ _) 0 (by decide) 0
    (by decide)
  have hfirst : part 16 tinyWeight 0 0 0 = 1 / 4096 := (part_tinyWeight 0).trans (if_pos rfl)
  have hrest : ∀ j : Fin 16, j ≠ 0 → part 16 tinyWeight 0 0 j = 0 := fun j hj =>
    (part_tinyWeight j).trans (tinyWeight_ne fun h => hj (Fin.ext h))
  have henergy : ∑ j, part 16 tinyWeight 0 0 j * part 16 tinyWeight 0 0 j = (1 / 4096) ^ 2 := by
    rw [Finset.sum_eq_single_of_mem 0 (Finset.mem_univ _) fun j _ hj => by rw [hrest j hj, mul_zero],
      hfirst, sq]
  rcases huses with hzero | ⟨e, he, hlt⟩
  · have := hzero 0
    rw [hfirst] at this
    norm_num at this
  · refine absurd hlt (not_lt_of_ge ?_)
    have hleast : (1 / 1024 : ℚ) ≤ scaleLookup e := by
      have hone : scaleTable 1 = 1 / 1024 := by simp [scaleTable_eq_num, scaleNum]
      rw [scaleLookup_of_le he.2, ← hone]
      exact scaleTable_strictMono.monotone he.1
    calc ∑ j, part 16 tinyWeight 0 0 j * part 16 tinyWeight 0 0 j
        = (1 / 4096) ^ 2 := henergy
      _ ≤ scaleLookup e ^ 2 := pow_le_pow_left₀ (by norm_num) (hleast.trans' (by norm_num)) 2
      _ ≤ referenceSse tinyWeight e :=
        scaleLookup_sq_le_referenceSse he.2 (j := 1) (tinyWeight_ne one_ne_zero)
      _ = groupError (part 16 tinyWeight 0 0) e := referenceSse_eq part_tinyWeight he

end RocmFpx.Fp2Reference
