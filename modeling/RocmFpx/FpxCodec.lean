import RocmFpx.PrunedSearch
import Mathlib.Data.Rat.Floor

/-!
The scale bytes and the signed codes of the ROCmFPX formats with an asymmetric code
range, over exact rationals: all numbers are finite, and nothing is rounded but the
quotient of an input by its scale.
-/

namespace RocmFpx.Fpx

instance neZero_two : NeZero 2 := ⟨by decide⟩

/-! ## Scales -/

def scaleSub (m : ℕ) : ℚ := m / 1024

/-- `ROCMFPX_SCALE_E1` to `ROCMFPX_SCALE_E15`. -/
def scaleE (k m : ℕ) : ℚ := (8 + m) * 2 ^ (k - 1) / 1024

/-- The 127 entries of the table: 8 with exponent 0, then 8 for each exponent. -/
def scaleTable (e : ℕ) : ℚ := if e < 8 then scaleSub e else scaleE (e / 8) (e % 8)

def scaleLookup (e : ℕ) : ℚ := if e ≤ 0x7e then scaleTable e else 0

/-- The numerator of the scale over 1024. -/
def scaleNum (e : ℕ) : ℕ := if e < 8 then e else (8 + e % 8) * 2 ^ (e / 8 - 1)

theorem scaleTable_eq_num (e : ℕ) : scaleTable e = scaleNum e / 1024 := by
  unfold scaleTable scaleNum scaleSub scaleE
  split_ifs
  · rfl
  · push_cast
    rfl

theorem scaleNum_lt_succ (e : ℕ) : scaleNum e < scaleNum (e + 1) := by
  unfold scaleNum
  rcases lt_trichotomy e 7 with hlt | rfl | hgt
  · rw [if_pos (by omega), if_pos (by omega)]
    exact Nat.lt_succ_self e
  · decide
  · rw [if_neg (by omega), if_neg (by omega)]
    rcases (by omega : (e + 1) / 8 = e / 8 ∧ (e + 1) % 8 = e % 8 + 1 ∨
      (e + 1) / 8 = e / 8 + 1 ∧ (e + 1) % 8 = 0 ∧ e % 8 = 7) with ⟨hq, hr⟩ | ⟨hq, hr, hr'⟩
    · rw [hq, hr]
      gcongr
      omega
    · obtain ⟨k, hk⟩ : ∃ k, e / 8 = k + 1 := ⟨e / 8 - 1, by omega⟩
      rw [hq, hr, hr', hk, Nat.add_sub_cancel, Nat.add_sub_cancel, pow_succ]
      have : 0 < 2 ^ k := by positivity
      omega

theorem scaleTable_strictMono : StrictMono scaleTable := by
  refine strictMono_nat_of_lt_succ fun e => ?_
  rw [scaleTable_eq_num, scaleTable_eq_num]
  have hnum : (scaleNum e : ℚ) < scaleNum (e + 1) := by exact_mod_cast scaleNum_lt_succ e
  gcongr

theorem scaleTable_pos {e : ℕ} (he : 1 ≤ e) : 0 < scaleTable e := by
  have hzero : scaleTable 0 = 0 := by simp [scaleTable, scaleSub]
  exact hzero ▸ scaleTable_strictMono he

theorem scaleLookup_of_le {e : ℕ} (he : e ≤ 126) : scaleLookup e = scaleTable e :=
  if_pos he

theorem scaleLookup_zero : scaleLookup 0 = 0 := by simp [scaleLookup, scaleTable, scaleSub]

theorem scaleLookup_pos {e : ℕ} (he : 1 ≤ e) (he' : e ≤ 126) : 0 < scaleLookup e := by
  rw [scaleLookup_of_le he']
  exact scaleTable_pos he

/-- The loop of the binary search; the window halves, so `hi - lo` rounds are enough. -/
def bisect (target : ℚ) : ℕ → ℕ → ℕ → ℕ
  | 0, lo, _ => lo
  | fuel + 1, lo, hi =>
    if lo < hi then
      let mid := lo + (hi - lo) / 2
      if scaleTable mid < target then bisect target fuel (mid + 1) hi
      else bisect target fuel lo mid
    else lo

theorem bisect_spec (target : ℚ) (fuel : ℕ) {lo hi : ℕ} (hle : lo ≤ hi)
    (hfuel : hi ≤ lo + fuel) :
    lo ≤ bisect target fuel lo hi ∧ bisect target fuel lo hi ≤ hi ∧
      (∀ e, lo ≤ e → e < bisect target fuel lo hi → scaleTable e < target) ∧
      (bisect target fuel lo hi < hi → target ≤ scaleTable (bisect target fuel lo hi)) := by
  induction fuel generalizing lo hi with
  | zero =>
    have : lo = hi := by omega
    exact ⟨le_rfl, hle, fun e h h' => absurd h' (not_lt_of_ge h), fun h => absurd h (by
      simp [bisect, this])⟩
  | succ fuel ih =>
    rw [bisect]
    split_ifs with hlt
    · have hmid : lo + (hi - lo) / 2 < hi := by omega
      dsimp only
      split_ifs with hbelow
      · obtain ⟨h1, h2, h3, h4⟩ := @ih (lo + (hi - lo) / 2 + 1) hi (by omega) (by omega)
        refine ⟨by omega, h2, fun e he he' => ?_, h4⟩
        rcases Nat.lt_or_ge (lo + (hi - lo) / 2) e with hgt | hge
        · exact h3 e hgt he'
        · exact (scaleTable_strictMono.monotone hge).trans_lt hbelow
      · obtain ⟨h1, h2, h3, h4⟩ := @ih lo (lo + (hi - lo) / 2) (by omega) (by omega)
        refine ⟨h1, h2.trans hmid.le, h3, fun _ => ?_⟩
        rcases h2.lt_or_eq with hlt' | heq
        · exact h4 hlt'
        · rw [heq]
          exact not_lt.mp hbelow
    · exact ⟨le_rfl, hle, fun e h h' => absurd h' (not_lt_of_ge h), fun h => absurd h hlt⟩

def nearestScaleUe4m3 (target : ℚ) : ℕ :=
  if ¬ 0 < target then 0
  else
    let lo := bisect target 126 1 126
    if lo = 1 then 1
    else if target - scaleTable (lo - 1) ≤ scaleTable lo - target then lo - 1 else lo

theorem nearestScaleUe4m3_bounds {target : ℚ} (h : 0 < target) :
    1 ≤ nearestScaleUe4m3 target ∧ nearestScaleUe4m3 target ≤ 126 := by
  obtain ⟨hlo, hhi, -, -⟩ := @bisect_spec target 126 1 126 (by omega) (by omega)
  rw [nearestScaleUe4m3, if_neg (not_not.mpr h)]
  dsimp only
  split_ifs <;> omega

/-! ## Rounding -/

/-- Half away from zero. -/
def lroundf (x : ℚ) : ℤ := if 0 ≤ x then ⌊x + 1 / 2⌋ else -⌊-x + 1 / 2⌋

/-- The cast to `int`. -/
def toInt (q : ℤ) : ℤ := Int.bmod q (2 ^ 32)

/-! ## Codes -/

def decodeLinearCode (code : BitVec 8) (bits : ℕ) : ℤ :=
  let sign : BitVec 8 := 1 <<< (bits - 1)
  let mag := code &&& (sign - 1)
  if code &&& sign ≠ 0 then -((if mag = 0 then sign else mag).toNat : ℤ) else mag.toNat

/-- Rounds and clamps to `-(2 ^ (bits - 1)) .. 2 ^ (bits - 1) - 1`. -/
def linearValue (x invScale : ℚ) (bits : ℕ) : ℤ :=
  let sign : ℤ := 2 ^ (bits - 1)
  let q := toInt (lroundf (x * invScale))
  if q > sign - 1 then sign - 1 else if q < -sign then -sign else q

/-- The code of a value in the range. -/
def codeOf (q : ℤ) (bits : ℕ) : BitVec 8 :=
  let sign : BitVec 8 := 1 <<< (bits - 1)
  if q = 0 then 0
  else if q < 0 then sign ||| (BitVec.ofInt 8 (-q) &&& (sign - 1))
  else BitVec.ofInt 8 q

def quantizeLinearCode (x invScale : ℚ) (bits : ℕ) : BitVec 8 :=
  if invScale ≤ 0 then 0 else codeOf (linearValue x invScale bits) bits

def decodeFp6Code (code : BitVec 8) : ℤ := decodeLinearCode code 6

def quantizeFp6Code (x invScale : ℚ) : BitVec 8 := quantizeLinearCode x invScale 6

def fp6DecodedValue (x invScale : ℚ) : ℤ := linearValue x invScale 6

def rocmi4QuantizeCode (x invScale : ℚ) : ℤ :=
  if invScale ≤ 0 then 0 else linearValue x invScale 4

/-- The low or high half of a byte of codes. -/
def rocmi4Nibble (q : ℤ) : BitVec 8 := BitVec.ofInt 8 q &&& 0x0F

def rocmi4NibbleToI8 (nibble : BitVec 8) : ℤ :=
  (if nibble &&& 0x8 ≠ 0 then nibble ||| 0xF0 else nibble &&& 0x7).toInt

theorem linearValue_bounds (x invScale : ℚ) (bits : ℕ) :
    -2 ^ (bits - 1) ≤ linearValue x invScale bits ∧
      linearValue x invScale bits ≤ 2 ^ (bits - 1) - 1 := by
  have hpos : (0 : ℤ) < 2 ^ (bits - 1) := by positivity
  unfold linearValue
  dsimp only
  split_ifs <;> omega

theorem linearValue_mem (x invScale : ℚ) (bits : ℕ) :
    linearValue x invScale bits ∈ Finset.Icc (-2 ^ (bits - 1) : ℤ) (2 ^ (bits - 1) - 1) :=
  Finset.mem_Icc.mpr (linearValue_bounds x invScale bits)

theorem decode_quantize_linear {bits : ℕ} (hbits : bits ∈ [5, 6, 7]) (x : ℚ) {invScale : ℚ}
    (h : 0 < invScale) :
    decodeLinearCode (quantizeLinearCode x invScale bits) bits = linearValue x invScale bits := by
  have hcodes : ∀ bits ∈ [5, 6, 7], ∀ q ∈ Finset.Icc (-2 ^ (bits - 1) : ℤ) (2 ^ (bits - 1) - 1),
      decodeLinearCode (codeOf q bits) bits = q := by decide +kernel
  rw [quantizeLinearCode, if_neg (not_le_of_gt h)]
  exact hcodes bits hbits _ (linearValue_mem x invScale bits)

theorem decode_quantize_i4 (x : ℚ) {invScale : ℚ} (h : 0 < invScale) :
    rocmi4NibbleToI8 (rocmi4Nibble (rocmi4QuantizeCode x invScale)) =
      rocmi4QuantizeCode x invScale := by
  have hcodes : ∀ q ∈ Finset.Icc (-2 ^ 3 : ℤ) (2 ^ 3 - 1),
      rocmi4NibbleToI8 (rocmi4Nibble q) = q := by decide +kernel
  rw [rocmi4QuantizeCode, if_neg (not_le_of_gt h)]
  exact hcodes _ (linearValue_mem x invScale 4)

end RocmFpx.Fpx

/-!
The choice of the scale byte of a block for the formats with an asymmetric code range:
FP5 and FP7 (linear codes), FP6, and the weighted ROCmI4. Each routine walks through
the bytes from a first guess and leaves the lower direction at its clipping bound.
`sqrtf` is the square root of the weights.
-/

namespace RocmFpx.Fpx

variable {n : ℕ} (sqrtf : ℚ → ℚ)

/-! ## Maxima and weights -/

def maxAbs (x : Fin n → ℚ) : ℚ :=
  (List.finRange n).foldl (fun m i => if |x i| > m then |x i| else m) 0

structure MseWeights (n : ℕ) where
  dst : Fin n → ℚ
  maxAbs : ℚ
  maxAbsWeight : ℚ

def prepareMseWeights (x quantWeights : Fin n → ℚ) (sigma2 : ℚ) : MseWeights n :=
  let weight := fun i =>
    if quantWeights i > 0 then quantWeights i * sqrtf (sigma2 + x i * x i) else 0
  let m := (List.finRange n).foldl (fun (m : ℚ × ℚ) i =>
    if |x i| > m.1 then (|x i|, weight i)
    else if |x i| = m.1 ∧ weight i > m.2 then (m.1, weight i)
    else m) (0, 0)
  ⟨weight, m.1, m.2⟩

theorem maxAbs_fold (x : Fin n → ℚ) (is : List (Fin n)) (m : ℚ) :
    m ≤ is.foldl (fun m i => if |x i| > m then |x i| else m) m ∧
      (∀ i ∈ is, |x i| ≤ is.foldl (fun m i => if |x i| > m then |x i| else m) m) ∧
      (is.foldl (fun m i => if |x i| > m then |x i| else m) m = m ∨
        ∃ i ∈ is, is.foldl (fun m i => if |x i| > m then |x i| else m) m = |x i|) := by
  induction is generalizing m with
  | nil => exact ⟨le_rfl, fun i hi => absurd hi List.not_mem_nil, .inl rfl⟩
  | cons i is ih =>
    rw [List.foldl_cons]
    obtain ⟨hge, hall, hat⟩ := ih (if |x i| > m then |x i| else m)
    have hfirst : m ≤ (if |x i| > m then |x i| else m) ∧
        |x i| ≤ (if |x i| > m then |x i| else m) := by
      split_ifs with h
      · exact ⟨h.le, le_rfl⟩
      · exact ⟨le_rfl, not_lt.mp h⟩
    refine ⟨hfirst.1.trans hge, fun j hj => ?_, ?_⟩
    · rcases List.mem_cons.mp hj with rfl | hj
      · exact hfirst.2.trans hge
      · exact hall j hj
    · rcases hat with heq | ⟨j, hj, heq⟩
      · rw [heq]
        split_ifs with h
        · exact .inr ⟨i, List.mem_cons_self, rfl⟩
        · exact .inl rfl
      · exact .inr ⟨j, List.mem_cons_of_mem i hj, heq⟩

theorem le_maxAbs (x : Fin n → ℚ) (i : Fin n) : |x i| ≤ maxAbs x :=
  (maxAbs_fold x (List.finRange n) 0).2.1 i (List.mem_finRange i)

theorem maxAbs_pos_iff (x : Fin n → ℚ) : 0 < maxAbs x ↔ ∃ i, x i ≠ 0 := by
  constructor
  · intro hpos
    rcases (maxAbs_fold x (List.finRange n) 0).2.2 with heq | ⟨i, -, heq⟩
    · exact absurd hpos (by rw [maxAbs, heq]; exact lt_irrefl 0)
    · exact ⟨i, abs_pos.mp (by rw [← heq]; exact hpos)⟩
  · rintro ⟨i, hi⟩
    exact (abs_pos.mpr hi).trans_le (le_maxAbs x i)

variable {sqrtf}

theorem prepareMseWeights_maxAbs (x quantWeights : Fin n → ℚ) (sigma2 : ℚ) :
    (prepareMseWeights sqrtf x quantWeights sigma2).maxAbs = maxAbs x := by
  have hfold : ∀ (w : Fin n → ℚ) (is : List (Fin n)) (m : ℚ × ℚ),
      (is.foldl (fun (m : ℚ × ℚ) i =>
        if |x i| > m.1 then (|x i|, w i) else if |x i| = m.1 ∧ w i > m.2 then (m.1, w i)
        else m) m).1 = is.foldl (fun m i => if |x i| > m then |x i| else m) m.1 := by
    intro w is
    induction is with
    | nil => exact fun m => rfl
    | cons i is ih =>
      intro m
      rw [List.foldl_cons, List.foldl_cons, ih]
      congr 1
      split_ifs <;> rfl
  exact hfold _ (List.finRange n) (0, 0)

theorem prepareMseWeights_dst_nonneg (hsqrt : ∀ q, 0 ≤ sqrtf q) (x quantWeights : Fin n → ℚ)
    (sigma2 : ℚ) (i : Fin n) : 0 ≤ (prepareMseWeights sqrtf x quantWeights sigma2).dst i := by
  unfold prepareMseWeights
  dsimp only
  split_ifs with hw
  · exact mul_nonneg hw.le (hsqrt _)
  · exact le_rfl

theorem prepareMseWeights_maxAbsWeight_nonneg (hsqrt : ∀ q, 0 ≤ sqrtf q)
    (x quantWeights : Fin n → ℚ) (sigma2 : ℚ) :
    0 ≤ (prepareMseWeights sqrtf x quantWeights sigma2).maxAbsWeight := by
  have hw := prepareMseWeights_dst_nonneg hsqrt x quantWeights sigma2
  have hfold : ∀ (is : List (Fin n)) (m : ℚ × ℚ), 0 ≤ m.2 →
      0 ≤ (is.foldl (fun (m : ℚ × ℚ) i =>
        if |x i| > m.1 then (|x i|, (prepareMseWeights sqrtf x quantWeights sigma2).dst i)
        else if |x i| = m.1 ∧ (prepareMseWeights sqrtf x quantWeights sigma2).dst i > m.2 then
          (m.1, (prepareMseWeights sqrtf x quantWeights sigma2).dst i)
        else m) m).2 := by
    intro is
    induction is with
    | nil => exact fun m hm => hm
    | cons i is ih =>
      intro m hm
      rw [List.foldl_cons]
      refine ih _ ?_
      split_ifs
      · exact hw i
      · exact hw i
      · exact hm
  exact hfold (List.finRange n) (0, 0) le_rfl

/-! ## Errors of a scale byte -/

def invScaleOf (scale : ℚ) : ℚ := if scale > 0 then 1 / scale else 0

def linearMseForScale (x : Fin n → ℚ) (weights : Option (Fin n → ℚ)) (e bits : ℕ)
    (bestErr : WithTop ℚ) : ℚ :=
  let scale := scaleLookup e
  let invScale := invScaleOf scale
  cappedSum (fun i =>
    let d := x i - linearValue (x i) invScale bits * scale
    (match weights with | some w => w i | none => 1) * d * d) bestErr (List.finRange n) 0

def fp6BlockMseForScale (x : Fin n → ℚ) (e : ℕ) (bestErr : WithTop ℚ) : ℚ :=
  let scale := scaleLookup e
  let invScale := invScaleOf scale
  cappedSum (fun i =>
    let d := x i - fp6DecodedValue (x i) invScale * scale
    d * d) bestErr (List.finRange n) 0

def fp6BlockWeightedMseForScale (x mseWeights : Fin n → ℚ) (e : ℕ) (bestErr : WithTop ℚ) : ℚ :=
  let scale := scaleLookup e
  let invScale := invScaleOf scale
  cappedSum (fun i =>
    let d := x i - fp6DecodedValue (x i) invScale * scale
    mseWeights i * d * d) bestErr (List.finRange n) 0

def i4BlockWeightedMseForScale (x mseWeights : Fin n → ℚ) (e : ℕ) (bestErr : WithTop ℚ) : ℚ :=
  let scale := scaleLookup e
  let invScale := invScaleOf scale
  cappedSum (fun i =>
    let d := x i - rocmi4QuantizeCode (x i) invScale * scale
    mseWeights i * d * d) bestErr (List.finRange n) 0

/-! ## The searches -/

/-- The search loop that the routines repeat. -/
def scaleSearch (maxAbs maxCode : ℚ) (clipErr : ℚ → ℚ) (err : ℕ → WithTop ℚ → ℚ) :
    PrunedSearch ℚ where
  hi := 126
  start := nearestScaleUe4m3 (maxAbs / maxCode)
  err := err
  clips e := decide (maxAbs - maxCode * scaleLookup e > 0)
  bound e := clipErr (maxAbs - maxCode * scaleLookup e)

variable (sqrtf)

def chooseScaleLinear (x : Fin n → ℚ) (quantWeights : Option (Fin n → ℚ)) (sigma2 : ℚ)
    (bits : ℕ) : ℕ :=
  let prepared := quantWeights.map fun qw => prepareMseWeights sqrtf x qw sigma2
  let weights := prepared.map MseWeights.dst
  let maxAbs := match prepared with | some p => p.maxAbs | none => maxAbs x
  let maxAbsWeight := match prepared with | some p => p.maxAbsWeight | none => 1
  if ¬ 0 < maxAbs then 0
  else
    let maxCode := 2 ^ (bits - 1) - 1
    (scaleSearch maxAbs maxCode
      (fun clipDelta =>
        (match weights with | some _ => maxAbsWeight | none => 1) * clipDelta * clipDelta)
      (fun e bestErr => linearMseForScale x weights e bits bestErr)).search 126

def chooseScaleFp6MseImpl (x : Fin n → ℚ) (mseWeights : Option (Fin n → ℚ))
    (maxAbs maxAbsWeight : ℚ) : ℕ :=
  (scaleSearch maxAbs 31
    (fun clipDelta => match mseWeights with
      | some _ => maxAbsWeight * clipDelta * clipDelta
      | none => clipDelta * clipDelta)
    (fun e bestErr => match mseWeights with
      | some w => fp6BlockWeightedMseForScale x w e bestErr
      | none => fp6BlockMseForScale x e bestErr)).search 126

def chooseScaleFp6Mse (x : Fin n → ℚ) : ℕ :=
  let maxAbs := maxAbs x
  if ¬ 0 < maxAbs then 0 else chooseScaleFp6MseImpl x none maxAbs 0

def chooseScaleFp6WeightedMse (x quantWeights : Fin n → ℚ) (sigma2 : ℚ) : ℕ :=
  let p := prepareMseWeights sqrtf x quantWeights sigma2
  if ¬ 0 < p.maxAbs then 0 else chooseScaleFp6MseImpl x (some p.dst) p.maxAbs p.maxAbsWeight

def chooseScaleI4WeightedMse (x quantWeights : Fin n → ℚ) (sigma2 : ℚ) : ℕ :=
  let p := prepareMseWeights sqrtf x quantWeights sigma2
  if ¬ 0 < p.maxAbs then 0
  else
    (scaleSearch p.maxAbs 7 (fun clipDelta => p.maxAbsWeight * clipDelta * clipDelta)
      (fun e bestErr => i4BlockWeightedMseForScale x p.dst e bestErr)).search 126

end RocmFpx.Fpx
