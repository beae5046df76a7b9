import RocmFpx.FpxSymmetric

/-!
The formats whose codes are rounded quotients. The quotient is clamped after it has been cast from
`long` to `int`, so a quotient that does not fit an `int` is clamped by its lower 32 bits.
-/

namespace RocmFpx.Fpx

/-- The formats with a code for every integer from `lo` to `hi`. -/
inductive Rounded
  | fp5
  | fp6
  | fp7
  | fp8
  | i4

namespace Rounded

def lo : Rounded → ℤ
  | .fp5 => -16
  | .fp6 => -32
  | .fp7 => -64
  | .fp8 => -127
  | .i4 => -8

def hi : Rounded → ℤ
  | .fp5 => 15
  | .fp6 => 31
  | .fp7 => 63
  | .fp8 => 127
  | .i4 => 7

/-- The value of the code that an input gets. -/
def quantized (x invScale : ℚ) : Rounded → ℤ
  | .fp5 => decodeLinearCode (quantizeLinearCode x invScale 5) 5
  | .fp6 => decodeFp6Code (quantizeFp6Code x invScale)
  | .fp7 => decodeLinearCode (quantizeLinearCode x invScale 7) 7
  | .fp8 => quantizeFp8Code x invScale
  | .i4 => rocmi4NibbleToI8 (rocmi4Nibble (rocmi4QuantizeCode x invScale))

/-- What the scale search takes for the value of the code, where it has a helper of its own. -/
def fused (x invScale : ℚ) : Rounded → Option ℤ
  | .fp5 => some (linearValue x invScale 5)
  | .fp6 => some (fp6DecodedValue x invScale)
  | .fp7 => some (linearValue x invScale 7)
  | .fp8 => none
  | .i4 => none

variable (F : Rounded)

def clamp (r : ℤ) : ℤ := max F.lo (min F.hi r)

theorem quantized_eq (x : ℚ) {invScale : ℚ} (h : 0 < invScale) :
    F.quantized x invScale = F.clamp (toInt (lroundf (x * invScale))) := by
  have hlinear (bits : ℕ) : linearValue x invScale bits =
      max (-2 ^ (bits - 1)) (min (2 ^ (bits - 1) - 1) (toInt (lroundf (x * invScale)))) := by
    have hpos : (0 : ℤ) < 2 ^ (bits - 1) := by positivity
    rw [linearValue]
    split_ifs <;> omega
  cases F with
  | fp5 => exact (decode_quantize_linear (by decide) x h).trans (hlinear 5)
  | fp6 => exact (decode_quantize_linear (by decide) x h).trans (hlinear 6)
  | fp7 => exact (decode_quantize_linear (by decide) x h).trans (hlinear 7)
  | fp8 =>
    change quantizeFp8Code x invScale = max (-127) (min 127 _)
    rw [quantizeFp8Code, if_neg (not_le_of_gt h)]
    dsimp only
    split_ifs <;> omega
  | i4 =>
    rw [quantized, decode_quantize_i4 x h, rocmi4QuantizeCode, if_neg (not_le_of_gt h)]
    exact hlinear 4

theorem fused_eq (x : ℚ) {invScale : ℚ} (h : 0 < invScale) :
    ∀ v ∈ F.fused x invScale, v = F.quantized x invScale := by
  intro v hv
  cases F with
  | fp5 =>
    obtain rfl := Option.some.inj hv
    exact (decode_quantize_linear (by decide) x h).symm
  | fp6 =>
    obtain rfl := Option.some.inj hv
    exact (decode_quantize_linear (by decide) x h).symm
  | fp7 =>
    obtain rfl := Option.some.inj hv
    exact (decode_quantize_linear (by decide) x h).symm
  | fp8 => exact nomatch hv
  | i4 => exact nomatch hv

/-- The rounded quotient fits an `int`, or its lower 32 bits are beyond the same end. -/
def Kept (r : ℤ) : Prop :=
  (-2 ^ 31 ≤ r ∧ r < 2 ^ 31) ∨ (0 < r ∧ F.hi ≤ r % 2 ^ 32 ∧ r % 2 ^ 32 < 2 ^ 31) ∨
    (r < 0 ∧ 2 ^ 31 ≤ r % 2 ^ 32 ∧ r % 2 ^ 32 ≤ 2 ^ 32 + F.lo)

theorem clamp_toInt_iff (r : ℤ) : F.clamp (toInt r) = F.clamp r ↔ F.Kept r := by
  have hmod : toInt r = if r % 2 ^ 32 < 2 ^ 31 then r % 2 ^ 32 else r % 2 ^ 32 - 2 ^ 32 := by
    rw [toInt, Int.bmod_def]
    norm_num
  rw [clamp, clamp, Kept, hmod]
  norm_num
  cases F <;> simp only [lo, hi] <;> split_ifs <;> omega

/-- The code of an input is its clamped rounded quotient, and the helper of the scale search says
the same, exactly when the quotient fits an `int` or is cut down to one beyond the same end. -/
theorem saturates_iff (x : ℚ) {e : ℕ} (he : 1 ≤ e) (he' : e ≤ 126) :
    (F.quantized x (1 / scaleLookup e) = F.clamp (lroundf (x / scaleLookup e)) ∧
      ∀ v ∈ F.fused x (1 / scaleLookup e), v = F.quantized x (1 / scaleLookup e)) ↔
      F.Kept (lroundf (x / scaleLookup e)) := by
  have hpos : 0 < 1 / scaleLookup e := one_div_pos.mpr (scaleLookup_pos he he')
  rw [F.quantized_eq x hpos, mul_one_div, clamp_toInt_iff]
  refine and_iff_left fun v hv => ?_
  rw [F.fused_eq x hpos v hv, F.quantized_eq x hpos, mul_one_div]

theorem saturates_iff_fp6 :
    (fp6.quantized 5 (1 / scaleLookup 1) = fp6.clamp (lroundf (5 / scaleLookup 1)) ∧
      ∀ v ∈ fp6.fused 5 (1 / scaleLookup 1), v = fp6.quantized 5 (1 / scaleLookup 1)) ↔
      fp6.Kept (lroundf (5 / scaleLookup 1)) :=
  fp6.saturates_iff 5 le_rfl (by decide)

/-- An input of `2 ^ 22` with the smallest scale: the quotient is `2 ^ 32`, and the code that of 0. -/
theorem fp6_wraps : ¬ ∀ (F : Rounded) (x : ℚ) (e : ℕ), 1 ≤ e → e ≤ 126 →
    F.quantized x (1 / scaleLookup e) = F.clamp (lroundf (x / scaleLookup e)) := by
  intro h
  have hscale : scaleLookup 1 = 1 / 1024 := by norm_num [scaleLookup, scaleTable, scaleSub]
  have hround : lroundf (4194304 / (1 / 1024)) = 2 ^ 32 := by norm_num [lroundf]
  have hfp6 := h fp6 4194304 1 le_rfl (by decide)
  rw [fp6.quantized_eq _ (by rw [hscale]; norm_num), mul_one_div, hscale, hround] at hfp6
  exact absurd hfp6 (by decide)

end Rounded
end RocmFpx.Fpx
