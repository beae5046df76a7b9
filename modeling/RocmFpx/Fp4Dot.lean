import RocmFpx.FpxCodec
import RocmFpx.VectorLanes

/-!
The ROCmFP4 dot products with Q8_0 rows, in the scalar and in the AVX2 version. The integer
sums of a block agree whatever the block holds, and the rest is the same expression of them,
so the results agree in any arithmetic `F`, exact or rounding, whatever the scales stand for.
-/

namespace RocmFpx.Fp4

open VectorLanes

/-- `QK_ROCMFP4`. -/
def qk : ℕ := 32

/-- 32 codes of 4 bits, and a scale byte for each half. -/
structure Block where
  qs : Fin 16 → BitVec 8
  e : Fin 2 → BitVec 8

/-- With one scale byte. -/
structure BlockFast where
  qs : Fin 16 → BitVec 8
  e : BitVec 8

structure BlockQ80 where
  d : BitVec 16
  qs : Fin 32 → BitVec 8

/-- `rocmfp4_codebook`. -/
def codebook (i : Fin 16) : BitVec 8 :=
  BitVec.ofInt 8 ([0, 1, 2, 3, 4, 6, 8, 10, 0, -1, -2, -3, -4, -6, -8, -10].getD i 0)

def decodeTable (q : BitVec 8) : BitVec 8 :=
  codebook ⟨(q &&& 0x0f).toNat % 16, Nat.mod_lt _ (by decide)⟩

/-- `rocmfp4_decode`, without the table. -/
def decode (q : BitVec 8) : BitVec 8 :=
  let mag3 := (q &&& 0x07).toNat
  let mag : ℤ := if mag3 ≤ 4 then mag3 else 2 * mag3 - 4
  BitVec.ofInt 8 (if q &&& 0x08 ≠ 0 then -mag else mag)

/-! ## The integer sums -/

def hsumI32Avx2 (v : BitVec 256) : BitVec 32 :=
  let s := addEpi32 (castsi256Si128 v) (extracti128Si256 v 1)
  let s := addEpi32 s (shuffleEpi32 s (mmShuffle 1 0 3 2))
  let s := addEpi32 s (shuffleEpi32 s (mmShuffle 2 3 0 1))
  cvtsi128Si32 s

def lowHalf (q8 : Fin 32 → BitVec 8) (j : Fin 16) : BitVec 8 := q8 ⟨j, by omega⟩

def highHalf (q8 : Fin 32 → BitVec 8) (j : Fin 16) : BitVec 8 := q8 ⟨j + 16, by omega⟩

/-- `sumi0` and `sumi1`. -/
def blockIsumsAvx2 (qs : Fin 16 → BitVec 8) (q8 : Fin 32 → BitVec 8) : BitVec 32 × BitVec 32 :=
  let tbl := loadu codebook
  let q := loadu qs
  let lo := q &&& set1Epi8 0x0f
  let hi := srliEpi16 q 4 &&& set1Epi8 0x0f
  let dlo := shuffleEpi8 tbl lo
  let dhi := shuffleEpi8 tbl hi
  let ylo := loadu (lowHalf q8)
  let yhi := loadu (highHalf q8)
  let pl := maddEpi16 (cvtepi8Epi16 dlo) (cvtepi8Epi16 ylo)
  let ph := maddEpi16 (cvtepi8Epi16 dhi) (cvtepi8Epi16 yhi)
  (hsumI32Avx2 pl, hsumI32Avx2 ph)

/-- The scalar loop over the bytes; `int` is wide enough. -/
def blockIsums (qs : Fin 16 → BitVec 8) (q8 : Fin 32 → BitVec 8) : ℤ × ℤ :=
  (List.finRange 16).foldl
    (fun sumi j => (sumi.1 + (decodeTable (qs j)).toInt * (lowHalf q8 j).toInt,
      sumi.2 + (decodeTable (qs j >>> 4)).toInt * (highHalf q8 j).toInt)) (0, 0)

/-- The loop of the fast layout adds both halves up in one variable. -/
def blockIsumFast (qs : Fin 16 → BitVec 8) (q8 : Fin 32 → BitVec 8) : ℤ :=
  (List.finRange 16).foldl
    (fun sumi j => sumi + (decodeTable (qs j)).toInt * (lowHalf q8 j).toInt +
      (decodeTable (qs j >>> 4)).toInt * (highHalf q8 j).toInt) 0

theorem hsumI32Avx2_eq (v : BitVec 256) :
    hsumI32Avx2 v = lane 32 v 0 + lane 32 v 4 + (lane 32 v 2 + lane 32 v 6) +
      (lane 32 v 1 + lane 32 v 5 + (lane 32 v 3 + lane 32 v 7)) := by
  have hfold : ∀ i < 4, lane 32 (addEpi32 (castsi256Si128 v) (extracti128Si256 v 1)) i =
      lane 32 v i + lane 32 v (4 + i) := by
    intro i hi
    rw [lane_addEpi32 _ _ hi, castsi256Si128, extracti128Si256, lane_lane v 0 i rfl hi,
      lane_lane v (1 % 2) i rfl hi, Nat.mul_zero, Nat.zero_add]
  have hpair : ∀ (s : BitVec 128) (i : ℕ), i < 4 → ∀ imm,
      lane 32 (addEpi32 s (shuffleEpi32 s imm)) i = lane 32 s i + lane 32 s (imm / 4 ^ i % 4) := by
    intro s i hi imm
    rw [lane_addEpi32 _ _ hi, lane_shuffleEpi32 _ _ hi]
  simp only [hsumI32Avx2, cvtsi128Si32]
  rw [hpair _ 0 (by decide), hpair _ 0 (by decide),
    hpair _ (mmShuffle 2 3 0 1 / 4 ^ 0 % 4) (by decide)]
  simp only [mmShuffle]
  norm_num only
  rw [hfold 0 (by decide), hfold 1 (by decide), hfold 2 (by decide), hfold 3 (by decide)]

theorem hsum_madd_cvt (a b : BitVec 128) :
    hsumI32Avx2 (maddEpi16 (cvtepi8Epi16 a) (cvtepi8Epi16 b)) =
      BitVec.ofInt 32 (∑ j : Fin 16, (lane 8 a j).toInt * (lane 8 b j).toInt) := by
  rw [hsumI32Avx2_eq, lane_madd_cvt a b (by decide), lane_madd_cvt a b (by decide),
    lane_madd_cvt a b (by decide), lane_madd_cvt a b (by decide), lane_madd_cvt a b (by decide),
    lane_madd_cvt a b (by decide), lane_madd_cvt a b (by decide), lane_madd_cvt a b (by decide)]
  simp only [← BitVec.ofInt_add]
  congr 1
  simp only [Fin.sum_univ_succ, Fin.sum_univ_zero]
  simp
  ring

theorem lane_codes (codes qs : Fin 16 → BitVec 8) (sel : BitVec 128)
    (hsel : ∀ j : Fin 16, lane 8 sel j = qs j) (hlt : ∀ j, (qs j).toNat < 16) (j : Fin 16) :
    lane 8 (shuffleEpi8 (loadu codes) sel) j = codes (Fin.ofNat 16 (qs j).toNat) := by
  rw [lane_shuffleEpi8 _ _ j.isLt (by rw [hsel]; exact hlt j), hsel,
    ← lane_loadu codes (Fin.ofNat 16 (qs j).toNat), Fin.val_ofNat, Nat.mod_eq_of_lt (hlt j)]

theorem and_toNat_lt (q : BitVec 8) : (q &&& 0x0f).toNat < 16 := by
  rw [BitVec.toNat_and]
  exact Nat.lt_succ_of_le Nat.and_le_right

theorem lane_low (qs : Fin 16 → BitVec 8) (j : Fin 16) :
    lane 8 (shuffleEpi8 (loadu codebook) (loadu qs &&& set1Epi8 0x0f)) j = decodeTable (qs j) := by
  refine lane_codes codebook (fun j => qs j &&& 0x0f) _ (fun j => ?_) (fun j => and_toNat_lt _) j
  rw [lane_and, lane_loadu, lane_set1Epi8 _ j.isLt]

theorem lane_high (qs : Fin 16 → BitVec 8) (j : Fin 16) :
    lane 8 (shuffleEpi8 (loadu codebook) (srliEpi16 (loadu qs) 4 &&& set1Epi8 0x0f)) j =
      decodeTable (qs j >>> 4) := by
  have hmask : ∀ q : BitVec 8, q >>> 4 &&& (0x0f : BitVec 8) = q >>> 4 := by decide +kernel
  simp only [decodeTable, hmask]
  refine lane_codes codebook (fun j => qs j >>> 4) _ (fun j => ?_) (fun j => ?_) j
  · rw [lane_srli_and _ j.isLt, lane_loadu]
  · have := and_toNat_lt (qs j >>> 4)
    rwa [hmask] at this

/-- The sum over one half of the block. -/
def halfSum (codes q8 : Fin 16 → BitVec 8) : ℤ := ∑ j, (codes j).toInt * (q8 j).toInt

theorem codebook_abs_le (i : Fin 16) : |(codebook i).toInt| ≤ 10 := by
  revert i
  decide

theorem halfSum_abs_le {codes : Fin 16 → BitVec 8} (hcodes : ∀ j, ∃ i, codes j = codebook i)
    (q8 : Fin 16 → BitVec 8) : |halfSum codes q8| ≤ 20480 := by
  have hterm : ∀ j : Fin 16, |(codes j).toInt * (q8 j).toInt| ≤ 1280 := by
    intro j
    obtain ⟨i, hi⟩ := hcodes j
    have hlo := BitVec.le_toInt (q8 j)
    have hhi := BitVec.toInt_lt (x := q8 j)
    rw [abs_mul, hi]
    calc |(codebook i).toInt| * |(q8 j).toInt| ≤ 10 * 128 :=
          mul_le_mul (codebook_abs_le i) (abs_le.mpr ⟨by omega, by omega⟩) (abs_nonneg _) (by decide)
      _ = 1280 := rfl
  calc |halfSum codes q8| ≤ ∑ j : Fin 16, |(codes j).toInt * (q8 j).toInt| :=
        Finset.abs_sum_le_sum_abs _ _
    _ ≤ ∑ _j : Fin 16, 1280 := Finset.sum_le_sum fun j _ => hterm j
    _ = 20480 := by simp

section

variable (qs : Fin 16 → BitVec 8) (q8 : Fin 32 → BitVec 8)

def lowSum : ℤ := halfSum (fun j => decodeTable (qs j)) (lowHalf q8)

def highSum : ℤ := halfSum (fun j => decodeTable (qs j >>> 4)) (highHalf q8)

theorem lowSum_abs_le : |lowSum qs q8| ≤ 20480 := halfSum_abs_le (fun _ => ⟨_, rfl⟩) _

theorem highSum_abs_le : |highSum qs q8| ≤ 20480 := halfSum_abs_le (fun _ => ⟨_, rfl⟩) _

theorem blockIsums_eq : blockIsums qs q8 = (lowSum qs q8, highSum qs q8) := by
  have hfold : ∀ (f g : Fin 16 → ℤ) (l : List (Fin 16)) (s : ℤ × ℤ),
      l.foldl (fun s j => (s.1 + f j, s.2 + g j)) s =
        (s.1 + (l.map f).sum, s.2 + (l.map g).sum) := by
    intro f g l
    induction l with
    | nil => simp
    | cons j l ih =>
      intro s
      rw [List.foldl_cons, ih, List.map_cons, List.map_cons, List.sum_cons, List.sum_cons, add_assoc,
        add_assoc]
  rw [blockIsums, hfold, ← Fin.sum_univ_def, ← Fin.sum_univ_def, zero_add, zero_add]
  rfl

theorem blockIsumFast_eq : blockIsumFast qs q8 = lowSum qs q8 + highSum qs q8 := by
  have hfold : ∀ (f g : Fin 16 → ℤ) (l : List (Fin 16)) (s : ℤ),
      l.foldl (fun s j => s + f j + g j) s = s + ((l.map f).sum + (l.map g).sum) := by
    intro f g l
    induction l with
    | nil => simp
    | cons j l ih =>
      intro s
      rw [List.foldl_cons, ih, List.map_cons, List.map_cons, List.sum_cons, List.sum_cons]
      ring
  rw [blockIsumFast, hfold, ← Fin.sum_univ_def, ← Fin.sum_univ_def, zero_add]
  rfl

theorem blockIsumsAvx2_eq :
    blockIsumsAvx2 qs q8 = (BitVec.ofInt 32 (lowSum qs q8), BitVec.ofInt 32 (highSum qs q8)) := by
  simp only [blockIsumsAvx2]
  rw [hsum_madd_cvt, hsum_madd_cvt]
  simp only [lane_low, lane_high, lane_loadu]
  rfl

theorem toInt_ofInt_of_abs_le {z : ℤ} (h : |z| ≤ 40960) : (BitVec.ofInt 32 z).toInt = z := by
  obtain ⟨hlo, hhi⟩ := abs_le.mp h
  exact BitVec.toInt_ofInt_eq_self (by decide) (by norm_num; omega) (by norm_num; omega)

theorem blockIsumsAvx2_toInt :
    ((blockIsumsAvx2 qs q8).1.toInt, (blockIsumsAvx2 qs q8).2.toInt) = blockIsums qs q8 := by
  rw [blockIsumsAvx2_eq, blockIsums_eq,
    toInt_ofInt_of_abs_le ((lowSum_abs_le qs q8).trans (by decide)),
    toInt_ofInt_of_abs_le ((highSum_abs_le qs q8).trans (by decide))]

theorem blockIsumsAvx2_add_toInt :
    ((blockIsumsAvx2 qs q8).1 + (blockIsumsAvx2 qs q8).2).toInt = blockIsumFast qs q8 := by
  rw [blockIsumsAvx2_eq, blockIsumFast_eq, ← BitVec.ofInt_add]
  refine toInt_ofInt_of_abs_le ((abs_add_le _ _).trans ?_)
  exact add_le_add (lowSum_abs_le qs q8) (highSum_abs_le qs q8)

end

/-! ## The dot products -/

section

variable {F : Type*} [Zero F] [Add F] [Mul F] [IntCast F]
variable (fp16ToFp32 : BitVec 16 → F) (ue4m3ToFp32Half : BitVec 8 → F)

def vecDotQ40Q80Avx2 (nb : ℕ) (x : ℕ → Block) (y : ℕ → BlockQ80) : F :=
  (List.range nb).foldl (fun sumf ib =>
    let d0 := ue4m3ToFp32Half ((x ib).e 0) * fp16ToFp32 (y ib).d
    let d1 := ue4m3ToFp32Half ((x ib).e 1) * fp16ToFp32 (y ib).d
    let sumi := blockIsumsAvx2 (x ib).qs (y ib).qs
    sumf + (d0 * (sumi.1.toInt : F) + d1 * (sumi.2.toInt : F))) 0

def vecDotQ40FastQ80Avx2 (nb : ℕ) (x : ℕ → BlockFast) (y : ℕ → BlockQ80) : F :=
  (List.range nb).foldl (fun sumf ib =>
    let d := ue4m3ToFp32Half (x ib).e * fp16ToFp32 (y ib).d
    let sumi := blockIsumsAvx2 (x ib).qs (y ib).qs
    sumf + d * ((sumi.1 + sumi.2).toInt : F)) 0

/-- `avx2` is the answer of the processor. -/
def vecDotQ40Q80 (avx2 : Bool) (n : ℕ) (x : ℕ → Block) (y : ℕ → BlockQ80) : F :=
  let nb := n / qk
  if avx2 then vecDotQ40Q80Avx2 fp16ToFp32 ue4m3ToFp32Half nb x y
  else
    (List.range nb).foldl (fun sumf ib =>
      let d0 := ue4m3ToFp32Half ((x ib).e 0) * fp16ToFp32 (y ib).d
      let d1 := ue4m3ToFp32Half ((x ib).e 1) * fp16ToFp32 (y ib).d
      let sumi := blockIsums (x ib).qs (y ib).qs
      sumf + (d0 * (sumi.1 : F) + d1 * (sumi.2 : F))) 0

def vecDotQ40FastQ80 (avx2 : Bool) (n : ℕ) (x : ℕ → BlockFast) (y : ℕ → BlockQ80) : F :=
  let nb := n / qk
  if avx2 then vecDotQ40FastQ80Avx2 fp16ToFp32 ue4m3ToFp32Half nb x y
  else
    (List.range nb).foldl (fun sumf ib =>
      let d := ue4m3ToFp32Half (x ib).e * fp16ToFp32 (y ib).d
      sumf + d * (blockIsumFast (x ib).qs (y ib).qs : F)) 0

theorem vecDotQ40Q80_dispatch (avx2 : Bool) (n : ℕ) (x : ℕ → Block) (y : ℕ → BlockQ80) :
    vecDotQ40Q80 fp16ToFp32 ue4m3ToFp32Half avx2 n x y =
      vecDotQ40Q80 fp16ToFp32 ue4m3ToFp32Half false n x y := by
  cases avx2 with
  | false => rfl
  | true =>
    simp only [vecDotQ40Q80, vecDotQ40Q80Avx2, if_true, Bool.false_eq_true, if_false,
      ← blockIsumsAvx2_toInt]

theorem vecDotQ40FastQ80_dispatch (avx2 : Bool) (n : ℕ) (x : ℕ → BlockFast) (y : ℕ → BlockQ80) :
    vecDotQ40FastQ80 fp16ToFp32 ue4m3ToFp32Half avx2 n x y =
      vecDotQ40FastQ80 fp16ToFp32 ue4m3ToFp32Half false n x y := by
  cases avx2 with
  | false => rfl
  | true =>
    simp only [vecDotQ40FastQ80, vecDotQ40FastQ80Avx2, if_true, Bool.false_eq_true, if_false,
      blockIsumsAvx2_add_toInt]

/-- Both layouts: the sums of every block agree, and the dot products do. -/
theorem vecDot_avx2_eq (n : ℕ) (x : ℕ → Block) (xFast : ℕ → BlockFast) (y : ℕ → BlockQ80) :
    (∀ qs q8, ((blockIsumsAvx2 qs q8).1.toInt, (blockIsumsAvx2 qs q8).2.toInt) = blockIsums qs q8) ∧
      vecDotQ40Q80 fp16ToFp32 ue4m3ToFp32Half true n x y =
        vecDotQ40Q80 fp16ToFp32 ue4m3ToFp32Half false n x y ∧
      vecDotQ40FastQ80 fp16ToFp32 ue4m3ToFp32Half true n xFast y =
        vecDotQ40FastQ80 fp16ToFp32 ue4m3ToFp32Half false n xFast y :=
  ⟨blockIsumsAvx2_toInt, vecDotQ40Q80_dispatch _ _ true n x y,
    vecDotQ40FastQ80_dispatch _ _ true n xFast y⟩

end

/-! ## What they compute over the rationals -/

/-- `rocmfp4_ue4m3_to_fp32_half`. -/
def ue4m3ToFp32Half (e : BitVec 8) : ℚ := Fpx.scaleLookup e.toNat

/-- One block of `rocmfp4_dequantize_row_q4_0`. -/
def dequantizeBlock (x : Block) (j : Fin 32) : ℚ :=
  if h : j.val < 16 then (decode (x.qs ⟨j, h⟩ &&& 0x0f)).toInt * ue4m3ToFp32Half (x.e 0)
  else (decode (x.qs ⟨j - 16, by omega⟩ >>> 4)).toInt * ue4m3ToFp32Half (x.e 1)

/-- One block of `rocmfp4_dequantize_row_q4_0_fast`. -/
def dequantizeBlockFast (x : BlockFast) : Fin 32 → ℚ := dequantizeBlock ⟨x.qs, fun _ => x.e⟩

/-- One block of `dequantize_row_q8_0`. -/
def dequantizeQ80 (fp16ToFp32 : BitVec 16 → ℚ) (y : BlockQ80) (j : Fin 32) : ℚ :=
  (y.qs j).toInt * fp16ToFp32 y.d

theorem decode_low (q : BitVec 8) : decode (q &&& 0x0f) = decodeTable q := by
  revert q
  decide +kernel

theorem decode_high (q : BitVec 8) : decode (q >>> 4) = decodeTable (q >>> 4) := by
  revert q
  decide +kernel

theorem dequantizeBlock_dot (fp16ToFp32 : BitVec 16 → ℚ) (x : Block) (y : BlockQ80) :
    ∑ j, dequantizeBlock x j * dequantizeQ80 fp16ToFp32 y j =
      ue4m3ToFp32Half (x.e 0) * fp16ToFp32 y.d * (lowSum x.qs y.qs : ℚ) +
        ue4m3ToFp32Half (x.e 1) * fp16ToFp32 y.d * (highSum x.qs y.qs : ℚ) := by
  rw [Fin.sum_univ_add (a := 16) (b := 16), lowSum, highSum, halfSum, halfSum, Int.cast_sum,
    Int.cast_sum, Finset.mul_sum, Finset.mul_sum]
  refine congrArg₂ (· + ·) (Finset.sum_congr rfl fun j _ => ?_) (Finset.sum_congr rfl fun j _ => ?_)
  · have hlow : dequantizeBlock x (Fin.castAdd 16 j) =
        (decodeTable (x.qs j)).toInt * ue4m3ToFp32Half (x.e 0) :=
      (dif_pos j.isLt).trans (by rw [decode_low]; rfl)
    have hindex : lowHalf y.qs j = y.qs (Fin.castAdd 16 j) := rfl
    rw [hlow, dequantizeQ80, Int.cast_mul, hindex]
    ring
  · have hhigh : dequantizeBlock x (Fin.natAdd 16 j) =
        (decodeTable (x.qs j >>> 4)).toInt * ue4m3ToFp32Half (x.e 1) := by
      refine (dif_neg (Nat.not_lt.mpr (Nat.le_add_right 16 j))).trans ?_
      rw [decode_high]
      simp only [Fin.val_natAdd, Nat.add_sub_cancel_left]
    have hindex : highHalf y.qs j = y.qs (Fin.natAdd 16 j) :=
      congrArg y.qs (Fin.ext (Nat.add_comm _ _))
    rw [hhigh, dequantizeQ80, Int.cast_mul, hindex]
    ring

theorem foldl_range_add (f : ℕ → ℚ) (nb : ℕ) :
    (List.range nb).foldl (fun sumf ib => sumf + f ib) 0 = ∑ ib ∈ Finset.range nb, f ib := by
  induction nb with
  | zero => rfl
  | succ nb ih =>
    rw [List.range_succ, List.foldl_append, ih, Finset.sum_range_succ]
    rfl

/-- Whatever the processor, the dot products are those of the rows that the blocks stand for. -/
theorem vecDot_dequantized (fp16ToFp32 : BitVec 16 → ℚ) (avx2 : Bool) (n : ℕ) (x : ℕ → Block)
    (xFast : ℕ → BlockFast) (y : ℕ → BlockQ80) :
    vecDotQ40Q80 fp16ToFp32 ue4m3ToFp32Half avx2 n x y =
        ∑ ib ∈ Finset.range (n / qk),
          ∑ j, dequantizeBlock (x ib) j * dequantizeQ80 fp16ToFp32 (y ib) j ∧
      vecDotQ40FastQ80 fp16ToFp32 ue4m3ToFp32Half avx2 n xFast y =
        ∑ ib ∈ Finset.range (n / qk),
          ∑ j, dequantizeBlockFast (xFast ib) j * dequantizeQ80 fp16ToFp32 (y ib) j := by
  rw [vecDotQ40Q80_dispatch, vecDotQ40FastQ80_dispatch]
  constructor
  · refine (foldl_range_add _ _).trans (Finset.sum_congr rfl fun ib _ => ?_)
    rw [dequantizeBlock_dot, blockIsums_eq]
  · refine (foldl_range_add _ _).trans (Finset.sum_congr rfl fun ib _ => ?_)
    rw [dequantizeBlockFast, dequantizeBlock_dot, blockIsumFast_eq, Int.cast_add, mul_add]

end RocmFpx.Fp4
