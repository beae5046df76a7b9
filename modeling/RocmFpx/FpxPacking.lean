import RocmFpx.DenseStream
import RocmFpx.FpxCodec

/-!
The payloads of the formats: FP2 (4 codes in a byte), FP3 (8 codes in 3 bytes), FP6 (4
codes in 3 bytes), FP5 and FP7 (code by code into a bit stream) and ROCmI4 (nibbles).
A pointer to bytes or codes is a function of the offset.
-/

namespace RocmFpx.Fpx

/-! ## FP2 -/

def fp2PackByte (c : ℕ → BitVec 8) : BitVec 8 :=
  (List.range 4).foldl (fun byte lane => byte ||| c lane <<< (2 * lane)) 0

/-- Both halves of a block: byte `packed` has the codes from `4 * packed` on. -/
def fp2Pack (c : ℕ → BitVec 8) (packed : ℕ) : BitVec 8 :=
  fp2PackByte fun lane => c (4 * packed + lane)

def fp2Unpack (qs : ℕ → BitVec 8) (j : ℕ) : BitVec 8 := qs (j / 4) >>> (2 * (j % 4)) &&& 3

/-! ## FP3 -/

def fp3Pack8 (c : ℕ → BitVec 8) : ℕ → BitVec 8
  | 0 => (c 0 &&& 7) ||| (c 1 &&& 7) <<< 3 ||| (c 2 &&& 3) <<< 6
  | 1 => (c 2 >>> 2 &&& 1) ||| (c 3 &&& 7) <<< 1 ||| (c 4 &&& 7) <<< 4 ||| (c 5 &&& 1) <<< 7
  | _ => (c 5 >>> 1 &&& 3) ||| (c 6 &&& 7) <<< 2 ||| (c 7 &&& 7) <<< 5

def fp3Unpack8 (src : ℕ → BitVec 8) : ℕ → BitVec 8
  | 0 => src 0 &&& 7
  | 1 => src 0 >>> 3 &&& 7
  | 2 => (src 0 >>> 6 &&& 3) ||| (src 1 &&& 1) <<< 2
  | 3 => src 1 >>> 1 &&& 7
  | 4 => src 1 >>> 4 &&& 7
  | 5 => (src 1 >>> 7 &&& 1) ||| (src 2 &&& 3) <<< 1
  | 6 => src 2 >>> 2 &&& 7
  | _ => src 2 >>> 5 &&& 7

/-- The groups of a block, three bytes each. -/
def fp3Pack (c : ℕ → BitVec 8) (b : ℕ) : BitVec 8 :=
  fp3Pack8 (fun j => c (b / 3 * 8 + j)) (b % 3)

def fp3Unpack (qs : ℕ → BitVec 8) (j : ℕ) : BitVec 8 :=
  fp3Unpack8 (fun b => qs (j / 8 * 3 + b)) (j % 8)

/-! ## FP6 -/

def fp6Pack4 (c : ℕ → BitVec 8) : ℕ → BitVec 8
  | 0 => (c 0 &&& 0x3f) ||| (c 1 &&& 0x03) <<< 6
  | 1 => (c 1 >>> 2 &&& 0x0f) ||| (c 2 &&& 0x0f) <<< 4
  | _ => (c 2 >>> 4 &&& 0x03) ||| (c 3 &&& 0x3f) <<< 2

def fp6Unpack4 (src : ℕ → BitVec 8) : ℕ → BitVec 8
  | 0 => src 0 &&& 0x3f
  | 1 => (src 0 >>> 6 &&& 0x03) ||| (src 1 &&& 0x0f) <<< 2
  | 2 => (src 1 >>> 4 &&& 0x0f) ||| (src 2 &&& 0x03) <<< 4
  | _ => src 2 >>> 2 &&& 0x3f

def fp6Pack (c : ℕ → BitVec 8) (b : ℕ) : BitVec 8 :=
  fp6Pack4 (fun j => c (b / 3 * 4 + j)) (b % 3)

def fp6Unpack (qs : ℕ → BitVec 8) (j : ℕ) : BitVec 8 :=
  fp6Unpack4 (fun b => qs (j / 4 * 3 + b)) (j % 4)

/-! ## FP5 and FP7 -/

def packLinearCode (bits : ℕ) (code : BitVec 8) (index : ℕ) (qs : ℕ → BitVec 8) :
    ℕ → BitVec 8 :=
  let bit := index * bits
  let byte := bit / 8
  let shift := bit % 8
  let packed : BitVec 16 := code.setWidth 16 <<< shift
  let qs := Function.update qs byte (qs byte ||| packed.setWidth 8)
  if shift + bits > 8 then
    Function.update qs (byte + 1) (qs (byte + 1) ||| (packed >>> 8).setWidth 8)
  else qs

def unpackLinearCode (bits : ℕ) (qs : ℕ → BitVec 8) (index : ℕ) : BitVec 8 :=
  let bit := index * bits
  let byte := bit / 8
  let shift := bit % 8
  let packed : BitVec 16 := (qs byte).setWidth 16
  let packed := if shift + bits > 8 then packed ||| (qs (byte + 1)).setWidth 16 <<< 8 else packed
  (packed >>> shift &&& (1 <<< bits - 1)).setWidth 8

/-- The codes of a block go one by one into a payload of zeros. -/
def linearPack (bits : ℕ) (c : ℕ → BitVec 8) : ℕ → BitVec 8 :=
  (List.range 32).foldl (fun qs index => packLinearCode bits (c index) index qs) fun _ => 0

/-! ## ROCmI4 -/

/-- Byte `j` has the codes `j` and `j + 16`. -/
def i4Pack (q : ℕ → ℤ) (j : ℕ) : BitVec 8 := rocmi4Nibble (q j) ||| rocmi4Nibble (q (j + 16)) <<< 4

def i4Unpack (qs : ℕ → BitVec 8) (j : ℕ) : ℤ :=
  if j < 16 then rocmi4NibbleToI8 (qs j &&& 0x0F) else rocmi4NibbleToI8 (qs (j - 16) >>> 4)

/-! ## FP2, FP3 and FP6 are dense streams -/

theorem fp2PackByte_dense {c : ℕ → BitVec 8} (hc : ∀ i < 4, InWidth 2 (c i)) :
    Dense 2 (2 * 4) c fun _ => fp2PackByte c := by
  have hhigh : ∀ i < 4, ∀ j (_ : 2 ≤ j) (hj : j < 8), (c i)[j] = false :=
    fun i hi j hle hj => by rw [← BitVec.getLsbD_eq_getElem hj, (hc i hi).getLsbD hle]
  intro b hb
  interval_cases b <;> simp [fp2PackByte, List.range_succ, hhigh]

theorem fp2_densePacking : DensePacking 2 32 8 fp2Pack fp2Unpack where
  size := rfl
  packs codes hcodes := by
    refine Dense.of_groups (m := 1) (k := 4) rfl (by decide) (by decide) fun g hg b hb => ?_
    have hbyte := fp2PackByte_dense (c := fun j => codes (g * 4 + j))
      (fun i hi => hcodes _ (by omega)) b hb
    have hdiv : g * 1 + b / 8 = g := by omega
    simp only [← hbyte, fp2Pack, hdiv, mul_comm]
  unpacks bytes := by
    refine Dense.of_groups (m := 1) (k := 4) rfl (by decide) (by decide) fun g hg b hb => ?_
    have hdiv : (g * 4 + b / 2) / 4 = g := by omega
    have hmod : (g * 4 + b / 2) % 4 = b / 2 := by omega
    simp only [fp2Unpack, hdiv, hmod, mul_one]
    interval_cases b <;> simp
  inWidth bytes i hi := InWidth.and (by decide) _

theorem fp3Pack8_dense (c : ℕ → BitVec 8) : Dense 3 (3 * 8) c (fp3Pack8 c) := by
  intro b hb
  interval_cases b <;> simp [fp3Pack8]

theorem fp3Unpack8_dense (src : ℕ → BitVec 8) : Dense 3 (3 * 8) (fp3Unpack8 src) src := by
  intro b hb
  interval_cases b <;> simp [fp3Unpack8]

theorem fp3Unpack8_inWidth (src : ℕ → BitVec 8) {j : ℕ} (hj : j < 8) :
    InWidth 3 (fp3Unpack8 src j) := by
  have hsplit : ∀ x y : BitVec 8, InWidth 3 ((x &&& 3) ||| (y &&& 1) <<< 2) := fun x y =>
    InWidth.or (InWidth.and (by decide) x) (.shiftLeft (v := 1) (InWidth.and (by decide) y) le_rfl)
  have hsplit' : ∀ x y : BitVec 8, InWidth 3 ((x &&& 1) ||| (y &&& 3) <<< 1) := fun x y =>
    InWidth.or (InWidth.and (by decide) x) (.shiftLeft (v := 2) (InWidth.and (by decide) y) le_rfl)
  interval_cases j
  · exact InWidth.and (by decide) _
  · exact InWidth.and (by decide) _
  · exact hsplit _ _
  · exact InWidth.and (by decide) _
  · exact InWidth.and (by decide) _
  · exact hsplit' _ _
  · exact InWidth.and (by decide) _
  · exact InWidth.and (by decide) _

theorem fp3_densePacking : DensePacking 3 32 12 fp3Pack fp3Unpack where
  size := rfl
  packs codes hcodes := by
    refine Dense.of_groups (m := 3) (k := 8) rfl (by decide) (by decide) fun g hg b hb => ?_
    have hdiv : (g * 3 + b / 8) / 3 = g := by omega
    have hmod : (g * 3 + b / 8) % 3 = b / 8 := by omega
    simp only [fp3Pack, hdiv, hmod]
    exact fp3Pack8_dense _ b hb
  unpacks bytes := by
    refine Dense.of_groups (m := 3) (k := 8) rfl (by decide) (by decide) fun g hg b hb => ?_
    have hdiv : (g * 8 + b / 3) / 8 = g := by omega
    have hmod : (g * 8 + b / 3) % 8 = b / 3 := by omega
    simp only [fp3Unpack, hdiv, hmod]
    exact fp3Unpack8_dense (fun b => bytes (g * 3 + b)) b hb
  inWidth bytes i hi := fp3Unpack8_inWidth _ (Nat.mod_lt _ (by decide))

theorem fp6Pack4_dense (c : ℕ → BitVec 8) : Dense 6 (6 * 4) c (fp6Pack4 c) := by
  intro b hb
  interval_cases b <;> simp [fp6Pack4]

theorem fp6Unpack4_dense (src : ℕ → BitVec 8) : Dense 6 (6 * 4) (fp6Unpack4 src) src := by
  intro b hb
  interval_cases b <;> simp [fp6Unpack4]

theorem fp6Unpack4_inWidth (src : ℕ → BitVec 8) {j : ℕ} (hj : j < 4) :
    InWidth 6 (fp6Unpack4 src j) := by
  have hsplit : ∀ x y : BitVec 8, InWidth 6 ((x &&& 0x03) ||| (y &&& 0x0f) <<< 2) := fun x y =>
    InWidth.or (InWidth.and (by decide) x) (.shiftLeft (v := 4) (InWidth.and (by decide) y) le_rfl)
  have hsplit' : ∀ x y : BitVec 8, InWidth 6 ((x &&& 0x0f) ||| (y &&& 0x03) <<< 4) := fun x y =>
    InWidth.or (InWidth.and (by decide) x) (.shiftLeft (v := 2) (InWidth.and (by decide) y) le_rfl)
  interval_cases j
  · exact InWidth.and (by decide) _
  · exact hsplit _ _
  · exact hsplit' _ _
  · exact InWidth.and (by decide) _

theorem fp6_densePacking : DensePacking 6 32 24 fp6Pack fp6Unpack where
  size := rfl
  packs codes hcodes := by
    refine Dense.of_groups (m := 3) (k := 4) rfl (by decide) (by decide) fun g hg b hb => ?_
    have hdiv : (g * 3 + b / 8) / 3 = g := by omega
    have hmod : (g * 3 + b / 8) % 3 = b / 8 := by omega
    simp only [fp6Pack, hdiv, hmod]
    exact fp6Pack4_dense _ b hb
  unpacks bytes := by
    refine Dense.of_groups (m := 3) (k := 4) rfl (by decide) (by decide) fun g hg b hb => ?_
    have hdiv : (g * 4 + b / 6) / 4 = g := by omega
    have hmod : (g * 4 + b / 6) % 4 = b / 6 := by omega
    simp only [fp6Unpack, hdiv, hmod]
    exact fp6Unpack4_dense (fun b => bytes (g * 3 + b)) b hb
  inWidth bytes i hi := fp6Unpack4_inWidth _ (Nat.mod_lt _ (by decide))

/-! ## FP5 and FP7 -/

theorem packLinearCode_apply (bits : ℕ) (code : BitVec 8) (index : ℕ) (qs : ℕ → BitVec 8)
    (p : ℕ) : packLinearCode bits code index qs p =
      if p = index * bits / 8 then
        qs p ||| (code.setWidth 16 <<< (index * bits % 8) : BitVec 16).setWidth 8
      else if p = index * bits / 8 + 1 ∧ index * bits % 8 + bits > 8 then
        qs p ||| ((code.setWidth 16 <<< (index * bits % 8) : BitVec 16) >>> 8).setWidth 8
      else qs p := by
  unfold packLinearCode
  by_cases hcross : index * bits % 8 + bits > 8
  · by_cases hlow : p = index * bits / 8
    · simp [hcross, hlow]
    · by_cases hnext : p = index * bits / 8 + 1
      · simp [hcross, hnext]
      · simp [hcross, hlow, hnext]
  · by_cases hlow : p = index * bits / 8
    · simp [hcross, hlow]
    · simp [hcross, hlow]

theorem low_getLsbD (code : BitVec 8) {shift j : ℕ} (hj : j < 8) :
    ((code.setWidth 16 <<< shift : BitVec 16).setWidth 8).getLsbD j =
      (decide (shift ≤ j) && code.getLsbD (j - shift)) := by
  have h16 : j < 16 := by omega
  have hsub : j - shift < 16 := by omega
  simp only [BitVec.getLsbD_setWidth, BitVec.getLsbD_shiftLeft, hj, h16, hsub, decide_true,
    Bool.true_and, ← not_lt, decide_not]

theorem high_getLsbD (code : BitVec 8) {shift j : ℕ} (hshift : shift < 8) (hj : j < 8) :
    (((code.setWidth 16 <<< shift : BitVec 16) >>> 8).setWidth 8).getLsbD j =
      code.getLsbD (8 + j - shift) := by
  have h16 : 8 + j < 16 := by omega
  have hle : ¬ 8 + j < shift := by omega
  have hsub : 8 + j - shift < 16 := by omega
  simp only [BitVec.getLsbD_setWidth, BitVec.getLsbD_ushiftRight, BitVec.getLsbD_shiftLeft, hj,
    h16, hle, hsub, decide_true, decide_false, Bool.not_false, Bool.true_and]

theorem packLinearCode_bit {bits : ℕ} (hbits : bits ≤ 8) {code : BitVec 8}
    (hcode : InWidth bits code) (index : ℕ) (qs : ℕ → BitVec 8) (b : ℕ) :
    (packLinearCode bits code index qs (b / 8)).getLsbD (b % 8) =
      ((qs (b / 8)).getLsbD (b % 8) ||
        (decide (index * bits ≤ b) && code.getLsbD (b - index * bits))) := by
  have hj : b % 8 < 8 := Nat.mod_lt _ (by decide)
  have hshift : index * bits % 8 < 8 := Nat.mod_lt _ (by decide)
  rw [packLinearCode_apply]
  split_ifs with hlow hnext
  · have hle : index * bits % 8 ≤ b % 8 ↔ index * bits ≤ b := by omega
    have hsub : b % 8 - index * bits % 8 = b - index * bits := by omega
    rw [BitVec.getLsbD_or, low_getLsbD code hj, hsub]
    simp only [hle]
  · have hle : index * bits ≤ b := by omega
    have hsub : 8 + b % 8 - index * bits % 8 = b - index * bits := by omega
    rw [BitVec.getLsbD_or, high_getLsbD code hshift hj, hsub, decide_eq_true hle, Bool.true_and]
  · -- the code ends before the byte, or starts after it
    have hnone : (decide (index * bits ≤ b) && code.getLsbD (b - index * bits)) = false := by
      rcases Nat.lt_or_ge b (index * bits) with hlt | hge
      · rw [decide_eq_false (not_le_of_gt hlt), Bool.false_and]
      · rw [hcode.getLsbD (by omega), Bool.and_false]
    rw [hnone, Bool.or_false]

theorem linearPack_bit {bits : ℕ} (hpos : 0 < bits) (hbits : bits ≤ 8) {codes : ℕ → BitVec 8}
    {n : ℕ} (hcodes : ∀ i < n, InWidth bits (codes i)) (b : ℕ) :
    ((List.range n).foldl (fun qs index => packLinearCode bits (codes index) index qs)
      (fun _ => 0) (b / 8)).getLsbD (b % 8) =
        (decide (b < n * bits) && (codes (b / bits)).getLsbD (b % bits)) := by
  induction n with
  | zero => simp
  | succ n ih =>
    rw [List.range_succ, List.foldl_append, List.foldl_cons, List.foldl_nil,
      packLinearCode_bit hbits (hcodes n (Nat.lt_succ_self n)),
      ih fun i hi => hcodes i (hi.trans (Nat.lt_succ_self n)), Nat.succ_mul]
    rcases Nat.lt_or_ge b (n * bits) with hlt | hge
    · have hlt' : b < n * bits + bits := by omega
      simp [hlt, hlt', not_le_of_gt hlt]
    · obtain ⟨r, rfl⟩ := Nat.exists_eq_add_of_le hge
      rcases Nat.lt_or_ge r bits with hr | hr
      · have hdiv : (n * bits + r) / bits = n := by
          rw [mul_comm, Nat.mul_add_div hpos, Nat.div_eq_of_lt hr, add_zero]
        have hmod : (n * bits + r) % bits = r := by
          rw [mul_comm, Nat.mul_add_mod, Nat.mod_eq_of_lt hr]
        simp [hdiv, hmod, hr]
      · have hzero := (hcodes n (Nat.lt_succ_self n)).getLsbD hr
        simp [hzero, not_lt_of_ge hr]

theorem linearMask_getLsbD : ∀ bits ≤ 8, ∀ j < 16,
    (1 <<< bits - 1 : BitVec 16).getLsbD j = decide (j < bits) := by
  decide

theorem unpackLinearCode_bit {bits : ℕ} (hbits : bits ≤ 8) (qs : ℕ → BitVec 8) (index : ℕ)
    {j : ℕ} (hj : j < 8) : (unpackLinearCode bits qs index).getLsbD j =
      (decide (j < bits) &&
        (qs ((index * bits + j) / 8)).getLsbD ((index * bits + j) % 8)) := by
  have hshift : index * bits % 8 < 8 := Nat.mod_lt _ (by decide)
  have hj16 : j < 16 := by omega
  unfold unpackLinearCode
  simp only [BitVec.getLsbD_setWidth, BitVec.getLsbD_and, BitVec.getLsbD_ushiftRight, hj,
    decide_true, Bool.true_and, linearMask_getLsbD bits hbits j hj16]
  rw [Bool.and_comm]
  rcases Nat.lt_or_ge j bits with hlt | hge
  · congr 1
    rcases Nat.lt_or_ge (index * bits % 8 + j) 8 with hlow | hhigh
    · have hbyte : (index * bits + j) / 8 = index * bits / 8 := by omega
      have hbit : (index * bits + j) % 8 = index * bits % 8 + j := by omega
      have h16 : index * bits % 8 + j < 16 := by omega
      rw [hbyte, hbit]
      split_ifs
      · simp [hlow, h16]
      · simp [h16]
    · have hbyte : (index * bits + j) / 8 = index * bits / 8 + 1 := by omega
      have hbit : (index * bits + j) % 8 = index * bits % 8 + j - 8 := by omega
      have h16 : index * bits % 8 + j < 16 := by omega
      have hcross : index * bits % 8 + bits > 8 := by omega
      have hnone : (qs (index * bits / 8)).getLsbD (index * bits % 8 + j) = false :=
        BitVec.getLsbD_of_ge _ _ hhigh
      rw [hbyte, hbit, if_pos hcross]
      simp [h16, not_lt_of_ge hhigh, hnone]
  · rw [decide_eq_false (not_lt_of_ge hge), Bool.false_and, Bool.false_and]

theorem linear_densePacking (bits : ℕ) (hpos : 0 < bits) (hbits : bits ≤ 8) :
    DensePacking bits 32 (4 * bits) (linearPack bits) (unpackLinearCode bits) where
  size := by omega
  packs codes hcodes b hb := by
    rw [linearPack, linearPack_bit hpos hbits hcodes, decide_eq_true (by rwa [mul_comm]),
      Bool.true_and]
  unpacks bytes b hb := by
    have hlt : b % bits < bits := Nat.mod_lt _ hpos
    have hat : b / bits * bits + b % bits = b := by rw [mul_comm]; exact Nat.div_add_mod b bits
    rw [unpackLinearCode_bit hbits bytes _ (by omega), hat, decide_eq_true hlt, Bool.true_and]
  inWidth bytes i _ := inWidth_of_getLsbD fun j hj => by
    rcases Nat.lt_or_ge j 8 with hlt | hge
    · rw [unpackLinearCode_bit hbits bytes i hlt, decide_eq_false (not_lt_of_ge hj),
        Bool.false_and]
    · exact BitVec.getLsbD_of_ge _ j hge

/-! ## ROCmI4 -/

/-- The codes of a nibble. -/
def I4InRange (q : ℤ) : Prop := -8 ≤ q ∧ q ≤ 7

theorem i4_nibbles : ∀ q₀ ∈ Finset.Icc (-8 : ℤ) 7, ∀ q₁ ∈ Finset.Icc (-8 : ℤ) 7,
    rocmi4NibbleToI8 ((rocmi4Nibble q₀ ||| rocmi4Nibble q₁ <<< 4) &&& 0x0F) = q₀ ∧
      rocmi4NibbleToI8 ((rocmi4Nibble q₀ ||| rocmi4Nibble q₁ <<< 4) >>> 4) = q₁ := by
  decide +kernel

theorem i4_byte : ∀ b : BitVec 8, I4InRange (rocmi4NibbleToI8 (b &&& 0x0F)) ∧
    I4InRange (rocmi4NibbleToI8 (b >>> 4)) ∧
      rocmi4Nibble (rocmi4NibbleToI8 (b &&& 0x0F)) |||
        rocmi4Nibble (rocmi4NibbleToI8 (b >>> 4)) <<< 4 = b := by
  unfold I4InRange
  decide +kernel

theorem i4Unpack_pack {q : ℕ → ℤ} (hq : ∀ i < 32, I4InRange (q i)) :
    ∀ i < 32, i4Unpack (i4Pack q) i = q i := by
  intro i hi
  unfold i4Unpack i4Pack
  split_ifs with hlow
  · exact (i4_nibbles _ (Finset.mem_Icc.mpr (hq i hi)) _
      (Finset.mem_Icc.mpr (hq (i + 16) (by omega)))).1
  · have hback : i - 16 + 16 = i := by omega
    rw [hback]
    exact (i4_nibbles _ (Finset.mem_Icc.mpr (hq (i - 16) (by omega))) _
      (Finset.mem_Icc.mpr (hq i hi))).2

theorem i4Pack_unpack (qs : ℕ → BitVec 8) : ∀ b < 16, i4Pack (i4Unpack qs) b = qs b := by
  intro b hb
  have hhigh : ¬ b + 16 < 16 := by omega
  rw [i4Pack, i4Unpack, i4Unpack, if_pos hb, if_neg hhigh, Nat.add_sub_cancel]
  exact (i4_byte (qs b)).2.2

end RocmFpx.Fpx
