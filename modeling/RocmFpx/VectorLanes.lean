import Mathlib.Tactic.Ring
import Mathlib.Tactic.IntervalCases
import Mathlib.Algebra.BigOperators.Fin

/-!
Vector registers as bit vectors that are read in lanes of any width, and the documented
semantics of a few instructions on 128 and 256 bits. Memory is little-endian: the byte with
the lowest address is lane 0.
-/

namespace RocmFpx.VectorLanes

variable {n w : ℕ}

/-- Lane `i` of width `w`. -/
def lane (w : ℕ) (v : BitVec n) (i : ℕ) : BitVec w := v.extractLsb' (w * i) w

/-- The register whose lanes of width `w` are given. -/
def ofLanes (w n : ℕ) (f : ℕ → BitVec w) : BitVec n :=
  (BitVec.iunfoldr (fun (j : Fin n) (_ : Unit) => ((), (f (j / w)).getLsbD (j % w))) ()).2

theorem getLsbD_ofLanes (f : ℕ → BitVec w) {j : ℕ} (hj : j < n) :
    (ofLanes w n f).getLsbD j = (f (j / w)).getLsbD (j % w) :=
  BitVec.iunfoldr_getLsbD (fun _ => ()) ⟨j, hj⟩ fun _ => rfl

theorem getLsbD_lane (v : BitVec n) (i : ℕ) {j : ℕ} (hj : j < w) :
    (lane w v i).getLsbD j = v.getLsbD (w * i + j) := by
  rw [lane, BitVec.getLsbD_extractLsb', decide_eq_true hj, Bool.true_and]

theorem lane_ofLanes (f : ℕ → BitVec w) {i : ℕ} (hi : w * (i + 1) ≤ n) :
    lane w (ofLanes w n f) i = f i := by
  refine BitVec.eq_of_getLsbD_eq fun j hj => ?_
  have hw : 0 < w := Nat.zero_lt_of_lt hj
  rw [getLsbD_lane _ _ hj, getLsbD_ofLanes f (by rw [Nat.mul_succ] at hi; omega),
    Nat.mul_add_div hw, Nat.div_eq_of_lt hj, Nat.add_zero, Nat.mul_add_mod, Nat.mod_eq_of_lt hj]

theorem lane_and (a b : BitVec n) (i : ℕ) : lane w (a &&& b) i = lane w a i &&& lane w b i :=
  BitVec.extractLsb'_and

/-! ## Loads and bytes -/

/-- `_mm_loadu_si128`. -/
def loadu (mem : Fin 16 → BitVec 8) : BitVec 128 :=
  ofLanes 8 128 fun i => if h : i < 16 then mem ⟨i, h⟩ else 0

def set1Epi8 (x : BitVec 8) : BitVec 128 := ofLanes 8 128 fun _ => x

/-- A logical shift of every 16-bit lane. -/
def srliEpi16 (a : BitVec 128) (k : ℕ) : BitVec 128 := ofLanes 16 128 fun i => lane 16 a i >>> k

/-- `pshufb`: each byte of `b` selects one of `a`, or zero if its top bit is set. -/
def shuffleEpi8 (a b : BitVec 128) : BitVec 128 :=
  ofLanes 8 128 fun i =>
    if (lane 8 b i).msb then 0 else lane 8 a (lane 8 b i &&& 0x0f).toNat

theorem lane_loadu (mem : Fin 16 → BitVec 8) (i : Fin 16) : lane 8 (loadu mem) i = mem i := by
  rw [loadu, lane_ofLanes _ (by omega), dif_pos i.isLt]

theorem lane_set1Epi8 (x : BitVec 8) {i : ℕ} (hi : i < 16) : lane 8 (set1Epi8 x) i = x :=
  lane_ofLanes _ (by omega)

theorem lane_srli_and (a : BitVec 128) {i : ℕ} (hi : i < 16) :
    lane 8 (srliEpi16 a 4 &&& set1Epi8 0x0f) i = lane 8 a i >>> 4 := by
  rw [lane_and, lane_set1Epi8 _ hi]
  refine BitVec.eq_of_getLsbD_eq fun j hj => ?_
  rw [BitVec.getLsbD_and, getLsbD_lane _ _ hj, BitVec.getLsbD_ushiftRight, srliEpi16,
    getLsbD_ofLanes _ (by omega), BitVec.getLsbD_ushiftRight]
  by_cases hlow : j < 4
  · have hbit : BitVec.getLsbD (0x0f : BitVec 8) j = true := by
      interval_cases j <;> rfl
    rw [hbit, Bool.and_true, getLsbD_lane _ _ (by omega), getLsbD_lane _ _ (by omega)]
    congr 1
    omega
  · have hbit : BitVec.getLsbD (0x0f : BitVec 8) j = false := by
      interval_cases j <;> first | omega | rfl
    rw [hbit, Bool.and_false, BitVec.getLsbD_of_ge _ _ (by omega)]

theorem lane_shuffleEpi8 (a b : BitVec 128) {i : ℕ} (hi : i < 16) (hb : (lane 8 b i).toNat < 16) :
    lane 8 (shuffleEpi8 a b) i = lane 8 a (lane 8 b i).toNat := by
  rw [shuffleEpi8, lane_ofLanes _ (by omega), if_neg]
  · congr 1
    rw [BitVec.toNat_and]
    exact (Nat.and_two_pow_sub_one_eq_mod _ 4).trans (Nat.mod_eq_of_lt hb)
  · rw [Bool.not_eq_true, BitVec.msb_eq_false_iff_two_mul_lt]
    omega

/-! ## Multiplying and adding -/

/-- The 16 bytes, sign-extended to 16 bits. -/
def cvtepi8Epi16 (a : BitVec 128) : BitVec 256 :=
  ofLanes 16 256 fun i => (lane 8 a i).signExtend 16

/-- The products of the 16-bit lanes in 32 bits, added in pairs. -/
def maddEpi16 (a b : BitVec 256) : BitVec 256 :=
  ofLanes 32 256 fun i =>
    (lane 16 a (2 * i)).signExtend 32 * (lane 16 b (2 * i)).signExtend 32 +
      (lane 16 a (2 * i + 1)).signExtend 32 * (lane 16 b (2 * i + 1)).signExtend 32

def castsi256Si128 (a : BitVec 256) : BitVec 128 := lane 128 a 0

def extracti128Si256 (a : BitVec 256) (k : ℕ) : BitVec 128 := lane 128 a (k % 2)

def addEpi32 (a b : BitVec 128) : BitVec 128 := ofLanes 32 128 fun i => lane 32 a i + lane 32 b i

/-- `_MM_SHUFFLE`. -/
def mmShuffle (z y x w : ℕ) : ℕ := z * 64 + y * 16 + x * 4 + w

/-- Two bits of `imm` select the source of each 32-bit lane. -/
def shuffleEpi32 (a : BitVec 128) (imm : ℕ) : BitVec 128 :=
  ofLanes 32 128 fun i => lane 32 a (imm / 4 ^ i % 4)

def cvtsi128Si32 (a : BitVec 128) : BitVec 32 := lane 32 a 0

theorem lane_lane {w' k : ℕ} (v : BitVec n) (q i : ℕ) (hw : w' = w * k) (hi : i < k) :
    lane w (lane w' v q) i = lane w v (k * q + i) := by
  subst hw
  refine BitVec.eq_of_getLsbD_eq fun j hj => ?_
  have hlt : w * i + j < w * k :=
    calc w * i + j < w * i + w := Nat.add_lt_add_left hj _
      _ = w * (i + 1) := (Nat.mul_succ w i).symm
      _ ≤ w * k := Nat.mul_le_mul_left w hi
  rw [getLsbD_lane _ _ hj, getLsbD_lane _ _ hlt, getLsbD_lane _ _ hj]
  congr 1
  ring

theorem lane_addEpi32 (a b : BitVec 128) {i : ℕ} (hi : i < 4) :
    lane 32 (addEpi32 a b) i = lane 32 a i + lane 32 b i :=
  lane_ofLanes _ (by omega)

theorem lane_shuffleEpi32 (a : BitVec 128) (imm : ℕ) {i : ℕ} (hi : i < 4) :
    lane 32 (shuffleEpi32 a imm) i = lane 32 a (imm / 4 ^ i % 4) :=
  lane_ofLanes _ (by omega)

theorem lane_madd_cvt (a b : BitVec 128) {i : ℕ} (hi : i < 8) :
    lane 32 (maddEpi16 (cvtepi8Epi16 a) (cvtepi8Epi16 b)) i =
      BitVec.ofInt 32 ((lane 8 a (2 * i)).toInt * (lane 8 b (2 * i)).toInt +
        (lane 8 a (2 * i + 1)).toInt * (lane 8 b (2 * i + 1)).toInt) := by
  have hext : ∀ (v : BitVec 128) (j : ℕ), j < 16 →
      (lane 16 (cvtepi8Epi16 v) j).signExtend 32 = BitVec.ofInt 32 (lane 8 v j).toInt := by
    intro v j hj
    rw [cvtepi8Epi16, lane_ofLanes _ (by omega), BitVec.signExtend,
      BitVec.toInt_signExtend_of_le (by decide)]
  rw [maddEpi16, lane_ofLanes _ (by omega), hext a _ (by omega), hext b _ (by omega),
    hext a _ (by omega), hext b _ (by omega), ← BitVec.ofInt_mul, ← BitVec.ofInt_mul,
    ← BitVec.ofInt_add]

end RocmFpx.VectorLanes
