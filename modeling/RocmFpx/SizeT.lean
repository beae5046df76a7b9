import Mathlib.Data.Int.Basic
import Mathlib.Data.Nat.Bitwise

/-!
Arithmetic of `size_t`, and the padding of a size to a multiple of a power of two.
-/

namespace RocmFpx

/-- `SIZE_MAX`. -/
def sizeMax : ℕ := 2 ^ 64 - 1

/-- The value of a `size_t` expression. -/
def wrapSize (n : ℕ) : ℕ := n % 2 ^ 64

def sizeSub (a b : ℕ) : ℕ := wrapSize (a + 2 ^ 64 - b)

theorem wrapSize_eq {n : ℕ} (h : n ≤ sizeMax) : wrapSize n = n := Nat.mod_eq_of_lt (by
  unfold sizeMax at h
  omega)

theorem sizeSub_eq {a b : ℕ} (h : b ≤ a) (ha : a ≤ sizeMax) : sizeSub a b = a - b := by
  unfold sizeMax at ha
  unfold sizeSub wrapSize
  omega

theorem wrapSize_le (n : ℕ) : wrapSize n ≤ sizeMax := by
  unfold wrapSize sizeMax
  omega

theorem wrapSize_add (a b : ℕ) : wrapSize (wrapSize a + b) = wrapSize (a + b) :=
  Nat.mod_add_mod _ _ _

/-- The test of the source for a power of two. -/
def isPowerOfTwo (n : ℕ) : Bool := n != 0 && n &&& (n - 1) == 0

theorem isPowerOfTwo_iff {n : ℕ} : isPowerOfTwo n = true ↔ ∃ k, n = 2 ^ k := by
  simp only [isPowerOfTwo, Bool.and_eq_true, bne_iff_ne, beq_iff_eq]
  constructor
  · rintro ⟨hne, hand⟩
    exact (Nat.and_sub_one_eq_zero_iff_isPowerOfTwo hne).mp hand
  · rintro ⟨k, rfl⟩
    have hne : 2 ^ k ≠ 0 := Nat.ne_of_gt (Nat.two_pow_pos k)
    exact ⟨hne, (Nat.and_sub_one_eq_zero_iff_isPowerOfTwo hne).mpr ⟨k, rfl⟩⟩

/-- `GGML_PAD`. -/
def ggmlPad (x n : ℕ) : ℕ := wrapSize (x + n - 1) &&& (sizeMax - (n - 1))

/-- The least multiple of `n` from `x` on. -/
def padded (x n : ℕ) : ℕ := (x + n - 1) / n * n

theorem and_sub_two_pow {y k : ℕ} (hy : y ≤ sizeMax) (hk : k ≤ 64) :
    y &&& (sizeMax - (2 ^ k - 1)) = y / 2 ^ k * 2 ^ k := by
  have hmask : sizeMax - (2 ^ k - 1) = (2 ^ (64 - k) - 1) * 2 ^ k := by
    have hpow : 2 ^ (64 - k) * 2 ^ k = 2 ^ 64 := by rw [← Nat.pow_add, Nat.sub_add_cancel hk]
    have hpos := Nat.two_pow_pos k
    rw [Nat.sub_mul, hpow, sizeMax]
    omega
  refine Nat.eq_of_testBit_eq fun i => ?_
  rw [hmask, Nat.testBit_and, Nat.testBit_mul_two_pow, Nat.testBit_mul_two_pow,
    Nat.testBit_two_pow_sub_one, Nat.testBit_div_two_pow]
  by_cases hi : k ≤ i
  · rw [Nat.sub_add_cancel hi]
    by_cases hlt : i < 64
    · simp [hi, show i - k < 64 - k by omega]
    · have hlow : y.testBit i = false := Nat.testBit_lt_two_pow (lt_of_le_of_lt hy (by
        rw [sizeMax]
        exact lt_of_lt_of_le (by decide) (Nat.pow_le_pow_right (by decide) (not_lt.mp hlt))))
      simp [hlow]
  · simp [hi]

theorem ggmlPad_eq {x n : ℕ} (hn : isPowerOfTwo n = true) (hx : x + (n - 1) ≤ sizeMax) :
    ggmlPad x n = padded x n := by
  obtain ⟨k, rfl⟩ := isPowerOfTwo_iff.1 hn
  have hpos := Nat.two_pow_pos k
  have hk : k ≤ 64 := by
    by_contra hlt
    have hpow : 2 ^ 64 < 2 ^ k := Nat.pow_lt_pow_right (by decide) (not_le.mp hlt)
    rw [sizeMax] at hx
    omega
  have hsum : x + 2 ^ k - 1 ≤ sizeMax := by omega
  rw [ggmlPad, wrapSize_eq hsum, and_sub_two_pow hsum hk, padded]

theorem le_padded {x n : ℕ} (hn : 0 < n) : x ≤ padded x n := by
  have h := Nat.div_add_mod (x + n - 1) n
  have hlt := Nat.mod_lt (x + n - 1) hn
  rw [padded, Nat.mul_comm]
  omega

end RocmFpx
