import Mathlib.Tactic

/-!
Dense little-endian bit streams: codes of `w` bits one after the other in a string of
bytes, low bits first. A string and its codes determine each other.
-/

namespace RocmFpx

/-- The first `n` bits of the bytes are those of the codes. -/
def Dense (w n : ℕ) (codes bytes : ℕ → BitVec 8) : Prop :=
  ∀ b < n, (bytes (b / 8)).getLsbD (b % 8) = (codes (b / w)).getLsbD (b % w)

def InWidth (w : ℕ) (code : BitVec 8) : Prop := code.toNat < 2 ^ w

instance (w : ℕ) (code : BitVec 8) : Decidable (InWidth w code) := Nat.decLt _ _

theorem InWidth.getLsbD {w : ℕ} {code : BitVec 8} (h : InWidth w code) {j : ℕ} (hj : w ≤ j) :
    code.getLsbD j = false := by
  exact Nat.testBit_lt_two_pow (h.trans_le (Nat.pow_le_pow_right two_pos hj))

theorem inWidth_of_getLsbD {w : ℕ} {code : BitVec 8}
    (h : ∀ j, w ≤ j → code.getLsbD j = false) : InWidth w code :=
  Nat.lt_pow_two_of_testBit code.toNat h

theorem InWidth.and {w : ℕ} {mask : BitVec 8} (h : InWidth w mask) (x : BitVec 8) :
    InWidth w (x &&& mask) := by
  rw [InWidth, BitVec.toNat_and]
  exact lt_of_le_of_lt Nat.and_le_right h

theorem InWidth.or {w : ℕ} {x y : BitVec 8} (hx : InWidth w x) (hy : InWidth w y) :
    InWidth w (x ||| y) := by
  rw [InWidth, BitVec.toNat_or]
  exact Nat.or_lt_two_pow hx hy

theorem InWidth.shiftLeft {v w s : ℕ} {x : BitVec 8} (h : InWidth v x) (hle : v + s ≤ w) :
    InWidth w (x <<< s) := by
  rw [InWidth, BitVec.toNat_shiftLeft, Nat.shiftLeft_eq]
  calc x.toNat * 2 ^ s % 2 ^ 8 ≤ x.toNat * 2 ^ s := Nat.mod_le _ _
    _ < 2 ^ v * 2 ^ s := Nat.mul_lt_mul_of_pos_right h (by positivity)
    _ = 2 ^ (v + s) := (pow_add 2 v s).symm
    _ ≤ 2 ^ w := Nat.pow_le_pow_right two_pos hle

namespace Dense

variable {w n k : ℕ} {codes codes' bytes bytes' : ℕ → BitVec 8}

/-- Groups of `k` codes that fill `m` bytes each. -/
theorem of_groups {m : ℕ} (hm : w * k = 8 * m) (hk : 0 < k) (hw : 0 < w)
    (h : ∀ g, w * k * g < n →
      Dense w (w * k) (fun j => codes (g * k + j)) (fun b => bytes (g * m + b))) :
    Dense w n codes bytes := by
  intro b hb
  have hpos : 0 < w * k := Nat.mul_pos hw hk
  have hrest := h (b / (w * k)) ((Nat.mul_div_le b (w * k)).trans_lt hb) (b % (w * k))
    (Nat.mod_lt _ hpos)
  have hsplit : b = w * k * (b / (w * k)) + b % (w * k) := (Nat.div_add_mod b (w * k)).symm
  have hbyte : b / 8 = b / (w * k) * m + b % (w * k) / 8 ∧ b % 8 = b % (w * k) % 8 := by
    have heq : b = 8 * (b / (w * k) * m) + b % (w * k) := by
      rw [hm] at hsplit ⊢
      linarith [mul_assoc 8 m (b / (8 * m)), mul_comm m (b / (8 * m))]
    exact ⟨by omega, by omega⟩
  have hcode : b / w = b / (w * k) * k + b % (w * k) / w ∧ b % w = b % (w * k) % w := by
    have heq : b = b % (w * k) + w * (b / (w * k) * k) := by
      linarith [mul_assoc w k (b / (w * k)), mul_comm k (b / (w * k))]
    constructor
    · conv_lhs => rw [heq]
      rw [Nat.add_mul_div_left _ _ hw, add_comm]
    · conv_lhs => rw [heq]
      rw [Nat.add_mul_mod_self_left]
  rw [hbyte.1, hbyte.2, hcode.1, hcode.2]
  exact hrest

theorem codes_eq (h : Dense w (w * k) codes bytes) (h' : Dense w (w * k) codes' bytes)
    (hcodes : ∀ i < k, InWidth w (codes i)) (hcodes' : ∀ i < k, InWidth w (codes' i)) :
    ∀ i < k, codes i = codes' i := by
  intro i hi
  refine BitVec.eq_of_getLsbD_eq fun j _ => ?_
  rcases Nat.lt_or_ge j w with hlt | hge
  · have hb : w * i + j < w * k := by
      have hle : w * (i + 1) ≤ w * k := Nat.mul_le_mul_left w hi
      rw [Nat.mul_succ] at hle
      omega
    have hdiv : (w * i + j) / w = i := by
      rw [Nat.mul_add_div (by omega), Nat.div_eq_of_lt hlt, add_zero]
    have hmod : (w * i + j) % w = j := by
      rw [Nat.mul_add_mod, Nat.mod_eq_of_lt hlt]
    have hsame := (h _ hb).symm.trans (h' _ hb)
    rwa [hdiv, hmod] at hsame
  · rw [(hcodes i hi).getLsbD hge, (hcodes' i hi).getLsbD hge]

theorem bytes_eq (h : Dense w (8 * k) codes bytes) (h' : Dense w (8 * k) codes bytes') :
    ∀ i < k, bytes i = bytes' i := by
  intro i hi
  refine BitVec.eq_of_getLsbD_eq fun j hj => ?_
  have hdiv : (8 * i + j) / 8 = i := by omega
  have hmod : (8 * i + j) % 8 = j := by omega
  have hsame := (h (8 * i + j) (by omega)).trans (h' (8 * i + j) (by omega)).symm
  rwa [hdiv, hmod] at hsame

theorem congr_bytes (h : Dense w (8 * k) codes bytes) (hbytes : ∀ i < k, bytes i = bytes' i) :
    Dense w (8 * k) codes bytes' := by
  intro b hb
  rw [← h b hb, hbytes (b / 8) (Nat.div_lt_of_lt_mul hb)]

end Dense

/-! ## A pair of routines that read and write such streams -/

/-- Both routines agree with the stream, so each undoes the other. -/
structure DensePacking (w k m : ℕ) (pack unpack : (ℕ → BitVec 8) → ℕ → BitVec 8) : Prop where
  size : w * k = 8 * m
  packs : ∀ codes, (∀ i < k, InWidth w (codes i)) → Dense w (w * k) codes (pack codes)
  unpacks : ∀ bytes, Dense w (w * k) (unpack bytes) bytes
  inWidth : ∀ bytes, ∀ i < k, InWidth w (unpack bytes i)

namespace DensePacking

variable {w k m : ℕ} {pack unpack : (ℕ → BitVec 8) → ℕ → BitVec 8}

theorem unpack_pack (h : DensePacking w k m pack unpack) {codes : ℕ → BitVec 8}
    (hcodes : ∀ i < k, InWidth w (codes i)) : ∀ i < k, unpack (pack codes) i = codes i :=
  (h.unpacks (pack codes)).codes_eq (h.packs codes hcodes) (h.inWidth (pack codes)) hcodes

theorem pack_unpack (h : DensePacking w k m pack unpack) (bytes : ℕ → BitVec 8) :
    ∀ i < m, pack (unpack bytes) i = bytes i := by
  have hpack := h.packs (unpack bytes) (h.inWidth bytes)
  have hunpack := h.unpacks bytes
  rw [h.size] at hpack hunpack
  exact hpack.bytes_eq hunpack

theorem unpack_congr (h : DensePacking w k m pack unpack) {bytes bytes' : ℕ → BitVec 8}
    (hbytes : ∀ b < m, bytes b = bytes' b) : ∀ i < k, unpack bytes i = unpack bytes' i := by
  have hunpack := h.unpacks bytes
  rw [h.size] at hunpack
  have hsame := hunpack.congr_bytes hbytes
  rw [← h.size] at hsame
  exact hsame.codes_eq (h.unpacks bytes') (h.inWidth bytes) (h.inWidth bytes')

end DensePacking
end RocmFpx
