import Mathlib.Tactic

/-!
The sliding-window test of `llama_hparams`. Positions are exact integers; the
conversions of `n_swa` to `int32_t` and the unsigned division of the chunked
window are kept.
-/

namespace RocmFpx

inductive SwaType
  | none
  | standard
  | chunked
  | symmetric
  deriving DecidableEq, Repr

/-- The conversion of a `uint32_t` to `int32_t`. -/
def int32 (n : ℕ) : ℤ := (BitVec.ofNat 32 n).toInt

def isMaskedSwa (nSwa : ℕ) (swaType : SwaType) (p₀ p₁ : ℤ) : Bool :=
  match swaType with
  | .none => false
  | .standard => decide (p₁ - p₀ ≥ int32 nSwa)
  | .chunked =>
    let posChunkStart := p₁ / nSwa * nSwa
    decide (p₀ < posChunkStart)
  | .symmetric =>
    let halfNSwa := (int32 nSwa).tdiv 2
    let posDiff := p₁ - p₀
    decide (posDiff < -halfNSwa) || decide (posDiff > halfNSwa)

theorem isMaskedSwa_mono {nSwa : ℕ} {t : SwaType} {p p' q q' : ℤ} (hp : p' ≤ p) (hpq : p ≤ q)
    (hq : q ≤ q') (h : isMaskedSwa nSwa t p q = true) : isMaskedSwa nSwa t p' q' = true := by
  cases t with
  | none => exact h
  | standard =>
    simp only [isMaskedSwa, decide_eq_true_eq] at h ⊢
    omega
  | chunked =>
    simp only [isMaskedSwa, decide_eq_true_eq] at h ⊢
    have hstart : q / nSwa * nSwa ≤ q' / nSwa * nSwa := by
      rcases Nat.eq_zero_or_pos nSwa with h0 | h0
      · simp [h0]
      · exact Int.mul_le_mul_of_nonneg_right (Int.ediv_le_ediv (by omega) hq) (by omega)
    omega
  | symmetric =>
    simp only [isMaskedSwa, Bool.or_eq_true, decide_eq_true_eq] at h ⊢
    omega

end RocmFpx
