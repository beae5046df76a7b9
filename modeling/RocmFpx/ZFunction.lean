import Mathlib.Data.Nat.Basic
import Mathlib.Order.Basic

/-!
How far a sequence agrees with itself behind a shift, over its first `N` elements: the Z-function,
and what a stretch of agreement that is known already says about later shifts.
-/

namespace RocmFpx
namespace ZFunction

variable {α : Type} {f : ℕ → α} {N k m n p : ℕ}

/-- The first `n` elements are found again behind the shift `k`. -/
def Agree (f : ℕ → α) (k n : ℕ) : Prop := ∀ j < n, f j = f (j + k)

/-- The sequence agrees with itself behind the shift for exactly `n` elements. -/
structure IsZ (f : ℕ → α) (N k n : ℕ) : Prop where
  agree : Agree f k n
  le : n + k ≤ N
  stop : n + k < N → f n ≠ f (n + k)

theorem agree_zero (f : ℕ → α) (k : ℕ) : Agree f k 0 := fun _ hj => absurd hj (Nat.not_lt_zero _)

theorem Agree.mono (h : Agree f k n) (hle : m ≤ n) : Agree f k m :=
  fun j hj => h j (Nat.lt_of_lt_of_le hj hle)

theorem Agree.succ (h : Agree f k n) (hnext : f n = f (n + k)) : Agree f k (n + 1) := by
  intro j hj
  rcases Nat.lt_succ_iff_lt_or_eq.mp hj with hj | rfl
  · exact h j hj
  · exact hnext

theorem IsZ.of_agree (h : IsZ f N k n) (hm : Agree f k m) (hle : m + k ≤ N) : m ≤ n := by
  by_contra hlt
  have hlt := Nat.lt_of_not_le hlt
  exact h.stop (by omega) (hm n hlt)

theorem IsZ.unique (h : IsZ f N k n) (h' : IsZ f N k m) : n = m :=
  Nat.le_antisymm (h'.of_agree h.agree h.le) (h.of_agree h'.agree h'.le)

/-! ## The scan -/

section
variable [DecidableEq α]

/-- Elements are compared from the `n`-th on, as long as they agree. -/
def scan (f : ℕ → α) (N k : ℕ) : ℕ → ℕ → ℕ
  | 0, n => n
  | fuel + 1, n => if n + k < N ∧ f n = f (n + k) then scan f N k fuel (n + 1) else n

theorem scan_isZ {fuel : ℕ} (h : Agree f k n) (hle : n + k ≤ N) (hfuel : N ≤ fuel + (n + k)) :
    IsZ f N k (scan f N k fuel n) := by
  induction fuel generalizing n with
  | zero =>
    refine ⟨h, hle, fun hlt => ?_⟩
    rw [scan] at hlt
    omega
  | succ fuel ih =>
    rw [scan]
    split_ifs with hnext
    · exact ih (h.succ hnext.2) (by omega) (by omega)
    · exact ⟨h, hle, fun hlt heq => hnext ⟨hlt, heq⟩⟩

end

/-! ## Inside a stretch of agreement -/

/-- What agrees behind `p` agrees behind `p + k` too, within a stretch that agrees behind `k`. -/
theorem Agree.inside (hbox : Agree f k m) (hp : Agree f p n) (hle : n + p ≤ m) :
    Agree f (p + k) n := by
  intro j hj
  rw [hp j hj, hbox (j + p) (by omega), Nat.add_assoc]

theorem IsZ.inside (hbox : Agree f k m) (hm : m + k ≤ N) (hp : IsZ f N p n) (hlt : n + p < m) :
    IsZ f N (p + k) n := by
  refine ⟨hbox.inside hp.agree hlt.le, by omega, fun _ heq => hp.stop (by omega) ?_⟩
  rw [heq, hbox (n + p) hlt, Nat.add_assoc]

theorem min_inside {c l : ℕ} (hbox : Agree f k m) (hm : m + k ≤ N) (hp : IsZ f N p n)
    (hl : IsZ f N (p + k) l) (hlt : min n c + p < m) : min l c = min n c := by
  by_cases hn : n + p < m
  · rw [hl.unique (hp.inside hbox hm hn)]
  · -- the limit is within the stretch, and the agreement reaches it on both sides
    have hc : c + p < m := by omega
    have hlong : Agree f (p + k) (c + 1) := hbox.inside (hp.agree.mono (by omega)) (by omega)
    have hle := hl.of_agree hlong (by omega)
    rw [Nat.min_eq_right (by omega), Nat.min_eq_right (by omega)]

end ZFunction
end RocmFpx
