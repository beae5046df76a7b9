import Mathlib.Computability.Language
import RocmFpx.LeftmostGrammar

/-!
Repetition of a language a number of times in a range, and the context-free rules that express it.
-/

namespace RocmFpx

open scoped Computability

namespace Ebnf

variable {ν τ : Type*}

/-! ## Repetition -/

/-- The concatenations of `k` words for `k` in a range. -/
def reps (L : Language τ) (min : ℕ) (max : Option ℕ) : Language τ :=
  {w | ∃ k, min ≤ k ∧ (∀ n ∈ max, k ≤ n) ∧ w ∈ L ^ k}

variable {L : Language τ} {w : List τ} {m n k : ℕ} {max : Option ℕ}

theorem mem_reps : w ∈ reps L m max ↔ ∃ k, m ≤ k ∧ (∀ n ∈ max, k ≤ n) ∧ w ∈ L ^ k := Iff.rfl

theorem reps_unbounded (L : Language τ) : reps L 0 none = L∗ := by
  ext w
  rw [Language.kstar_eq_iSup_pow, Language.mem_iSup, mem_reps]
  simp

theorem reps_zero (L : Language τ) : reps L 0 (some 0) = 1 := by
  ext w
  rw [mem_reps]
  constructor
  · rintro ⟨k, -, hk, hw⟩
    obtain rfl := Nat.le_zero.mp (hk 0 rfl)
    rwa [pow_zero] at hw
  · intro hw
    exact ⟨0, le_rfl, fun n hn => Nat.zero_le n, by rwa [pow_zero]⟩

theorem pow_mul_reps (L : Language τ) (m k : ℕ) (max : Option ℕ) :
    L ^ m * reps L k max = reps L (m + k) (max.map (m + ·)) := by
  ext w
  rw [Language.mem_mul, mem_reps]
  constructor
  · rintro ⟨u, hu, v, ⟨i, hi, himax, hv⟩, rfl⟩
    refine ⟨m + i, Nat.add_le_add_left hi m, fun n hn => ?_, ?_⟩
    · obtain ⟨x, hx, rfl⟩ := Option.map_eq_some_iff.mp hn
      exact Nat.add_le_add_left (himax x hx) m
    · rw [pow_add]
      exact Language.append_mem_mul hu hv
  · rintro ⟨i, hi, himax, hw⟩
    obtain ⟨j, rfl⟩ := Nat.exists_eq_add_of_le ((Nat.le_add_right m k).trans hi)
    rw [pow_add] at hw
    obtain ⟨u, hu, v, hv, rfl⟩ := Language.mem_mul.mp hw
    refine ⟨u, hu, v, ⟨j, Nat.add_le_add_iff_left.mp hi, fun n hn => ?_, hv⟩, rfl⟩
    exact Nat.add_le_add_iff_left.mp (himax (m + n) (Option.map_eq_some_iff.mpr ⟨n, hn, rfl⟩))

theorem reps_succ (L : Language τ) (k : ℕ) :
    reps L 0 (some (k + 1)) = L * reps L 0 (some k) + 1 := by
  ext w
  have hmul := pow_mul_reps L 1 0 (some k)
  rw [pow_one] at hmul
  rw [hmul, Language.mem_add, mem_reps, mem_reps, Language.mem_one]
  constructor
  · rintro ⟨i, -, hi, hw⟩
    cases i with
    | zero => exact Or.inr (by rwa [pow_zero] at hw)
    | succ i =>
      refine Or.inl ⟨i + 1, by omega, fun n hn => ?_, hw⟩
      obtain rfl := Option.some.inj hn
      have hle : i + 1 ≤ k + 1 := hi (k + 1) rfl
      simp only
      omega
  · rintro (⟨i, -, hi, hw⟩ | rfl)
    · refine ⟨i, Nat.zero_le i, fun n hn => ?_, hw⟩
      obtain rfl := Option.some.inj hn
      have : i ≤ 1 + k := hi (1 + k) rfl
      omega
    · exact ⟨0, le_rfl, fun n hn => Nat.zero_le n, by rw [pow_zero]; rfl⟩

theorem reps_of_zero (hm : 0 < m) : reps (0 : Language τ) m max = 0 := by
  ext w
  rw [mem_reps]
  refine ⟨fun ⟨k, hk, _, hw⟩ => ?_, fun h => absurd h (Language.notMem_zero w)⟩
  rwa [zero_pow (by omega)] at hw

theorem pow_nonempty (h : w ∈ L) (k : ℕ) : ∃ v, v ∈ L ^ k := by
  induction k with
  | zero => exact ⟨[], by rw [pow_zero]; rfl⟩
  | succ k ih =>
    obtain ⟨v, hv⟩ := ih
    exact ⟨v ++ w, by rw [pow_succ]; exact Language.append_mem_mul hv h⟩

end Ebnf

namespace Sym

variable {ν τ : Type*}

/-! ## Repetition by context-free rules -/

/-- What a form derives. -/
def formLang (alts : ν → Set (List (Sym ν τ))) (α : List (Sym ν τ)) : Language τ :=
  {w | Derives alts α w}

variable {alts : ν → Set (List (Sym ν τ))} {α β : List (Sym ν τ)} {w : List τ} {r : ν} {S : Set τ}

theorem mem_formLang : w ∈ formLang alts α ↔ Derives alts α w := Iff.rfl

theorem formLang_nil : formLang alts [] = 1 := by
  ext w
  rw [mem_formLang, Language.mem_one]
  constructor
  · rintro ⟨⟩
    rfl
  · rintro rfl
    exact .nil

theorem formLang_append (alts : ν → Set (List (Sym ν τ))) (α β : List (Sym ν τ)) :
    formLang alts (α ++ β) = formLang alts α * formLang alts β := by
  ext w
  rw [mem_formLang, derives_append_iff, Language.mem_mul]
  constructor
  · rintro ⟨u, v, rfl, hu, hv⟩
    exact ⟨u, hu, v, hv, rfl⟩
  · rintro ⟨u, hu, v, hv, rfl⟩
    exact ⟨u, v, rfl, hu, hv⟩

theorem mem_formLang_ref : w ∈ formLang alts [.ref r] ↔ ∃ α ∈ alts r, w ∈ formLang alts α :=
  derives_ref_iff

theorem formLang_pow (alts : ν → Set (List (Sym ν τ))) (α : List (Sym ν τ)) (k : ℕ) :
    formLang alts (List.replicate k α).flatten = formLang alts α ^ k := by
  induction k with
  | zero => rw [List.replicate_zero, List.flatten_nil, pow_zero, formLang_nil]
  | succ k ih => rw [List.replicate_succ, List.flatten_cons, formLang_append, ih, pow_succ']

/-- `r ::= α β |`. -/
theorem formLang_optional (h : alts r = {α ++ β, []}) :
    formLang alts [.ref r] = formLang alts α * formLang alts β + 1 := by
  ext w
  have hnil : w ∈ (1 : Language τ) ↔ w ∈ formLang alts [] := by rw [formLang_nil]
  rw [mem_formLang_ref, h, Language.mem_add, ← formLang_append, hnil]
  simp

theorem formLang_star (h : alts r = {α ++ [.ref r], []}) :
    formLang alts [.ref r] = (formLang alts α)∗ := by
  have hsplit : ∀ β w, Derives alts β w → ∀ γ, β = γ ++ [.ref r] →
      w ∈ formLang alts γ * (formLang alts α)∗ := by
    intro β w hd
    induction hd with
    | nil => intro γ hγ; simp at hγ
    | @terminal S c β w hc _ ih =>
      intro γ hγ
      cases γ with
      | nil => simp at hγ
      | cons x γ =>
        obtain ⟨rfl, hβ⟩ := List.cons.inj hγ
        obtain ⟨u, hu, v, hv, rfl⟩ := Language.mem_mul.mp (ih γ hβ)
        exact Language.append_mem_mul (a := c :: u) (.terminal hc hu) hv
    | @ref r' δ β u v hδ hu hv ihu ihv =>
      intro γ hγ
      cases γ with
      | nil =>
        obtain ⟨hr, rfl⟩ := List.cons.inj hγ
        obtain rfl := Sym.ref.inj hr
        cases hv
        rw [List.append_nil, formLang_nil, one_mul]
        rw [h] at hδ
        obtain rfl | hempty := hδ
        · rw [← Language.one_add_self_mul_kstar_eq_kstar]
          exact Or.inr (ihu α rfl)
        · rw [Set.mem_singleton_iff.mp hempty] at hu
          cases hu
          exact Language.nil_mem_kstar _
      | cons x γ =>
        obtain ⟨rfl, hβ⟩ := List.cons.inj hγ
        obtain ⟨y, hy, z, hz, rfl⟩ := Language.mem_mul.mp (ihv γ hβ)
        rw [← List.append_assoc]
        exact Language.append_mem_mul (a := u ++ y) (.ref hδ hu hy) hz
  apply le_antisymm
  · intro w hw
    have := hsplit _ w hw [] rfl
    rwa [formLang_nil, one_mul] at this
  · rw [Language.kstar_eq_iSup_pow]
    refine iSup_le fun k => ?_
    have hopt := formLang_optional h
    induction k with
    | zero =>
      rw [pow_zero, hopt]
      exact fun w hw => Or.inr hw
    | succ k ih =>
      rw [hopt, pow_succ']
      exact fun w hw => Or.inl (mul_le_mul_right ih _ hw)

end Sym

end RocmFpx
