import Mathlib.Data.List.MinMax
import Mathlib.Data.Prod.Lex

/-!
A scan that keeps the entry of least error, and of least rank among those: it is the
`argmin` of the two in lexicographic order.
-/

namespace RocmFpx

variable {α β : Type*} [LinearOrder α] {err : β → α} {rank : β → ℕ}

/-- The loop with its flag for "nothing held yet". -/
def scanBest (err : β → α) (rank : β → ℕ) (entries : List β) : Option β :=
  entries.foldl (fun best b =>
    match best with
    | none => some b
    | some a => if err b < err a ∨ err b = err a ∧ rank b < rank a then some b else some a) none

theorem scanBest_eq_argmin (entries : List β) :
    scanBest err rank entries = entries.argmin fun b => toLex (err b, rank b) := by
  unfold scanBest List.argmin
  congr 1
  funext best b
  cases best with
  | none => rfl
  | some a =>
    simp only [List.argAux, Prod.Lex.toLex_lt_toLex]

theorem scanBest_isSome {entries : List β} (h : entries ≠ []) :
    ∃ a, scanBest err rank entries = some a := by
  rw [scanBest_eq_argmin]
  refine Option.ne_none_iff_exists'.mp fun hnone => h ?_
  exact List.argmin_eq_none.mp hnone

theorem scanBest_spec {entries : List β} {a : β} (h : scanBest err rank entries = some a) :
    a ∈ entries ∧ ∀ b ∈ entries, err a < err b ∨ err a = err b ∧ rank a ≤ rank b := by
  rw [scanBest_eq_argmin] at h
  refine ⟨List.argmin_mem h, fun b hb => ?_⟩
  have hle := List.le_of_mem_argmin hb h
  exact Prod.Lex.toLex_le_toLex.mp hle

theorem scanBest_eq_some {entries : List β} {a : β} (ha : a ∈ entries)
    (hbest : ∀ b ∈ entries, b ≠ a → err a < err b ∨ err a = err b ∧ rank a < rank b) :
    scanBest err rank entries = some a := by
  obtain ⟨c, hc⟩ : ∃ c, scanBest err rank entries = some c :=
    scanBest_isSome (List.ne_nil_of_mem ha)
  rw [hc]
  by_contra hne
  obtain ⟨hmem, hleast⟩ := scanBest_spec hc
  rcases hbest c hmem fun heq => hne (by rw [heq]) with hlt | ⟨heq, hlt⟩
  · rcases hleast a ha with hlt' | ⟨heq', -⟩
    · exact absurd hlt hlt'.not_gt
    · exact absurd heq' hlt.ne'
  · rcases hleast a ha with hlt' | ⟨-, hle⟩
    · exact absurd heq hlt'.ne'
    · exact absurd hlt (not_lt_of_ge hle)

end RocmFpx
