import Mathlib.Algebra.Order.Field.Basic
import Mathlib.Data.List.FinRange

/-!
One-dimensional tensors and the operations of a compute graph on them. Rows are gathered and
scattered by index; scattered rows are written in any order, which matters only where an index
occurs twice with different rows.
-/

namespace RocmFpx.TensorRows

variable {K : Type*} {n m : ℕ}

section Pointwise

variable [Field K] [LinearOrder K]

/-- `ggml_step`. -/
def step (a : Fin n → K) : Fin n → K := fun i => if 0 < a i then 1 else 0

def fill (c : K) : Fin n → K := fun _ => c

def add (a b : Fin n → K) : Fin n → K := fun i => a i + b i

def sub (a b : Fin n → K) : Fin n → K := fun i => a i - b i

def mul (a b : Fin n → K) : Fin n → K := fun i => a i * b i

def scale (a : Fin n → K) (s : K) : Fin n → K := fun i => a i * s

end Pointwise

/-- `ggml_get_rows`. -/
def getRows (rows : Fin n → K) (ids : Fin m → Fin n) : Fin m → K := fun k => rows (ids k)

/-- `ggml_set_rows`, with the order in which the rows are written. -/
def setRows (order : Equiv.Perm (Fin m)) (rows : Fin n → K) (src : Fin m → K)
    (ids : Fin m → Fin n) : Fin n → K :=
  ((List.finRange m).map order).foldl (fun rows k => Function.update rows (ids k) (src k)) rows

theorem foldl_update_eq (rows : Fin n → K) {src : Fin m → K} {ids : Fin m → Fin n} {f : Fin n → K}
    (h : ∀ k, src k = f (ids k)) (ks : List (Fin m)) (i : Fin n) :
    ks.foldl (fun rows k => Function.update rows (ids k) (src k)) rows i =
      if i ∈ ks.map ids then f i else rows i := by
  induction ks generalizing rows with
  | nil => rfl
  | cons k ks ih =>
    rw [List.foldl_cons, ih]
    simp only [List.map_cons, List.mem_cons]
    by_cases hk : i = ids k
    · rw [hk, Function.update_self, h k]
      simp
    · rw [Function.update_of_ne hk]
      simp only [hk, false_or]

/-- Rows that agree wherever an index is repeated can be written in any order. -/
theorem setRows_eq (order : Equiv.Perm (Fin m)) (rows : Fin n → K) {src : Fin m → K}
    {ids : Fin m → Fin n} {f : Fin n → K} (h : ∀ k, src k = f (ids k)) (i : Fin n) :
    setRows order rows src ids i = if ∃ k, ids k = i then f i else rows i := by
  rw [setRows, foldl_update_eq rows h]
  refine if_congr ?_ rfl rfl
  simp only [List.map_map, List.mem_map, List.mem_finRange, true_and, Function.comp_apply]
  constructor
  · rintro ⟨k, hk⟩
    exact ⟨order k, hk⟩
  · rintro ⟨k, hk⟩
    exact ⟨order.symm k, by rw [order.apply_symm_apply, hk]⟩

end RocmFpx.TensorRows
