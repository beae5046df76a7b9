import Mathlib.Algebra.BigOperators.Group.List.Basic
import Mathlib.Algebra.Ring.Nat

/-!
Tables of rows laid out one group behind another. Each key has a group of rows that is not empty,
and the offset of its group names the key.
-/

namespace RocmFpx
namespace OffsetTable

variable {α β : Type*} [DecidableEq α]

/-- Where the group of a key begins. -/
def offset (size : α → ℕ) : List α → α → ℕ
  | [], _ => 0
  | x :: xs, a => if x = a then 0 else size x + offset size xs a

variable {size : α → ℕ} {xs ys : List α} {a b : α}

theorem offset_self (x : α) (xs : List α) : offset size (x :: xs) x = 0 := if_pos rfl

theorem offset_append_self (h : a ∉ xs) :
    offset size (xs ++ a :: ys) a = (xs.map size).sum := by
  induction xs with
  | nil => exact offset_self a ys
  | cons x xs ih =>
    rw [List.mem_cons, not_or] at h
    rw [List.cons_append, offset, if_neg fun hx => h.1 hx.symm, ih h.2, List.map_cons,
      List.sum_cons]

theorem drop_offset {rows : α → List β} (hsize : ∀ x ∈ xs, (rows x).length = size x)
    (h : a ∈ xs) : ∃ rest, (xs.flatMap rows).drop (offset size xs a) = rows a ++ rest := by
  induction xs with
  | nil => cases h
  | cons x xs ih =>
    rw [List.flatMap_cons, offset]
    split_ifs with hx
    · exact ⟨xs.flatMap rows, by rw [List.drop_zero, hx]⟩
    · rw [← hsize x List.mem_cons_self, List.drop_length_add_append]
      exact ih (fun y hy => hsize y (List.mem_cons_of_mem x hy))
        ((List.mem_cons.mp h).resolve_left fun ha => hx ha.symm)

theorem offset_inj (hpos : ∀ x, 0 < size x) (ha : a ∈ xs) (hb : b ∈ xs)
    (h : offset size xs a = offset size xs b) : a = b := by
  induction xs with
  | nil => cases ha
  | cons x xs ih =>
    have hx := hpos x
    rw [offset, offset] at h
    split_ifs at h with hxa hxb hxb
    · exact hxa.symm.trans hxb
    · omega
    · omega
    · exact ih ((List.mem_cons.mp ha).resolve_left fun ha => hxa ha.symm)
        ((List.mem_cons.mp hb).resolve_left fun hb => hxb hb.symm) (Nat.add_left_cancel h)

theorem offset_pos (hpos : ∀ x, 0 < size x) {x : α} (h : x ≠ a) :
    0 < offset size (x :: xs) a := by
  rw [offset, if_neg h]
  exact Nat.add_pos_left (hpos x) _

end OffsetTable
end RocmFpx
