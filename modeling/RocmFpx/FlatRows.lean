import Mathlib.Data.List.Basic

/-!
Tables stored flat, row after row. `rowAt data off width` is the row that starts at
`off`; where all rows have one width, the row `k` of a concatenation starts at `k * width`.
-/

namespace RocmFpx.FlatRows

variable {α β : Type*}

def rowAt (data : List β) (off width : ℕ) : List β := (data.drop off).take width

theorem rowAt_append_right (pre data : List β) (off width : ℕ) :
    rowAt (pre ++ data) (pre.length + off) width = rowAt data off width := by
  rw [rowAt, rowAt, List.drop_append, List.drop_of_length_le (by omega), List.nil_append,
    Nat.add_sub_cancel_left]

theorem rowAt_append_left {row : List β} (data : List β) :
    rowAt (row ++ data) 0 row.length = row := by
  rw [rowAt, List.drop_zero, List.take_left]

theorem rowAt_flatMap {f : α → List β} {width : ℕ} {xs : List α}
    (hf : ∀ x ∈ xs, (f x).length = width) {k : ℕ} {x : α} (hk : xs[k]? = some x) :
    rowAt (xs.flatMap f) (k * width) width = f x := by
  induction xs generalizing k with
  | nil => simp at hk
  | cons y ys ih =>
    have hy : (f y).length = width := hf y List.mem_cons_self
    rw [List.flatMap_cons]
    cases k with
    | zero =>
      obtain rfl : y = x := by simpa using hk
      rw [Nat.zero_mul, ← hy, rowAt_append_left]
    | succ k =>
      rw [Nat.succ_mul, Nat.add_comm, ← hy, rowAt_append_right, hy]
      exact ih (fun z hz => hf z (List.mem_cons_of_mem y hz)) (by simpa using hk)

theorem getElem?_rowAt {data : List β} {off width j : ℕ} (hj : j < width) :
    (rowAt data off width)[j]? = data[off + j]? := by
  rw [rowAt, List.getElem?_take_of_lt hj, List.getElem?_drop]

/-- Entry `j` of row `k`. -/
theorem getElem?_flatMap {f : α → List β} {width : ℕ} {xs : List α}
    (hf : ∀ x ∈ xs, (f x).length = width) {k j : ℕ} {x : α} (hk : xs[k]? = some x)
    (hj : j < width) : (xs.flatMap f)[k * width + j]? = (f x)[j]? := by
  rw [← getElem?_rowAt hj, rowAt_flatMap hf hk]

theorem flatMap_length {f : α → List β} {width : ℕ} {xs : List α}
    (hf : ∀ x ∈ xs, (f x).length = width) : (xs.flatMap f).length = xs.length * width := by
  rw [List.length_flatMap, List.map_congr_left hf, List.map_const', List.sum_replicate_nat]

theorem eq_flatMap {f : ℕ → List β} {width n : ℕ} {data : List β}
    (hlen : data.length = n * width) (hwidth : ∀ k < n, (f k).length = width)
    (hf : ∀ k < n, ∀ j < width, (f k)[j]? = data[k * width + j]?) :
    (List.range n).flatMap f = data := by
  have hf' : ∀ k ∈ List.range n, (f k).length = width := fun k hk => hwidth k (List.mem_range.mp hk)
  refine List.ext_getElem? fun i => ?_
  rcases Nat.lt_or_ge i (n * width) with hlt | hge
  · have hpos : 0 < width := Nat.pos_of_ne_zero fun h => by simp [h] at hlt
    have hrow : i / width < n := (Nat.div_lt_iff_lt_mul hpos).mpr hlt
    have hcol : i % width < width := Nat.mod_lt i hpos
    have hat := getElem?_flatMap hf' (List.getElem?_range hrow) hcol
    rw [hf _ hrow _ hcol, Nat.mul_comm, Nat.div_add_mod] at hat
    exact hat
  · rw [List.getElem?_eq_none (by rw [flatMap_length hf', List.length_range]; exact hge),
      List.getElem?_eq_none (by rw [hlen]; exact hge)]

end RocmFpx.FlatRows
