import Mathlib.Data.List.Sort
import Mathlib.Tactic

/-!
A partial sort in descending order, and which entries its front holds: those with fewer
than `k` entries above them. The same entries come out of any pool cut from below that
keeps at least `k` of them.
-/

namespace RocmFpx

variable {α : Type*} [LinearOrder α]

/-- `std::nth_element` under `std::greater`: any rearrangement whose first `n` entries are
none below a later one. -/
structure NthElement (α : Type*) [LinearOrder α] where
  run : ℕ → List α → List α
  perm : ∀ n xs, (run n xs).Perm xs
  split : ∀ n xs, ∀ a ∈ (run n xs).take n, ∀ b ∈ (run n xs).drop n, b ≤ a

namespace NthElement

/-- A full sort is one of them. -/
def sorting (α : Type*) [LinearOrder α] : NthElement α where
  run _ xs := xs.insertionSort (· ≥ ·)
  perm _ xs := List.perm_insertionSort (· ≥ ·) xs
  split n xs a ha b hb := by
    have hsorted := List.pairwise_insertionSort (· ≥ ·) xs
    rw [← List.take_append_drop n (xs.insertionSort (· ≥ ·)), List.pairwise_append] at hsorted
    exact hsorted.2.2 a ha b hb

/-- The entries of `xs` above `a`. -/
def above (xs : List α) (a : α) : List α := xs.filter (a < ·)

theorem mem_take_iff {xs ys : List α} {k : ℕ} (hnodup : xs.Nodup) (hperm : ys.Perm xs)
    (hsplit : ∀ a ∈ ys.take k, ∀ b ∈ ys.drop k, b ≤ a) (a : α) :
    a ∈ ys.take k ↔ a ∈ xs ∧ (above xs a).length < k := by
  have hys : (ys.take k ++ ys.drop k).Nodup := by
    rw [List.take_append_drop]
    exact hperm.nodup_iff.mpr hnodup
  have hcount : (above xs a).length =
      (above (ys.take k) a).length + (above (ys.drop k) a).length := by
    rw [← List.length_append, above, above, above, ← List.filter_append,
      List.take_append_drop]
    exact (hperm.symm.filter _).length_eq
  have htake : (ys.take k).length ≤ k := List.length_take_le k ys
  constructor
  · intro ha
    refine ⟨hperm.mem_iff.mp (List.mem_of_mem_take ha), ?_⟩
    have hdrop : above (ys.drop k) a = [] :=
      List.filter_eq_nil_iff.mpr fun b hb => by simpa using hsplit a ha b hb
    have hfewer : (above (ys.take k) a).length < (ys.take k).length :=
      List.length_filter_lt_length_iff_exists.mpr ⟨a, ha, by simp⟩
    rw [hcount, hdrop, List.length_nil]
    omega
  · rintro ⟨ha, hfew⟩
    by_contra hnot
    have hin : a ∈ ys.drop k := by
      have hmem : a ∈ ys.take k ++ ys.drop k := by
        rw [List.take_append_drop]
        exact hperm.mem_iff.mpr ha
      exact (List.mem_append.mp hmem).resolve_left hnot
    have hlen : (ys.take k).length = k := by
      have hpos := List.length_pos_of_mem hin
      rw [List.length_drop] at hpos
      rw [List.length_take]
      omega
    have hall : above (ys.take k) a = ys.take k := by
      refine List.filter_eq_self.mpr fun b hb => ?_
      have hne : a ≠ b := fun heq => hnot (heq ▸ hb)
      exact decide_eq_true (lt_of_le_of_ne (hsplit b hb a hin) hne)
    rw [hcount, hall, hlen] at hfew
    omega

theorem above_cut {xs : List α} {k : ℕ} {cutoff : α}
    (hleft : k ≤ (xs.filter (cutoff ≤ ·)).length) (a : α) :
    (a ∈ xs.filter (cutoff ≤ ·) ∧ (above (xs.filter (cutoff ≤ ·)) a).length < k) ↔
      a ∈ xs ∧ (above xs a).length < k := by
  have hsame : cutoff ≤ a → above (xs.filter (cutoff ≤ ·)) a = above xs a := by
    intro hle
    rw [above, List.filter_filter]
    refine List.filter_congr fun b _ => ?_
    have himp : a < b → cutoff ≤ b := fun hlt => hle.trans hlt.le
    by_cases hlt : a < b <;> simp [hlt, himp]
  constructor
  · rintro ⟨hmem, hfew⟩
    have hle : cutoff ≤ a := by simpa using (List.mem_filter.mp hmem).2
    rw [hsame hle] at hfew
    exact ⟨(List.mem_filter.mp hmem).1, hfew⟩
  · rintro ⟨hmem, hfew⟩
    by_cases hle : cutoff ≤ a
    · rw [hsame hle]
      exact ⟨List.mem_filter.mpr ⟨hmem, decide_eq_true hle⟩, hfew⟩
    · have hsub : (xs.filter (cutoff ≤ ·)).Sublist (above xs a) := by
        refine List.monotone_filter_right xs fun b hb => ?_
        have hb' : cutoff ≤ b := by simpa using hb
        exact decide_eq_true (lt_of_lt_of_le (not_le.mp hle) hb')
      have hcard := hsub.length_le
      omega

/-- The first `k` entries after a partial sort of the pool, made only where the pool has
more than `k`. -/
def front (nth : NthElement α) (k : ℕ) (pool : List α) : List α :=
  if k < pool.length then nth.run k pool else pool

theorem front_perm (nth : NthElement α) (k : ℕ) (pool : List α) :
    (nth.front k pool).Perm pool := by
  unfold front
  split_ifs
  · exact nth.perm k pool
  · exact List.Perm.refl pool

theorem front_split (nth : NthElement α) (k : ℕ) (pool : List α) :
    ∀ a ∈ (nth.front k pool).take k, ∀ b ∈ (nth.front k pool).drop k, b ≤ a := by
  unfold front
  split_ifs with hmore
  · exact nth.split k pool
  · intro a _ b hb
    rw [List.drop_of_length_le (not_lt.mp hmore)] at hb
    exact absurd hb List.not_mem_nil

theorem mem_front_take (nth : NthElement α) {k : ℕ} {pool : List α} (hnodup : pool.Nodup)
    (a : α) :
    a ∈ (nth.front k pool).take k ↔ a ∈ pool ∧ (above pool a).length < k :=
  mem_take_iff hnodup (nth.front_perm k pool) (nth.front_split k pool) a

theorem front_take_length (nth : NthElement α) {k : ℕ} {pool : List α} (hk : k ≤ pool.length) :
    ((nth.front k pool).take k).length = k := by
  rw [List.length_take, (nth.front_perm k pool).length_eq]
  omega

theorem front_take_nodup (nth : NthElement α) {k : ℕ} {pool : List α} (hnodup : pool.Nodup) :
    ((nth.front k pool).take k).Nodup :=
  ((nth.front_perm k pool).nodup_iff.mpr hnodup).sublist (List.take_sublist k _)

end NthElement
end RocmFpx
