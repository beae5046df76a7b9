import Mathlib.Tactic

/-!
Loops whose body rewrites one slot of a table at a time. `view` reads the table
out of the loop's state; `Pointwise` says that iteration `k` replaces the entry at
`slot k` by `effect k` of it and leaves every other entry alone.
-/

namespace RocmFpx.PointwiseLoop

variable {σ κ ι α : Type*} [DecidableEq ι]

def Pointwise (view : σ → ι → α) (step : σ → κ → σ) (slot : κ → ι) (effect : κ → α → α) : Prop :=
  ∀ s k, view (step s k) = Function.update (view s) (slot k) (effect k (view s (slot k)))

variable {view : σ → ι → α} {step : σ → κ → σ} {slot : κ → ι} {effect : κ → α → α}

theorem Pointwise.at_slot (h : Pointwise view step slot effect) (s : σ) (k : κ) :
    view (step s k) (slot k) = effect k (view s (slot k)) := by
  rw [h, Function.update_self]

theorem Pointwise.elsewhere (h : Pointwise view step slot effect) (s : σ) {k : κ} {i : ι}
    (hi : i ≠ slot k) : view (step s k) i = view s i := by
  rw [h, Function.update_of_ne hi]

theorem Pointwise.foldl_of_notMem (h : Pointwise view step slot effect) (ks : List κ) (s : σ)
    {i : ι} (hi : i ∉ ks.map slot) : view (ks.foldl step s) i = view s i := by
  induction ks generalizing s with
  | nil => rfl
  | cons k ks ih =>
    rw [List.map_cons, List.mem_cons, not_or] at hi
    rw [List.foldl_cons, ih _ hi.2, h.elsewhere s hi.1]

theorem Pointwise.foldl_of_mem (h : Pointwise view step slot effect) {ks : List κ}
    (distinct : (ks.map slot).Nodup) (s : σ) {k : κ} (hk : k ∈ ks) :
    view (ks.foldl step s) (slot k) = effect k (view s (slot k)) := by
  induction ks generalizing s with
  | nil => exact absurd hk List.not_mem_nil
  | cons l ks ih =>
    rw [List.map_cons, List.nodup_cons] at distinct
    rw [List.foldl_cons]
    rcases List.mem_cons.mp hk with rfl | hk
    · rw [h.foldl_of_notMem ks _ distinct.1, h.at_slot]
    · have hne : slot k ≠ slot l := fun heq => distinct.1 (heq ▸ List.mem_map_of_mem hk)
      rw [ih distinct.2 _ hk, h.elsewhere s hne]

theorem Pointwise.foldl_last (h : Pointwise view step slot effect)
    (forget : ∀ j k a, effect k (effect j a) = effect k a) (js ks : List κ) (s : σ) {k : κ}
    (hk : slot k ∉ ks.map slot) :
    view ((js ++ k :: ks).foldl step s) (slot k) = effect k (view s (slot k)) := by
  have before : ∀ (js : List κ) (s : σ),
      effect k (view (js.foldl step s) (slot k)) = effect k (view s (slot k)) := by
    intro js
    induction js with
    | nil => exact fun s => rfl
    | cons j js ih =>
      intro s
      rw [List.foldl_cons, ih]
      by_cases hj : slot k = slot j
      · rw [hj, h.at_slot, forget]
      · rw [h.elsewhere s hj]
  rw [List.foldl_append, List.foldl_cons, h.foldl_of_notMem ks _ hk, h.at_slot, before]

theorem Pointwise.foldl_range_last {slot : ℕ → ι} {effect : ℕ → α → α} {step : σ → ℕ → σ}
    (h : Pointwise view step slot effect) (forget : ∀ j k a, effect k (effect j a) = effect k a)
    {n : ℕ} (s : σ) {j : ℕ} (hj : j < n) (hlast : ∀ k, j < k → k < n → slot k ≠ slot j) :
    view ((List.range n).foldl step s) (slot j) = effect j (view s (slot j)) := by
  have hsplit : List.range n = List.range j ++ j :: (List.range (n - j - 1)).map (j + 1 + ·) := by
    have hn : n = j + (1 + (n - j - 1)) := by omega
    rw [hn, List.range_add, List.range_add]
    simp [Function.comp_def, Nat.add_assoc]
  rw [hsplit]
  refine h.foldl_last forget _ _ s ?_
  simp only [List.map_map, List.mem_map, List.mem_range, Function.comp_apply, not_exists, not_and]
  intro k hk
  exact hlast _ (by omega) (by omega)

theorem exists_last_write (slot : ℕ → ι) (n : ℕ) {i : ι} (hi : ∃ j < n, slot j = i) :
    ∃ j < n, slot j = i ∧ ∀ k, j < k → k < n → slot k ≠ slot j := by
  induction n with
  | zero =>
    obtain ⟨j, hj, -⟩ := hi
    exact absurd hj (Nat.not_lt_zero j)
  | succ n ih =>
    by_cases hn : slot n = i
    · exact ⟨n, by omega, hn, fun k h1 h2 => by omega⟩
    · have hi' : ∃ j < n, slot j = i := by
        obtain ⟨j, hj, hji⟩ := hi
        refine ⟨j, ?_, hji⟩
        have : j ≠ n := fun heq => hn (heq ▸ hji)
        omega
      obtain ⟨j, hj, hji, hlast⟩ := ih hi'
      refine ⟨j, by omega, hji, fun k h1 h2 => ?_⟩
      by_cases hk : k = n
      · rw [hk, hji]
        exact hn
      · exact hlast k h1 (by omega)

/-- The loop `for (i = 0; i < n; ++i)` over the table itself. -/
theorem Pointwise.foldl_range {view : σ → ℕ → α} {step : σ → ℕ → σ} {effect : ℕ → α → α}
    (h : Pointwise view step id effect) (n : ℕ) (s : σ) (i : ℕ) :
    view ((List.range n).foldl step s) i = if i < n then effect i (view s i) else view s i := by
  split_ifs with hi
  · exact h.foldl_of_mem (k := i) (by rw [List.map_id]; exact List.nodup_range) s
      (List.mem_range.mpr hi)
  · exact h.foldl_of_notMem _ s (by rw [List.map_id, List.mem_range]; exact hi)

end RocmFpx.PointwiseLoop
