import Mathlib.Data.Finset.Card
import Mathlib.Data.Finset.Union
import Mathlib.Data.Finset.Lattice.Fold

/-!
A depth-first worklist over any graph: elements are taken from the front of the list, those seen
before are passed over, the others are kept, replaced by their successors, or end the search
without a result. A search that returns has kept exactly the reachable elements to be kept, and
it returns where only finitely many elements are reachable.
-/

namespace RocmFpx

/-- What becomes of an element taken from the list. -/
inductive Visit (α : Type*) where
  | keep
  | expand (next : List α)
  | stuck

namespace Worklist

variable {α : Type*} {visit : α → Visit α}

def Next (visit : α → Visit α) (x y : α) : Prop := ∃ next, visit x = .expand next ∧ y ∈ next

abbrev Reaches (visit : α → Visit α) : α → α → Prop := Relation.ReflTransGen (Next visit)

theorem not_next_of_keep {x y : α} (h : visit x = .keep) : ¬ Next visit x y := by
  rintro ⟨next, hx, -⟩
  rw [h] at hx
  nomatch hx

theorem reaches_of_keep {x y : α} (h : visit x = .keep) (hr : Reaches visit x y) : y = x := by
  rcases hr.cases_head with rfl | ⟨z, hz, -⟩
  · rfl
  · exact absurd hz (not_next_of_keep h)

theorem exists_kept {x : α} (hacc : Acc (fun y x => Next visit x y) x)
    (hgo : ∀ y, Reaches visit x y → visit y = .keep ∨ ∃ z, Next visit y z) :
    ∃ y, Reaches visit x y ∧ visit y = .keep := by
  induction hacc with
  | intro x _ ih =>
    rcases hgo x .refl with hk | ⟨z, hz⟩
    · exact ⟨x, .refl, hk⟩
    · obtain ⟨y, hy, hk⟩ := ih z hz fun y hy => hgo y (hy.head hz)
      exact ⟨y, hy.head hz, hk⟩

variable [DecidableEq α]

/-- An element is added unless it is there already. -/
def kept (x : α) (out : List α) : List α := if x ∈ out then out else out ++ [x]

/-- The search with `fuel` for that many elements; `none` where it has not returned by then. -/
def search (visit : α → Visit α) : ℕ → List α → List α → List α → Option (List α)
  | 0, _, _, _ => none
  | _ + 1, [], _, out => some out
  | fuel + 1, x :: todo, seen, out =>
    if x ∈ seen then search visit fuel todo seen out
    else
      match visit x with
      | .keep => search visit fuel todo (x :: seen) (kept x out)
      | .expand next => search visit fuel (next ++ todo) (x :: seen) out
      | .stuck => none

theorem mem_kept {x y : α} {out : List α} : y ∈ kept x out ↔ y ∈ out ∨ y = x := by
  rw [kept]
  split_ifs with h
  · exact ⟨Or.inl, fun hy => hy.elim id fun he => he ▸ h⟩
  · simp

/-- What a search that returns does with the element it takes. -/
theorem search_cons {fuel : ℕ} {x : α} {todo seen out out' : List α}
    (h : search visit (fuel + 1) (x :: todo) seen out = some out') :
    (x ∈ seen ∧ search visit fuel todo seen out = some out') ∨
    (visit x = .keep ∧ search visit fuel todo (x :: seen) (kept x out) = some out') ∨
    (∃ next, visit x = .expand next ∧
      search visit fuel (next ++ todo) (x :: seen) out = some out') := by
  rw [search] at h
  by_cases hx : x ∈ seen
  · rw [if_pos hx] at h
    exact Or.inl ⟨hx, h⟩
  · rw [if_neg hx] at h
    cases hv : visit x with
    | keep =>
      rw [hv] at h
      exact Or.inr (Or.inl ⟨rfl, h⟩)
    | expand next =>
      rw [hv] at h
      exact Or.inr (Or.inr ⟨next, rfl, h⟩)
    | stuck =>
      rw [hv] at h
      exact absurd h (by simp)

theorem search_zero {todo seen out out' : List α} : search visit 0 todo seen out ≠ some out' := by
  simp [search]

theorem search_nil {fuel : ℕ} {seen out out' : List α}
    (h : search visit (fuel + 1) [] seen out = some out') : out = out' := by
  simpa [search] using h

theorem search_mono {fuel more : ℕ} {todo seen out out' : List α}
    (h : search visit fuel todo seen out = some out') :
    search visit (fuel + more) todo seen out = some out' := by
  induction fuel generalizing todo seen out with
  | zero => exact absurd h search_zero
  | succ fuel ih =>
    rw [Nat.add_right_comm]
    cases todo with
    | nil => rw [search_nil h, search]
    | cons x todo =>
      rw [search] at h ⊢
      by_cases hx : x ∈ seen
      · rw [if_pos hx] at h ⊢
        exact ih h
      · rw [if_neg hx] at h ⊢
        cases hv : visit x with
        | keep =>
          rw [hv] at h
          exact ih h
        | expand next =>
          rw [hv] at h
          exact ih h
        | stuck =>
          rw [hv] at h
          exact absurd h (by simp)

theorem search_mono_le {fuel more : ℕ} (hle : fuel ≤ more) {todo seen out out' : List α}
    (h : search visit fuel todo seen out = some out') :
    search visit more todo seen out = some out' := by
  obtain ⟨k, rfl⟩ := Nat.exists_eq_add_of_le hle
  exact search_mono h

/-! ## What a search that returns has found -/

theorem search_keeps {fuel : ℕ} {todo seen out out' : List α}
    (h : search visit fuel todo seen out = some out') : out ⊆ out' := by
  induction fuel generalizing todo seen out with
  | zero => exact absurd h search_zero
  | succ fuel ih =>
    cases todo with
    | nil => exact search_nil h ▸ List.Subset.refl _
    | cons x todo =>
      rcases search_cons h with ⟨-, h⟩ | ⟨-, h⟩ | ⟨next, -, h⟩
      · exact ih h
      · exact fun y hy => ih h (mem_kept.2 (Or.inl hy))
      · exact ih h

theorem search_sound {fuel : ℕ} {todo seen out out' : List α}
    (h : search visit fuel todo seen out = some out') {y : α} (hy : y ∈ out') :
    y ∈ out ∨ ∃ x ∈ todo, Reaches visit x y ∧ visit y = .keep := by
  induction fuel generalizing todo seen out with
  | zero => exact absurd h search_zero
  | succ fuel ih =>
    cases todo with
    | nil => exact Or.inl (search_nil h ▸ hy)
    | cons x todo =>
      rcases search_cons h with ⟨-, h⟩ | ⟨hv, h⟩ | ⟨next, hv, h⟩
      · rcases ih h with ho | ⟨z, hz, hr⟩
        · exact Or.inl ho
        · exact Or.inr ⟨z, List.mem_cons_of_mem _ hz, hr⟩
      · rcases ih h with ho | ⟨z, hz, hr⟩
        · rcases mem_kept.1 ho with ho | rfl
          · exact Or.inl ho
          · exact Or.inr ⟨y, List.mem_cons_self, .refl, hv⟩
        · exact Or.inr ⟨z, List.mem_cons_of_mem _ hz, hr⟩
      · rcases ih h with ho | ⟨z, hz, hr, hk⟩
        · exact Or.inl ho
        · rcases List.mem_append.mp hz with hz | hz
          · exact Or.inr ⟨x, List.mem_cons_self, hr.head ⟨next, hv, hz⟩, hk⟩
          · exact Or.inr ⟨z, List.mem_cons_of_mem _ hz, hr, hk⟩

theorem search_closed {fuel : ℕ} {todo seen out out' : List α}
    (h : search visit fuel todo seen out = some out') :
    ∃ seen', seen ⊆ seen' ∧ todo ⊆ seen' ∧ ∀ x ∈ seen', x ∈ seen ∨
      (visit x ≠ .stuck ∧ (∀ y, Next visit x y → y ∈ seen') ∧ (visit x = .keep → x ∈ out')) := by
  induction fuel generalizing todo seen out with
  | zero => exact absurd h search_zero
  | succ fuel ih =>
    cases todo with
    | nil => exact ⟨seen, List.Subset.refl _, List.nil_subset _, fun x hx => Or.inl hx⟩
    | cons x todo =>
      rcases search_cons h with ⟨hx, h⟩ | ⟨hv, h⟩ | ⟨next, hv, h⟩
      · obtain ⟨seen', hseen, htodo, hclosed⟩ := ih h
        exact ⟨seen', hseen, List.cons_subset.mpr ⟨hseen hx, htodo⟩, hclosed⟩
      · obtain ⟨seen', hseen, htodo, hclosed⟩ := ih h
        obtain ⟨hxs, hseen⟩ := List.cons_subset.mp hseen
        refine ⟨seen', hseen, List.cons_subset.mpr ⟨hxs, htodo⟩, fun y hy => ?_⟩
        rcases hclosed y hy with hy | hy
        · rcases List.mem_cons.mp hy with rfl | hy
          · refine Or.inr ⟨by simp [hv], fun z hz => absurd hz (not_next_of_keep hv), fun _ => ?_⟩
            exact search_keeps h (mem_kept.2 (Or.inr rfl))
          · exact Or.inl hy
        · exact Or.inr hy
      · obtain ⟨seen', hseen, htodo, hclosed⟩ := ih h
        obtain ⟨hxs, hseen⟩ := List.cons_subset.mp hseen
        obtain ⟨hnext, htodo⟩ := List.append_subset.mp htodo
        refine ⟨seen', hseen, List.cons_subset.mpr ⟨hxs, htodo⟩, fun y hy => ?_⟩
        rcases hclosed y hy with hy | hy
        · rcases List.mem_cons.mp hy with rfl | hy
          · refine Or.inr ⟨by simp [hv], ?_, by simp [hv]⟩
            rintro z ⟨next', hv', hz⟩
            rw [hv] at hv'
            exact hnext (Visit.expand.inj hv' ▸ hz)
          · exact Or.inl hy
        · exact Or.inr hy

/-- Everything reachable from a search that starts fresh and returns is among finitely many
elements, none of them stuck, and all that are to be kept were found. -/
theorem search_complete {fuel : ℕ} {todo out out' : List α}
    (h : search visit fuel todo [] out = some out') :
    ∃ seen : List α, ∀ x ∈ todo, ∀ y, Reaches visit x y →
      y ∈ seen ∧ visit y ≠ .stuck ∧ (visit y = .keep → y ∈ out') := by
  obtain ⟨seen, -, htodo, hclosed⟩ := search_closed h
  have hdone : ∀ x ∈ seen, visit x ≠ .stuck ∧ (∀ y, Next visit x y → y ∈ seen) ∧
      (visit x = .keep → x ∈ out') := fun x hx =>
    (hclosed x hx).resolve_left List.not_mem_nil
  refine ⟨seen, fun x hx y hr => ?_⟩
  have hy : y ∈ seen := by
    induction hr with
    | refl => exact htodo hx
    | tail _ hn ih => exact (hdone _ ih).2.1 _ hn
  exact ⟨hy, (hdone y hy).1, (hdone y hy).2.2⟩

theorem mem_search {fuel : ℕ} {todo out out' : List α}
    (h : search visit fuel todo [] out = some out') (y : α) :
    y ∈ out' ↔ y ∈ out ∨ ∃ x ∈ todo, Reaches visit x y ∧ visit y = .keep := by
  refine ⟨search_sound h, fun hy => ?_⟩
  rcases hy with hy | ⟨x, hx, hr, hk⟩
  · exact search_keeps h hy
  · obtain ⟨seen, hseen⟩ := search_complete h
    exact (hseen x hx y hr).2.2 hk

/-! ## When a search returns -/

/-- Finitely many elements that contain their successors and are not stuck are enough. -/
theorem search_returns {S : Finset α} (hstuck : ∀ x ∈ S, visit x ≠ .stuck)
    (hnext : ∀ x ∈ S, ∀ y, Next visit x y → y ∈ S) {todo seen : List α}
    (htodo : ∀ x ∈ todo, x ∈ S) (out : List α) : ∃ fuel out', search visit fuel todo seen out = some out' := by
  induction hn : (S \ seen.toFinset).card using Nat.strong_induction_on
    generalizing todo seen out with
  | _ n ih =>
    induction todo with
    | nil => exact ⟨1, out, rfl⟩
    | cons x todo ihtodo =>
      have hx := htodo x List.mem_cons_self
      have htodo' : ∀ y ∈ todo, y ∈ S := fun y hy => htodo y (List.mem_cons_of_mem _ hy)
      by_cases hseen : x ∈ seen
      · obtain ⟨fuel, out', h⟩ := ihtodo htodo'
        exact ⟨fuel + 1, out', by rw [search, if_pos hseen, h]⟩
      · have hless : (S \ (x :: seen).toFinset).card < n := by
          rw [← hn]
          refine Finset.card_lt_card ⟨?_, fun hsub => ?_⟩
          · exact Finset.sdiff_subset_sdiff subset_rfl (by simp)
          · have := hsub (Finset.mem_sdiff.mpr ⟨hx, by simpa using hseen⟩)
            simp at this
        cases hv : visit x with
        | keep =>
          obtain ⟨fuel, out', h⟩ := ih _ hless htodo' (kept x out) rfl
          exact ⟨fuel + 1, out', by simp only [search, if_neg hseen, hv, h]⟩
        | expand next =>
          have hall : ∀ y ∈ next ++ todo, y ∈ S := fun y hy =>
            (List.mem_append.mp hy).elim (fun hy => hnext x hx y ⟨next, hv, hy⟩) (htodo' y)
          obtain ⟨fuel, out', h⟩ := ih _ hless hall out rfl
          exact ⟨fuel + 1, out', by simp only [search, if_neg hseen, hv, h]⟩
        | stuck => exact absurd hv (hstuck x hx)

theorem reachable_finite {x : α} (hacc : Acc (fun y x => Next visit x y) x) :
    ∃ S : Finset α, ∀ y, y ∈ S ↔ Reaches visit x y := by
  induction hacc with
  | intro x _ ih =>
    cases hv : visit x with
    | expand next =>
      choose! S hS using fun y (hy : y ∈ next) => ih y ⟨next, hv, hy⟩
      refine ⟨insert x (next.toFinset.biUnion S), fun y => ?_⟩
      rw [Finset.mem_insert, Finset.mem_biUnion]
      constructor
      · rintro (rfl | ⟨z, hz, hy⟩)
        · exact .refl
        · have hz := List.mem_toFinset.mp hz
          exact ((hS z hz y).mp hy).head ⟨next, hv, hz⟩
      · intro hr
        rcases hr.cases_head with rfl | ⟨z, ⟨next', hv', hz⟩, hr⟩
        · exact Or.inl rfl
        · rw [hv] at hv'
          have hz : z ∈ next := Visit.expand.inj hv' ▸ hz
          exact Or.inr ⟨z, List.mem_toFinset.mpr hz, (hS z hz y).mpr hr⟩
    | keep =>
      refine ⟨{x}, fun y => ?_⟩
      rw [Finset.mem_singleton]
      exact ⟨fun h => h ▸ .refl, reaches_of_keep hv⟩
    | stuck =>
      refine ⟨{x}, fun y => ?_⟩
      rw [Finset.mem_singleton]
      refine ⟨fun h => h ▸ .refl, fun hr => ?_⟩
      rcases hr.cases_head with rfl | ⟨z, ⟨next', hv', -⟩, -⟩
      · rfl
      · rw [hv] at hv'
        nomatch hv'

theorem search_returns_of_acc {x : α} (hacc : Acc (fun y x => Next visit x y) x)
    (hstuck : ∀ y, Reaches visit x y → visit y ≠ .stuck) (out : List α) :
    ∃ fuel out', search visit fuel [x] [] out = some out' := by
  obtain ⟨S, hS⟩ := reachable_finite hacc
  refine search_returns (S := S) (fun y hy => hstuck y ((hS y).mp hy)) (fun y hy z hz => ?_) ?_ out
  · exact (hS z).mpr (((hS y).mp hy).tail hz)
  · intro y hy
    exact (hS y).mpr (List.mem_singleton.mp hy ▸ .refl)

/-! ## Folding steps that may not return

Steps that take fuel, and return the same with more of it. -/

section Folds

variable {β σ : Type*}

/-- More fuel does not change what a step returns. -/
def Mono (f : ℕ → σ → β → Option σ) : Prop :=
  ∀ fuel more acc x out, fuel ≤ more → f fuel acc x = some out → f more acc x = some out

theorem foldlM_imp {f f' : σ → β → Option σ}
    (hf : ∀ acc x out, f acc x = some out → f' acc x = some out) {xs : List β} {acc out : σ}
    (h : xs.foldlM f acc = some out) : xs.foldlM f' acc = some out := by
  induction xs generalizing acc with
  | nil => exact h
  | cons x xs ih =>
    rw [List.foldlM_cons] at h ⊢
    obtain ⟨mid, hx, hxs⟩ := Option.bind_eq_some_iff.mp h
    exact Option.bind_eq_some_iff.mpr ⟨mid, hf _ _ _ hx, ih hxs⟩

theorem foldlM_mono {f : ℕ → σ → β → Option σ} (hf : Mono f) {fuel more : ℕ} (hle : fuel ≤ more)
    {xs : List β} {acc out : σ} (h : xs.foldlM (f fuel) acc = some out) :
    xs.foldlM (f more) acc = some out :=
  foldlM_imp (fun _ _ _ hx => hf _ _ _ _ _ hle hx) h

/-- A fold returns where its steps do from everything that the steps before them leave. -/
theorem foldlM_returns_of {f : ℕ → σ → β → Option σ} (hf : Mono f) {P : σ → Prop} (xs : List β)
    (hP : ∀ x ∈ xs, ∀ fuel acc out, P acc → f fuel acc x = some out → P out)
    (h : ∀ x ∈ xs, ∀ acc, P acc → ∃ fuel out, f fuel acc x = some out) {acc : σ} (hacc : P acc) :
    ∃ fuel out, xs.foldlM (f fuel) acc = some out := by
  induction xs generalizing acc with
  | nil => exact ⟨0, acc, rfl⟩
  | cons x xs ih =>
    obtain ⟨n, mid, hx⟩ := h x List.mem_cons_self acc hacc
    obtain ⟨m, out, hxs⟩ := ih (fun y hy => hP y (List.mem_cons_of_mem _ hy))
      (fun y hy => h y (List.mem_cons_of_mem _ hy)) (hP x List.mem_cons_self n acc mid hacc hx)
    refine ⟨max n m, out, ?_⟩
    rw [List.foldlM_cons]
    exact Option.bind_eq_some_iff.mpr ⟨mid, hf _ _ _ _ _ (le_max_left n m) hx,
      foldlM_mono hf (le_max_right n m) hxs⟩

theorem foldlM_returns {f : ℕ → σ → β → Option σ} (hf : Mono f) (xs : List β)
    (h : ∀ x ∈ xs, ∀ acc, ∃ fuel out, f fuel acc x = some out) (acc : σ) :
    ∃ fuel out, xs.foldlM (f fuel) acc = some out :=
  foldlM_returns_of hf (P := fun _ => True) xs (fun _ _ _ _ _ _ _ => trivial)
    (fun x hx acc _ => h x hx acc) trivial

/-- A fold that returns has returned from every step. -/
theorem foldlM_step {f : σ → β → Option σ} {xs : List β} {acc out : σ}
    (h : xs.foldlM f acc = some out) {x : β} (hx : x ∈ xs) : ∃ acc' out', f acc' x = some out' := by
  induction xs generalizing acc with
  | nil => exact absurd hx List.not_mem_nil
  | cons y xs ih =>
    rw [List.foldlM_cons] at h
    obtain ⟨mid, hy, hxs⟩ := Option.bind_eq_some_iff.mp h
    rcases List.mem_cons.mp hx with rfl | hx
    · exact ⟨acc, mid, hy⟩
    · exact ih hxs hx

omit [DecidableEq α] in
/-- What a fold adds to a list is what its steps add. -/
theorem mem_foldlM {f : List α → β → Option (List α)} {Q : β → α → Prop}
    (hf : ∀ acc x out, f acc x = some out → ∀ y, y ∈ out ↔ y ∈ acc ∨ Q x y) {xs : List β}
    {acc out : List α} (h : xs.foldlM f acc = some out) (y : α) :
    y ∈ out ↔ y ∈ acc ∨ ∃ x ∈ xs, Q x y := by
  induction xs generalizing acc with
  | nil =>
    obtain rfl : acc = out := by simpa using h
    simp
  | cons x xs ih =>
    rw [List.foldlM_cons] at h
    obtain ⟨mid, hx, hxs⟩ := Option.bind_eq_some_iff.mp h
    rw [ih hxs, hf acc x mid hx y, List.exists_mem_cons_iff, or_assoc]

end Folds

end Worklist
end RocmFpx
