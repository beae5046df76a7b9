import Mathlib.Algebra.Order.Monoid.Defs
import Mathlib.Algebra.BigOperators.Group.List.Basic

/-!
Best paths by a table of champions. The positions are numbers and every edge goes forward; the
table holds, for each position, the best way known to come there. One pass over the edges, ordered
by where they begin, finds the best path to every position that can be reached, and following the
table back gives its labels.
-/

namespace RocmFpx
namespace BestPath

structure Edge (β R : Type) where
  src : ℕ
  tgt : ℕ
  label : β
  weight : R

/-- The last edge of the best way known to a position, and the score of that way. -/
structure Cell (β R : Type) where
  label : β
  src : ℕ
  score : R

variable {β R : Type}

/-- The edges go forward, and those that begin earlier come first. -/
structure Ordered (es : List (Edge β R)) : Prop where
  forward : ∀ e ∈ es, e.src < e.tgt
  sorted : es.Pairwise fun e f => e.src ≤ f.src

theorem Ordered.tail {e : Edge β R} {es : List (Edge β R)} (h : Ordered (e :: es)) :
    Ordered es where
  forward f hf := h.forward f (List.mem_cons_of_mem e hf)
  sorted := (List.pairwise_cons.mp h.sorted).2

/-! ## Paths -/

inductive Path (es : List (Edge β R)) : ℕ → ℕ → List (Edge β R) → Prop
  | nil (k : ℕ) : Path es k k []
  | cons {e : Edge β R} {j : ℕ} {p : List (Edge β R)} :
      e ∈ es → Path es e.tgt j p → Path es e.src j (e :: p)

theorem Path.snoc {es : List (Edge β R)} {k j : ℕ} {p : List (Edge β R)} (h : Path es k j p)
    {e : Edge β R} (he : e ∈ es) (hj : e.src = j) : Path es k e.tgt (p ++ [e]) := by
  induction h with
  | nil k =>
    obtain rfl := hj
    exact .cons he (.nil e.tgt)
  | cons hf _ ih => exact .cons hf (ih hj)

theorem Path.mono {es fs : List (Edge β R)} (hsub : es ⊆ fs) {k j : ℕ} {p : List (Edge β R)}
    (h : Path es k j p) : Path fs k j p := by
  induction h with
  | nil k => exact .nil k
  | cons he _ ih => exact .cons (hsub he) ih

theorem Path.eq_nil {k j : ℕ} {p : List (Edge β R)} (h : Path [] k j p) : p = [] := by
  induction h with
  | nil k => rfl
  | cons he _ _ => cases he

def weight [AddCommMonoid R] (p : List (Edge β R)) : R := (p.map Edge.weight).sum

theorem weight_cons [AddCommMonoid R] (e : Edge β R) (p : List (Edge β R)) :
    weight (e :: p) = e.weight + weight p := List.sum_cons

theorem weight_append [AddCommMonoid R] (p q : List (Edge β R)) :
    weight (p ++ q) = weight p + weight q := by
  rw [weight, List.map_append, List.sum_append, weight, weight]

/-! ## The table -/

section
variable [AddCommMonoid R] [LinearOrder R]

/-- The edge challenges the champion where it ends. -/
def challenge (t : ℕ → Cell β R) (e : Edge β R) : ℕ → Cell β R :=
  if (t e.tgt).score < (t e.src).score + e.weight then
    Function.update t e.tgt ⟨e.label, e.src, (t e.src).score + e.weight⟩
  else t

def run (t : ℕ → Cell β R) (es : List (Edge β R)) : ℕ → Cell β R := es.foldl challenge t

theorem run_cons (t : ℕ → Cell β R) (e : Edge β R) (es : List (Edge β R)) :
    run t (e :: es) = run (challenge t e) es := rfl

theorem run_append (t : ℕ → Cell β R) (es fs : List (Edge β R)) :
    run t (es ++ fs) = run (run t es) fs := List.foldl_append

theorem challenge_of_ne {t : ℕ → Cell β R} {e : Edge β R} {j : ℕ} (h : j ≠ e.tgt) :
    challenge t e j = t j := by
  rw [challenge]
  split_ifs
  · exact Function.update_of_ne h _ _
  · rfl

theorem challenge_tgt (t : ℕ → Cell β R) (e : Edge β R) :
    challenge t e e.tgt = t e.tgt ∨
      challenge t e e.tgt = ⟨e.label, e.src, (t e.src).score + e.weight⟩ := by
  rw [challenge]
  split_ifs
  · exact .inr (Function.update_self _ _ _)
  · exact .inl rfl

theorem score_le_challenge (t : ℕ → Cell β R) (e : Edge β R) (j : ℕ) :
    (t j).score ≤ (challenge t e j).score := by
  rw [challenge]
  split_ifs with h
  · by_cases hj : j = e.tgt
    · obtain rfl := hj
      rw [Function.update_self]
      exact h.le
    · rw [Function.update_of_ne hj]
  · exact le_rfl

theorem weight_le_challenge (t : ℕ → Cell β R) (e : Edge β R) :
    (t e.src).score + e.weight ≤ (challenge t e e.tgt).score := by
  rw [challenge]
  split_ifs with h
  · rw [Function.update_self]
  · exact not_lt.mp h

theorem score_le_run (t : ℕ → Cell β R) (es : List (Edge β R)) (j : ℕ) :
    (t j).score ≤ (run t es j).score := by
  induction es generalizing t with
  | nil => exact le_rfl
  | cons e es ih => exact (score_le_challenge t e j).trans (ih _)

/-- Edges that begin behind a position or at it leave its cell alone. -/
theorem run_of_le {es : List (Edge β R)} (hforward : ∀ e ∈ es, e.src < e.tgt) {j : ℕ}
    (hle : ∀ e ∈ es, j ≤ e.src) (t : ℕ → Cell β R) : run t es j = t j := by
  induction es generalizing t with
  | nil => rfl
  | cons e es ih =>
    have hlt := (hle e List.mem_cons_self).trans_lt (hforward e List.mem_cons_self)
    rw [run_cons, ih (fun f hf => hforward f (List.mem_cons_of_mem e hf))
      (fun f hf => hle f (List.mem_cons_of_mem e hf)), challenge_of_ne hlt.ne]

theorem run_zero {es : List (Edge β R)} (h : Ordered es) (t : ℕ → Cell β R) :
    run t es 0 = t 0 := run_of_le h.forward (fun _ _ => Nat.zero_le _) t

/-- Where an edge begins, the cell is final when the edge is tried. -/
theorem Ordered.run_src {e : Edge β R} {es : List (Edge β R)} (h : Ordered (e :: es))
    (t : ℕ → Cell β R) : run t (e :: es) e.src = t e.src := by
  refine run_of_le h.forward ?_ t
  exact List.forall_mem_cons.mpr ⟨le_rfl, (List.pairwise_cons.mp h.sorted).1⟩

theorem Ordered.weight_le_run {es : List (Edge β R)} (h : Ordered es) (t : ℕ → Cell β R)
    {e : Edge β R} (he : e ∈ es) :
    (run t es e.src).score + e.weight ≤ (run t es e.tgt).score := by
  induction es generalizing t with
  | nil => cases he
  | cons f es ih =>
    obtain rfl | he := List.mem_cons.mp he
    · rw [h.run_src]
      exact (weight_le_challenge t e).trans (score_le_run _ es _)
    · exact ih h.tail (challenge t f) he

/-- A cell is as it was, or it names the edge that was the last to win there. -/
theorem Ordered.run_recorded {es : List (Edge β R)} (h : Ordered es) (t : ℕ → Cell β R) (j : ℕ) :
    run t es j = t j ∨ ∃ e ∈ es, e.tgt = j ∧
      run t es j = ⟨e.label, e.src, (run t es e.src).score + e.weight⟩ := by
  induction es generalizing t with
  | nil => exact .inl rfl
  | cons e es ih =>
    obtain hsame | ⟨f, hf, hj, hrec⟩ := ih h.tail (challenge t e)
    · by_cases hj : j = e.tgt
      · obtain rfl := hj
        obtain hkept | hwon := challenge_tgt t e
        · exact .inl (hsame.trans hkept)
        · refine .inr ⟨e, List.mem_cons_self, rfl, ?_⟩
          rw [h.run_src]
          exact hsame.trans hwon
      · exact .inl (hsame.trans (challenge_of_ne hj))
    · exact .inr ⟨f, List.mem_cons_of_mem e hf, hj, hrec⟩

variable [IsOrderedAddMonoid R]

/-- No path is better than the table. -/
theorem Path.weight_le {es : List (Edge β R)} (ho : Ordered es) (t : ℕ → Cell β R) {k j : ℕ}
    {p : List (Edge β R)} (h : Path es k j p) :
    (run t es k).score + weight p ≤ (run t es j).score := by
  induction h with
  | nil k =>
    change _ + 0 ≤ _
    rw [add_zero]
  | @cons e j p he _ ih =>
    rw [weight_cons, ← add_assoc]
    exact (add_le_add_left (ho.weight_le_run t he) _).trans ih

/-! ## Following the table back -/

/-- The labels from a position back to the first, `fuel` of them at most. -/
def labelsFrom (t : ℕ → Cell β R) : ℕ → ℕ → List β
  | 0, _ => []
  | fuel + 1, j =>
    (t j).label :: if (t j).src = 0 then [] else labelsFrom t fuel (t j).src

/-- A position counts as reached when some path there beats what its cell began with. -/
def Reached (t : ℕ → Cell β R) (es : List (Edge β R)) (k : ℕ) : Prop :=
  ∃ p, Path es 0 k p ∧ (t k).score < (t 0).score + weight p

theorem exists_path {es : List (Edge β R)} (ho : Ordered es) (t : ℕ → Cell β R)
    (hsrc : ∀ e ∈ es, e.src ≠ 0 → Reached t es e.src) {j : ℕ} (hj : j ≠ 0)
    (hreach : Reached t es j) {fuel : ℕ} (hfuel : j ≤ fuel) :
    ∃ p, Path es 0 j p ∧ (t 0).score + weight p = (run t es j).score ∧
      labelsFrom (run t es) fuel j = (p.map Edge.label).reverse := by
  induction j using Nat.strong_induction_on generalizing fuel with
  | _ j ih =>
    obtain hsame | ⟨e, he, rfl, hrec⟩ := ho.run_recorded t j
    · -- a path that beats the first content would have replaced it
      obtain ⟨p, hp, hlt⟩ := hreach
      have hle := hp.weight_le ho t
      rw [run_zero ho, hsame] at hle
      exact absurd hle (not_le.mpr hlt)
    · have hlt := ho.forward e he
      obtain ⟨fuel, rfl⟩ := Nat.exists_eq_add_of_lt ((Nat.pos_of_ne_zero hj).trans_le hfuel)
      rw [Nat.zero_add, labelsFrom, hrec]
      by_cases h0 : e.src = 0
      · refine ⟨[e], h0 ▸ .cons he (.nil e.tgt), ?_, ?_⟩
        · rw [h0, run_zero ho]
          exact congrArg _ (List.sum_singleton)
        · rw [if_pos h0]
          rfl
      · obtain ⟨p, hp, hweight, hlabels⟩ :=
          ih e.src hlt h0 (hsrc e he h0) (show e.src ≤ fuel by omega)
        refine ⟨p ++ [e], hp.snoc he rfl, ?_, ?_⟩
        · rw [weight_append, ← add_assoc, hweight]
          exact congrArg _ List.sum_singleton
        · rw [if_neg h0, hlabels, List.map_append, List.reverse_append]
          rfl

theorem exists_best {es : List (Edge β R)} (ho : Ordered es) (t : ℕ → Cell β R)
    (h0 : (t 0).score = 0) (hsrc : ∀ e ∈ es, e.src ≠ 0 → Reached t es e.src) {j : ℕ}
    (hj : j ≠ 0) (hreach : Reached t es j) {fuel : ℕ} (hfuel : j ≤ fuel) :
    ∃ p, Path es 0 j p ∧ labelsFrom (run t es) fuel j = (p.map Edge.label).reverse ∧
      ∀ q, Path es 0 j q → weight q ≤ weight p := by
  obtain ⟨p, hp, hweight, hlabels⟩ := exists_path ho t hsrc hj hreach hfuel
  refine ⟨p, hp, hlabels, fun q hq => ?_⟩
  have hle := hq.weight_le ho t
  rwa [run_zero ho, ← hweight, h0, zero_add, zero_add] at hle

end

end BestPath
end RocmFpx
