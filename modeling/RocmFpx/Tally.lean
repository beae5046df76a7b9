import Mathlib.Algebra.BigOperators.Group.List.Basic
import Mathlib.Algebra.Order.BigOperators.Group.List
import Mathlib.Algebra.Order.Pi
import Mathlib.Data.List.AList
import Mathlib.Tactic

/-!
Tables of bounded counts. Adding to a count that would pass the limit gives no result, so that a
table is filled exactly if every total is within the limit, in any order of the additions.
-/

namespace RocmFpx

/-! ## Runs that add -/

section

variable {S ι E : Type*}

/-- The result has the counts `f`, and there is one if none of them is above the limit. -/
structure Tallied (c : S → ι → ℕ) (limit : ℕ) (r : Option S) (f : ι → ℕ) : Prop where
  isSome_iff : r.isSome = true ↔ ∀ i, f i ≤ limit
  counts : ∀ s ∈ r, c s = f

variable {c : S → ι → ℕ} {limit : ℕ} {r : Option S} {f : ι → ℕ}

theorem Tallied.bind {T κ : Type*} {d : T → κ → ℕ} {g : κ → ℕ} {next : S → Option T}
    (h : Tallied c limit r f) (hnext : ∀ s ∈ r, Tallied d limit (next s) g)
    (hmore : (∀ k, g k ≤ limit) → ∀ i, f i ≤ limit) : Tallied d limit (r.bind next) g := by
  cases r with
  | none =>
    have hnone : ¬ ∀ i, f i ≤ limit := fun hle => nomatch h.isSome_iff.mpr hle
    exact ⟨iff_of_false (fun h => nomatch h) fun hle => hnone (hmore hle), fun s hs => nomatch hs⟩
  | some s => exact hnext s rfl

/-- A run of steps that each add something adds all of it. -/
theorem Tallied.foldlM {step : S → E → Option S} {w : E → ι → ℕ}
    (hstep : ∀ s e, Tallied c limit (step s e) (c s + w e)) (hle : ∀ s i, c s i ≤ limit)
    (es : List E) (s : S) :
    Tallied c limit (es.foldlM step s) (c s + (es.map w).sum) := by
  induction es generalizing s with
  | nil =>
    rw [List.map_nil, List.sum_nil, add_zero]
    exact ⟨iff_of_true rfl (hle s), fun s' hs' => congrArg c (Option.some.inj hs').symm⟩
  | cons e es ih =>
    rw [List.foldlM_cons, List.map_cons, List.sum_cons, ← add_assoc]
    refine (hstep s e).bind (fun s' hs' => ?_) fun hall i => ?_
    · rw [← (hstep s e).counts s' hs']
      exact ih s'
    · exact (Nat.le_add_right _ _).trans (hall i)

/-- What holds after a run held before or came with a step. -/
theorem foldlM_mem {step : S → E → Option S} {P : S → Prop} {Q : E → Prop}
    (hstep : ∀ s e s', step s e = some s' → (P s' ↔ P s ∨ Q e)) {es : List E} {s s' : S}
    (hrun : es.foldlM step s = some s') : P s' ↔ P s ∨ ∃ e ∈ es, Q e := by
  induction es generalizing s with
  | nil =>
    obtain rfl := Option.some.inj hrun
    simp
  | cons e es ih =>
    rw [List.foldlM_cons] at hrun
    obtain ⟨s₁, hs₁, hrun⟩ := Option.bind_eq_some_iff.mp hrun
    rw [ih hrun, hstep s e s₁ hs₁, List.exists_mem_cons_iff, or_assoc]

end

/-! ## Counts -/

/-- A positive count within the limit. -/
structure Count (limit : ℕ) where
  val : ℕ
  pos : 0 < val
  le : val ≤ limit

namespace Count

variable {limit : ℕ}

theorem ext {m n : Count limit} (h : m.val = n.val) : m = n := by
  cases m
  cases n
  cases h
  rfl

def add (m n : Count limit) : Option (Count limit) :=
  if h : m.val + n.val ≤ limit then some ⟨m.val + n.val, Nat.add_pos_left m.pos n.val, h⟩ else none

theorem add_eq_some {m n k : Count limit} (h : m.add n = some k) : k.val = m.val + n.val := by
  rw [add] at h
  split_ifs at h
  exact congrArg val (Option.some.inj h).symm

theorem isSome_add {m n : Count limit} : (m.add n).isSome = true ↔ m.val + n.val ≤ limit := by
  rw [add]
  split_ifs with h
  · exact iff_of_true rfl h
  · exact iff_of_false (fun h => nomatch h) h

end Count

/-! ## Tables -/

abbrev CountTable (α : Type*) (limit : ℕ) := AList fun _ : α => Count limit

namespace CountTable

variable {α : Type*} [DecidableEq α] {limit : ℕ}

/-- An absent count is zero. -/
def countAt (p : CountTable α limit) (t : α) : ℕ := (p.lookup t).elim 0 Count.val

theorem countAt_le (p : CountTable α limit) (t : α) : p.countAt t ≤ limit := by
  rw [countAt]
  cases p.lookup t with
  | none => exact Nat.zero_le limit
  | some n => exact n.le

theorem countAt_empty (t : α) : countAt (∅ : CountTable α limit) t = 0 := by
  rw [countAt, AList.lookup_empty]
  rfl

theorem countAt_insert (p : CountTable α limit) (t : α) (n : Count limit) :
    countAt (p.insert t n) = Function.update p.countAt t n.val := by
  funext t'
  by_cases ht : t' = t
  · subst ht
    rw [Function.update_self, countAt, AList.lookup_insert]
    rfl
  · rw [Function.update_of_ne ht, countAt, AList.lookup_insert_ne ht]
    rfl

theorem lookup_eq_of_countAt {p q : CountTable α limit} {t : α} (h : p.countAt t = q.countAt t) :
    p.lookup t = q.lookup t := by
  rw [countAt, countAt] at h
  cases hp : p.lookup t with
  | none =>
    cases hq : q.lookup t with
    | none => rfl
    | some n =>
      rw [hp, hq] at h
      exact absurd h (Nat.ne_of_lt n.pos)
  | some m =>
    cases hq : q.lookup t with
    | none =>
      rw [hp, hq] at h
      exact absurd h (Nat.ne_of_gt m.pos)
    | some n =>
      rw [hp, hq] at h
      exact congrArg some (Count.ext h)

def addCount (p : CountTable α limit) (t : α) (n : Count limit) : Option (CountTable α limit) :=
  match p.lookup t with
  | none => some (p.insert t n)
  | some m => (m.add n).map fun k => p.insert t k

theorem addCount_tallied (p : CountTable α limit) (t : α) (n : Count limit) :
    Tallied countAt limit (p.addCount t n) (p.countAt + Pi.single t n.val) := by
  have hsingle : ∀ k, p.countAt t + n.val = k →
      p.countAt + Pi.single t n.val = Function.update p.countAt t k := by
    rintro k rfl
    funext t'
    by_cases ht : t' = t
    · subst ht
      simp
    · simp [ht]
  have hcount : ∀ x, p.lookup t = x → p.countAt t = x.elim 0 Count.val := by
    rintro x rfl
    rfl
  rw [addCount]
  cases hx : p.lookup t with
  | none =>
    rw [hsingle n.val (by rw [hcount none hx]; exact Nat.zero_add _), ← countAt_insert]
    exact ⟨iff_of_true rfl (countAt_le _), fun q hq => congrArg countAt (Option.some.inj hq).symm⟩
  | some m =>
    have hsum : p.countAt t + n.val = m.val + n.val := by
      rw [hcount (some m) hx]
      rfl
    constructor
    · rw [hsingle _ hsum, Option.isSome_map, Count.isSome_add]
      constructor
      · intro h t'
        by_cases ht : t' = t
        · rw [ht, Function.update_self]
          exact h
        · rw [Function.update_of_ne ht]
          exact countAt_le p t'
      · intro h
        have := h t
        rwa [Function.update_self] at this
    · intro q hq
      obtain ⟨k, hk, rfl⟩ := Option.map_eq_some_iff.mp hq
      rw [countAt_insert, hsingle _ hsum, Count.add_eq_some hk]

theorem sum_entries (p : CountTable α limit) :
    (p.entries.map fun e => (Pi.single e.1 e.2.val : α → ℕ)).sum = p.countAt := by
  induction p using AList.insertRec with
  | H0 =>
    funext t
    exact (countAt_empty t).symm
  | IH t n p ht ih =>
    rw [AList.entries_insert_of_notMem ht, List.map_cons, List.sum_cons, ih, countAt_insert]
    funext t'
    by_cases h : t' = t
    · subst h
      have hzero : countAt p t' = 0 := by
        rw [countAt, AList.lookup_eq_none.mpr ht]
        rfl
      simp [hzero]
    · simp [h]

/-- Every entry of `q` is added to `p`. -/
def addAll (p q : CountTable α limit) : Option (CountTable α limit) :=
  q.entries.foldlM (fun p e => p.addCount e.1 e.2) p

theorem addAll_tallied (p q : CountTable α limit) :
    Tallied countAt limit (p.addAll q) (p.countAt + q.countAt) := by
  rw [← sum_entries q]
  exact Tallied.foldlM (fun p e => addCount_tallied p e.1 e.2) countAt_le q.entries p

end CountTable
end RocmFpx
