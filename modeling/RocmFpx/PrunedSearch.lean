import Mathlib.Tactic
import Mathlib.Order.Interval.Set.Basic
import Mathlib.Order.Interval.Finset.Nat

/-!
A search for the index of least error that walks away from a starting index in both
directions and gives up the lower one at the first index whose lower bound is above
the best error so far. The errors may be computed with an early exit: above the best
error so far any larger value will do.
-/

namespace RocmFpx

/-- The lowest of the indices of `s` with the least error. -/
def IsBest {α : Type*} [LinearOrder α] (f : ℕ → α) (s : Set ℕ) (e : ℕ) : Prop :=
  e ∈ s ∧ ∀ e' ∈ s, f e < f e' ∨ f e = f e' ∧ e ≤ e'

section

variable {α : Type*} [LinearOrder α] {f : ℕ → α} {s t : Set ℕ} {e e' : ℕ}

theorem IsBest.le (h : IsBest f s e) (he' : e' ∈ s) : f e ≤ f e' :=
  (h.2 e' he').elim le_of_lt fun heq => heq.1.le

theorem IsBest.unique (h : IsBest f s e) (h' : IsBest f s e') : e = e' := by
  rcases h.2 e' h'.1 with hlt | ⟨-, hle⟩
  · exact absurd (h'.le h.1) (not_le_of_gt hlt)
  · rcases h'.2 e h.1 with hlt | ⟨-, hle'⟩
    · exact absurd (h.le h'.1) (not_le_of_gt hlt)
    · exact le_antisymm hle hle'

theorem IsBest.mono (h : IsBest f t e) (hst : s ⊆ t) (he : e ∈ s) : IsBest f s e :=
  ⟨he, fun e' he' => h.2 e' (hst he')⟩

theorem IsBest.congr {g : ℕ → α} (hfg : ∀ e ∈ s, f e = g e) : IsBest f s e ↔ IsBest g s e := by
  have half : ∀ {f g : ℕ → α}, (∀ e ∈ s, f e = g e) → IsBest f s e → IsBest g s e := by
    intro f g hfg h
    refine ⟨h.1, fun e' he' => ?_⟩
    rw [← hfg e h.1, ← hfg e' he']
    exact h.2 e' he'
  exact ⟨half hfg, half fun e he => (hfg e he).symm⟩

theorem IsBest.singleton (f : ℕ → α) (e : ℕ) : IsBest f {e} e :=
  ⟨rfl, fun e' he' => .inr (by rw [Set.mem_singleton_iff.mp he']; exact ⟨rfl, le_rfl⟩)⟩

/-- A further index wins, or the old best one stays. -/
theorem IsBest.insert (h : IsBest f s e) (e' : ℕ) :
    IsBest f (insert e' s) (if f e' < f e ∨ f e' = f e ∧ e' < e then e' else e) := by
  split_ifs with hwins
  · refine ⟨Set.mem_insert e' s, fun x hx => ?_⟩
    rcases hx with rfl | hx
    · exact .inr ⟨rfl, le_rfl⟩
    · rcases hwins with hlt | ⟨heq, hlt⟩
      · exact .inl (hlt.trans_le (h.le hx))
      · rcases h.2 x hx with hx | ⟨hx, hle⟩
        · exact .inl (heq ▸ hx)
        · exact .inr ⟨heq.trans hx, hlt.le.trans hle⟩
  · push Not at hwins
    refine ⟨Set.mem_insert_of_mem e' h.1, fun x hx => ?_⟩
    rcases hx with rfl | hx
    · rcases hwins.1.lt_or_eq with hlt | heq
      · exact .inl hlt
      · exact .inr ⟨heq, hwins.2 heq.symm⟩
    · exact h.2 x hx

theorem exists_isBest (f : ℕ → α) {s : Set ℕ} (hs : s.Finite) (hne : s.Nonempty) :
    ∃ e, IsBest f s e := by
  induction s, hs using Set.Finite.induction_on with
  | empty => exact absurd hne Set.not_nonempty_empty
  | @insert a s _ _ ih =>
    rcases s.eq_empty_or_nonempty with rfl | hs
    · exact ⟨a, by simpa using IsBest.singleton f a⟩
    · obtain ⟨e, he⟩ := ih hs
      exact ⟨_, he.insert a⟩

end

/-! ## Sums with an early exit -/

section

variable {ι α : Type*} [AddCommMonoid α] [LinearOrder α]

/-- Adds up the terms, and leaves as soon as the sum is above `best`. -/
def cappedSum (term : ι → α) (best : WithTop α) : List ι → α → α
  | [], err => err
  | i :: is, err =>
    if best < ((err + term i : α) : WithTop α) then err + term i
    else cappedSum term best is (err + term i)

theorem cappedSum_spec [IsOrderedAddMonoid α] {term : ι → α} (hterm : ∀ i, 0 ≤ term i)
    (best : WithTop α) (is : List ι) (err : α) :
    cappedSum term best is err = err + (is.map term).sum ∨
      best < ((cappedSum term best is err : α) : WithTop α) ∧
        best < ((err + (is.map term).sum : α) : WithTop α) := by
  induction is generalizing err with
  | nil => exact .inl (by simp [cappedSum])
  | cons i is ih =>
    rw [cappedSum, List.map_cons, List.sum_cons, ← add_assoc]
    split_ifs with hexit
    · refine .inr ⟨hexit, hexit.trans_le (WithTop.coe_le_coe.mpr ?_)⟩
      exact le_add_of_nonneg_right (List.sum_nonneg (by simpa using fun j _ => hterm j))
    · exact ih (err + term i)

end

/-! ## The search -/

/-- `err e best` is the error of `e` as long as it is at most `best`. -/
structure PrunedSearch (α : Type*) where
  hi : ℕ
  start : ℕ
  err : ℕ → WithTop α → α
  clips : ℕ → Bool
  bound : ℕ → α

namespace PrunedSearch

structure State (α : Type*) where
  bestE : ℕ
  bestErr : WithTop α
  lowerDone : Bool

variable {α : Type*} [LinearOrder α] (S : PrunedSearch α)

def visit (s : State α) (e : ℕ) : State α :=
  let err := S.err e s.bestErr
  if (err : WithTop α) < s.bestErr ∨ (err : WithTop α) = s.bestErr ∧ e < s.bestE then
    { s with bestE := e, bestErr := err }
  else s

def lower (s : State α) (delta : ℕ) : State α :=
  let e0 := S.start - delta
  if s.lowerDone = false ∧ 1 ≤ e0 ∧ e0 ≤ S.hi then
    if S.clips e0 = true ∧ s.bestErr < S.bound e0 then { s with lowerDone := true }
    else S.visit s e0
  else s

def upper (s : State α) (delta : ℕ) : State α :=
  let e1 := S.start + delta
  if delta ≠ 0 ∧ 1 ≤ e1 ∧ e1 ≤ S.hi then S.visit s e1 else s

def exits (s : State α) (delta : ℕ) : Prop :=
  (s.lowerDone = true ∨ S.start - delta ≤ 1) ∧ S.hi ≤ S.start + delta

instance (s : State α) (delta : ℕ) : Decidable (S.exits s delta) := instDecidableAnd

/-- `n` rounds from `delta` on. -/
def loop : ℕ → ℕ → State α → State α
  | 0, _, s => s
  | n + 1, delta, s =>
    let s' := S.upper (S.lower s delta) delta
    if S.exits s' delta then s' else loop n (delta + 1) s'

def search (n : ℕ) : ℕ := (S.loop n 0 ⟨S.start, ⊤, false⟩).bestE

/-! ## The range -/

variable {S}

theorem visit_bestE_le {s : State α} {e : ℕ} (hs : s.bestE ≤ S.hi) (he : e ≤ S.hi) :
    (S.visit s e).bestE ≤ S.hi := by
  simp only [visit]
  split_ifs
  · exact he
  · exact hs

theorem loop_bestE_le (n : ℕ) {delta : ℕ} {s : State α} (hs : s.bestE ≤ S.hi) :
    (S.loop n delta s).bestE ≤ S.hi := by
  induction n generalizing delta s with
  | zero => exact hs
  | succ n ih =>
    have hlower : (S.lower s delta).bestE ≤ S.hi := by
      simp only [lower]
      split_ifs with hgo
      · exact hs
      · exact visit_bestE_le hs hgo.2.2
      · exact hs
    have hround : (S.upper (S.lower s delta) delta).bestE ≤ S.hi := by
      simp only [upper]
      split_ifs with hgo
      · exact visit_bestE_le hlower hgo.2.2
      · exact hlower
    simp only [loop]
    split_ifs
    · exact hround
    · exact ih hround

theorem search_le (hstart : S.start ≤ S.hi) (n : ℕ) : S.search n ≤ S.hi :=
  loop_bestE_le n hstart

variable (S)

/-! ## What it needs and when it cuts -/

structure Exact (f : ℕ → α) : Prop where
  start_pos : 1 ≤ S.start
  start_le : S.start ≤ S.hi
  err : ∀ e best, S.err e best = f e ∨ best < (S.err e best : WithTop α) ∧ best < (f e : WithTop α)
  clips_anti : ∀ e e', e ≤ e' → e' ≤ S.hi → S.clips e' = true → S.clips e = true
  bound_anti : ∀ e e', e ≤ e' → e' ≤ S.hi → S.clips e' = true → S.bound e' ≤ S.bound e

/-- The bound at `e` is above the error of an index nearer to the start. -/
def Cut (f : ℕ → α) (e : ℕ) : Prop :=
  S.clips e = true ∧ ∃ e', e < e' ∧ e' < 2 * S.start - e ∧ e' ≤ S.hi ∧ f e' < S.bound e

variable {S} {f : ℕ → α}

theorem Exact.cut_anti (h : S.Exact f) {e e' : ℕ} (hle : e ≤ e') (hcut : S.Cut f e') :
    S.Cut f e := by
  obtain ⟨hclips, x, hlt, hx, hhi, herr⟩ := hcut
  have he' : e' ≤ S.hi := by omega
  exact ⟨h.clips_anti e e' hle he' hclips, x, by omega, by omega, hhi,
    herr.trans_le (h.bound_anti e e' hle he' hclips)⟩

/-! ## Rounds -/

@[simp] theorem visit_lowerDone (s : State α) (e : ℕ) :
    (S.visit s e).lowerDone = s.lowerDone := by
  simp only [visit]
  split_ifs <;> rfl

/-- The early exit does not change which index wins. -/
theorem Exact.visit_eq (h : S.Exact f) {s : State α} (hbest : s.bestErr = f s.bestE) (e : ℕ) :
    (S.visit s e).bestE = (if f e < f s.bestE ∨ f e = f s.bestE ∧ e < s.bestE then e else s.bestE) ∧
      (S.visit s e).bestErr = f (S.visit s e).bestE := by
  rcases h.err e s.bestErr with herr | ⟨hlarge, hlarge'⟩
  · rw [visit, herr, hbest]
    simp only [WithTop.coe_lt_coe, WithTop.coe_inj]
    split_ifs
    · exact ⟨rfl, rfl⟩
    · exact ⟨rfl, hbest⟩
  · have hstays : ¬ ((S.err e s.bestErr : WithTop α) < s.bestErr ∨
        (S.err e s.bestErr : WithTop α) = s.bestErr ∧ e < s.bestE) := by
      rintro (hlt | ⟨heq, -⟩)
      · exact absurd hlt hlarge.not_gt
      · exact hlarge.ne' heq
    have hstays' : ¬ (f e < f s.bestE ∨ f e = f s.bestE ∧ e < s.bestE) := by
      rw [hbest, WithTop.coe_lt_coe] at hlarge'
      rintro (hlt | ⟨heq, -⟩)
      · exact absurd hlt hlarge'.not_gt
      · exact hlarge'.ne' heq
    simp only [visit, if_neg hstays, if_neg hstays', true_and]
    exact hbest

theorem Exact.visit_isBest (h : S.Exact f) {s : State α} (hbest : s.bestErr = f s.bestE)
    {t : Set ℕ} (hs : IsBest f t s.bestE) (e : ℕ) : IsBest f (insert e t) (S.visit s e).bestE := by
  rw [(h.visit_eq hbest e).1]
  exact hs.insert e

/-- The indices from `low` to `up` above the start are visited, and `low` is `down` below
it unless the lower direction is given up. -/
structure Swept (S : PrunedSearch α) (f : ℕ → α) (down up low : ℕ) (s : State α) : Prop where
  low_pos : 1 ≤ low
  low_le : low ≤ S.start
  best : IsBest f (Set.Icc low (min S.hi (S.start + up))) s.bestE
  bestErr : s.bestErr = f s.bestE
  kept : ∀ e, low ≤ e → e < S.start → ¬ S.Cut f e
  cut : s.lowerDone = true → 2 ≤ low ∧ S.Cut f (low - 1)
  front : s.lowerDone = false → low = max 1 (S.start - down)

theorem Exact.swept_first (h : S.Exact f) :
    S.Swept f 0 0 S.start (S.upper (S.lower ⟨S.start, ⊤, false⟩ 0) 0) := by
  have herr : S.err S.start ⊤ = f S.start :=
    (h.err S.start ⊤).resolve_right fun hlarge => not_top_lt hlarge.1
  have hfirst : S.upper (S.lower ⟨S.start, ⊤, false⟩ 0) 0 = ⟨S.start, f S.start, false⟩ := by
    simp [upper, lower, visit, herr, h.start_pos, h.start_le, WithTop.coe_lt_top]
  have honly : Set.Icc S.start (min S.hi (S.start + 0)) = {S.start} := by
    rw [add_zero, min_eq_right h.start_le, Set.Icc_self]
  rw [hfirst]
  exact {
    low_pos := h.start_pos
    low_le := le_rfl
    best := honly ▸ IsBest.singleton f S.start
    bestErr := rfl
    kept := fun e hle hlt => absurd hlt (not_lt_of_ge hle)
    cut := fun hdone => absurd hdone Bool.false_ne_true
    front := fun _ => by have := h.start_pos; omega }

theorem Exact.swept_lower (h : S.Exact f) {d low : ℕ} {s : State α} (hs : S.Swept f d d low s) :
    ∃ low', S.Swept f (d + 1) d low' (S.lower s (d + 1)) := by
  have hlow := hs.low_pos
  have hlow' := hs.low_le
  have hstart := h.start_le
  by_cases hgo : s.lowerDone = false ∧ 1 ≤ S.start - (d + 1) ∧ S.start - (d + 1) ≤ S.hi
  · have hfront := hs.front hgo.1
    have hnext : low - 1 = S.start - (d + 1) := by omega
    by_cases hcut : S.clips (S.start - (d + 1)) = true ∧
        s.bestErr < S.bound (S.start - (d + 1))
    · have hlower : S.lower s (d + 1) = { s with lowerDone := true } := by
        simp only [lower, if_pos hgo, if_pos hcut]
      have hat : S.Cut f (low - 1) := by
        have hmem := hs.best.1
        rw [Set.mem_Icc, le_min_iff] at hmem
        rw [hs.bestErr, WithTop.coe_lt_coe] at hcut
        rw [hnext]
        exact ⟨hcut.1, s.bestE, by omega, by omega, hmem.2.1, hcut.2⟩
      rw [hlower]
      exact ⟨low, { hs with
        cut := fun _ => ⟨by omega, hat⟩
        front := fun hdone => absurd hdone.symm Bool.false_ne_true }⟩
    · have hlower : S.lower s (d + 1) = S.visit s (S.start - (d + 1)) := by
        simp only [lower, if_pos hgo, if_neg hcut]
      have hkept : ¬ S.Cut f (S.start - (d + 1)) := by
        rintro ⟨hclips, e', hlt, hmirror, hhi, herr⟩
        have hle : f s.bestE ≤ f e' := hs.best.le ⟨by omega, le_min hhi (by omega)⟩
        refine hcut ⟨hclips, ?_⟩
        rw [hs.bestErr, WithTop.coe_lt_coe]
        exact hle.trans_lt herr
      have hicc : insert (S.start - (d + 1)) (Set.Icc low (min S.hi (S.start + d))) =
          Set.Icc (S.start - (d + 1)) (min S.hi (S.start + d)) := by
        ext e
        simp only [Set.mem_insert_iff, Set.mem_Icc, le_min_iff]
        omega
      rw [hlower]
      exact ⟨S.start - (d + 1), {
        low_pos := hgo.2.1
        low_le := by omega
        best := hicc ▸ h.visit_isBest hs.bestErr hs.best _
        bestErr := (h.visit_eq hs.bestErr _).2
        kept := fun e hle hlt => by
          rcases hle.lt_or_eq with hgt | rfl
          · exact hs.kept e (by omega) hlt
          · exact hkept
        cut := fun hdone => by
          rw [visit_lowerDone, hgo.1] at hdone
          exact absurd hdone Bool.false_ne_true
        front := fun _ => by omega }⟩
  · have hlower : S.lower s (d + 1) = s := by simp only [lower, if_neg hgo]
    rw [hlower]
    refine ⟨low, { hs with front := fun hdone => ?_ }⟩
    have hfront := hs.front hdone
    have hsmall : ¬ 1 ≤ S.start - (d + 1) := fun hone => hgo ⟨hdone, hone, by omega⟩
    omega

theorem Exact.swept_upper (h : S.Exact f) {d low : ℕ} {s : State α}
    (hs : S.Swept f (d + 1) d low s) : S.Swept f (d + 1) (d + 1) low (S.upper s (d + 1)) := by
  have hlow := hs.low_pos
  have hlow' := hs.low_le
  by_cases hgo : S.start + (d + 1) ≤ S.hi
  · have hupper : S.upper s (d + 1) = S.visit s (S.start + (d + 1)) := by
      have hgo' : d + 1 ≠ 0 ∧ 1 ≤ S.start + (d + 1) ∧ S.start + (d + 1) ≤ S.hi := by omega
      simp only [upper, if_pos hgo']
    have hicc : insert (S.start + (d + 1)) (Set.Icc low (min S.hi (S.start + d))) =
        Set.Icc low (min S.hi (S.start + (d + 1))) := by
      ext e
      simp only [Set.mem_insert_iff, Set.mem_Icc, le_min_iff]
      omega
    rw [hupper]
    exact {
      low_pos := hlow
      low_le := hlow'
      best := hicc ▸ h.visit_isBest hs.bestErr hs.best _
      bestErr := (h.visit_eq hs.bestErr _).2
      kept := hs.kept
      cut := by rw [visit_lowerDone]; exact hs.cut
      front := by rw [visit_lowerDone]; exact hs.front }
  · have hupper : S.upper s (d + 1) = s := by
      have hgo' : ¬ (d + 1 ≠ 0 ∧ 1 ≤ S.start + (d + 1) ∧ S.start + (d + 1) ≤ S.hi) := by omega
      simp only [upper, if_neg hgo']
    have hicc : min S.hi (S.start + (d + 1)) = min S.hi (S.start + d) := by omega
    rw [hupper]
    exact { hs with best := hicc ▸ hs.best }

/-- What the search has seen at its end. -/
def Finished (S : PrunedSearch α) (f : ℕ → α) (s : State α) : Prop :=
  ∃ low, 1 ≤ low ∧ low ≤ S.start ∧ IsBest f (Set.Icc low S.hi) s.bestE ∧
    (∀ e, low ≤ e → e < S.start → ¬ S.Cut f e) ∧ (low = 1 ∨ 2 ≤ low ∧ S.Cut f (low - 1))

theorem Swept.finished {d low : ℕ} {s : State α} (hs : S.Swept f d d low s)
    (hlast : S.exits s d) : S.Finished f s := by
  have hicc : min S.hi (S.start + d) = S.hi := min_eq_left hlast.2
  refine ⟨low, hs.low_pos, hs.low_le, hicc ▸ hs.best, hs.kept, ?_⟩
  cases hdone : s.lowerDone with
  | true => exact .inr (hs.cut hdone)
  | false =>
    have hfront := hs.front hdone
    have hone := hlast.1.resolve_left (by rw [hdone]; exact Bool.false_ne_true)
    exact .inl (by omega)

theorem Exact.loop_finished (h : S.Exact f) (n : ℕ) {d low : ℕ} {s : State α}
    (hs : S.Swept f d d low s) (hgo : ¬ S.exits s d) (hn : S.hi ≤ d + n + 1) :
    S.Finished f (S.loop n (d + 1) s) := by
  have hstart := h.start_le
  have hpos := h.start_pos
  induction n generalizing d low s with
  | zero => exact absurd ⟨.inr (by omega), by omega⟩ hgo
  | succ n ih =>
    obtain ⟨low', hlower⟩ := h.swept_lower hs
    have hround := h.swept_upper hlower
    rw [loop]
    split_ifs with hexits
    · exact hround.finished hexits
    · exact ih hround hexits (by omega)

/-- `hi` rounds are enough, and the best index is found unless it was cut off. -/
theorem Exact.search_isBest_iff (h : S.Exact f) {n : ℕ} (hn : S.hi ≤ n) :
    IsBest f (Set.Icc 1 S.hi) (S.search n) ↔
      ∀ e, IsBest f (Set.Icc 1 S.hi) e → e < S.start → ¬ S.Cut f e := by
  have hfinished : S.Finished f (S.loop n 0 ⟨S.start, ⊤, false⟩) := by
    have hstart := h.start_le
    have hpos := h.start_pos
    obtain ⟨n, rfl⟩ : ∃ k, n = k + 1 := ⟨n - 1, by omega⟩
    rw [loop]
    split_ifs with hexits
    · exact h.swept_first.finished hexits
    · exact h.loop_finished n h.swept_first hexits (by omega)
  obtain ⟨low, hlow, hlow', hbest, hkept, hend⟩ := hfinished
  have hbest : IsBest f (Set.Icc low S.hi) (S.search n) := hbest
  constructor
  · intro hsearch e he hlt
    obtain rfl := he.unique hsearch
    exact hkept _ hbest.1.1 hlt
  · intro hall
    obtain ⟨e, he⟩ := exists_isBest f (Set.finite_Icc 1 S.hi)
      ⟨S.start, h.start_pos, h.start_le⟩
    have hle : low ≤ e := by
      by_contra hlt
      rcases hend with rfl | ⟨-, hcut⟩
      · exact hlt he.1.1
      · exact hall e he (by omega) (h.cut_anti (by omega) hcut)
    have hsub : Set.Icc low S.hi ⊆ Set.Icc 1 S.hi := Set.Icc_subset_Icc_left hlow
    rwa [hbest.unique (he.mono hsub ⟨hle, he.1.2⟩)]

theorem Exact.search_isBest (h : S.Exact f) {n : ℕ} (hn : S.hi ≤ n)
    (hbound : ∀ e, 1 ≤ e → e ≤ S.hi → S.clips e = true → S.bound e ≤ f e) :
    IsBest f (Set.Icc 1 S.hi) (S.search n) := by
  refine (h.search_isBest_iff hn).mpr fun e he _ hcut => ?_
  obtain ⟨hclips, e', hlt, -, hhi, herr⟩ := hcut
  have hpos : 1 ≤ e := he.1.1
  have hle : f e ≤ f e' := he.le ⟨by omega, hhi⟩
  exact absurd (hbound e hpos he.1.2 hclips) (not_le_of_gt (herr.trans_le' hle))

end PrunedSearch
end RocmFpx
