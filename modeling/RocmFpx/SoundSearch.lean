import RocmFpx.PrunedSearch

/-!
The pruned search with a bound that is a lower bound of the error, from any initial
error. Everything the search skips is covered by what it holds, so at its end no index
is better; it holds its initial state only if no index has an error below the initial one.
-/

namespace RocmFpx.PrunedSearch

variable {α : Type*} [LinearOrder α] {S : PrunedSearch α} {f : ℕ → α}

/-- The index `e` would not improve the state. -/
def State.Covers (f : ℕ → α) (s : State α) (e : ℕ) : Prop :=
  s.bestErr < f e ∨ s.bestErr = f e ∧ s.bestE ≤ e

/-- The state is the initial one or holds an index of the range that improved it. -/
def State.Held (S : PrunedSearch α) (f : ℕ → α) (e₀ : ℕ) (b₀ : WithTop α) (s : State α) : Prop :=
  s.bestE = e₀ ∧ s.bestErr = b₀ ∨
    s.bestE ∈ Set.Icc 1 S.hi ∧ s.bestErr = f s.bestE ∧
      (s.bestErr < b₀ ∨ s.bestErr = b₀ ∧ s.bestE < e₀)

structure Sound (S : PrunedSearch α) (f : ℕ → α) : Prop extends S.Exact f where
  bound_le : ∀ e, 1 ≤ e → e ≤ S.hi → S.clips e = true → S.bound e ≤ f e

theorem Exact.visit_cases (h : S.Exact f) (s : State α) (e : ℕ) :
    (s.Covers f e ∧ S.visit s e = s) ∨
      ((f e < s.bestErr ∨ (f e : WithTop α) = s.bestErr ∧ e < s.bestE) ∧
        S.visit s e = { s with bestE := e, bestErr := f e }) := by
  rcases h.err e s.bestErr with herr | ⟨hlarge, hlarge'⟩
  · by_cases hwins : (f e : WithTop α) < s.bestErr ∨ (f e : WithTop α) = s.bestErr ∧ e < s.bestE
    · exact .inr ⟨hwins, by rw [visit, herr, if_pos hwins]⟩
    · refine .inl ⟨?_, by rw [visit, herr, if_neg hwins]⟩
      push Not at hwins
      rcases hwins.1.lt_or_eq with hlt | heq
      · exact .inl hlt
      · exact .inr ⟨heq, hwins.2 heq.symm⟩
  · refine .inl ⟨.inl hlarge', ?_⟩
    rw [visit, if_neg]
    rintro (hlt | ⟨heq, -⟩)
    · exact absurd hlt hlarge.not_gt
    · exact hlarge.ne' heq

theorem Exact.visit_covers (h : S.Exact f) (s : State α) (e : ℕ) :
    (S.visit s e).Covers f e := by
  rcases h.visit_cases s e with ⟨hcovers, heq⟩ | ⟨-, heq⟩
  · rw [heq]
    exact hcovers
  · rw [heq]
    exact .inr ⟨rfl, le_rfl⟩

theorem Exact.visit_keeps (h : S.Exact f) {s : State α} {e e' : ℕ} (hs : s.Covers f e') :
    (S.visit s e).Covers f e' := by
  rcases h.visit_cases s e with ⟨-, heq⟩ | ⟨hwins, heq⟩
  · rw [heq]
    exact hs
  · rw [heq]
    rcases hwins with hlt | ⟨hsame, hlt⟩
    · rcases hs with hs | ⟨hs, -⟩
      · exact .inl (hlt.trans hs)
      · exact .inl (hs ▸ hlt)
    · rcases hs with hs | ⟨hs, hle⟩
      · exact .inl (hsame ▸ hs)
      · exact .inr ⟨hsame.trans hs, hlt.le.trans hle⟩

theorem Exact.visit_held (h : S.Exact f) {e₀ : ℕ} {b₀ : WithTop α} {s : State α} {e : ℕ}
    (hs : s.Held S f e₀ b₀) (he : e ∈ Set.Icc 1 S.hi) : (S.visit s e).Held S f e₀ b₀ := by
  rcases h.visit_cases s e with ⟨-, heq⟩ | ⟨hwins, heq⟩
  · rw [heq]
    exact hs
  · rw [heq]
    refine .inr ⟨he, rfl, ?_⟩
    rcases hs with ⟨hinit, hinit'⟩ | ⟨-, -, hbetter⟩
    · rw [← hinit, ← hinit']
      exact hwins
    · rcases hwins with hlt | ⟨hsame, hlt⟩
      · rcases hbetter with hb | ⟨hb, -⟩
        · exact .inl (hlt.trans hb)
        · exact .inl (hb ▸ hlt)
      · rcases hbetter with hb | ⟨hb, hlt'⟩
        · exact .inl (hsame ▸ hb)
        · exact .inr ⟨hsame.trans hb, hlt.trans hlt'⟩

/-! ## Rounds -/

/-- What the rounds up to `d` have settled. -/
structure Settled (S : PrunedSearch α) (f : ℕ → α) (e₀ : ℕ) (b₀ : WithTop α) (down up : ℕ)
    (s : State α) : Prop where
  held : s.Held S f e₀ b₀
  below : ∀ e, 1 ≤ e → e ≤ S.start → S.start < e + down → s.Covers f e
  above : ∀ e, S.start < e → e ≤ S.hi → e < S.start + up → s.Covers f e
  done : s.lowerDone = true → ∀ e, 1 ≤ e → e ≤ S.start → s.Covers f e

theorem Sound.settled_lower (h : S.Sound f) {e₀ : ℕ} {b₀ : WithTop α} {d up : ℕ} {s : State α}
    (hs : S.Settled f e₀ b₀ d up s) : S.Settled f e₀ b₀ (d + 1) up (S.lower s d) := by
  have hstart := h.start_le
  by_cases hgo : s.lowerDone = false ∧ 1 ≤ S.start - d ∧ S.start - d ≤ S.hi
  · by_cases hcut : S.clips (S.start - d) = true ∧ s.bestErr < S.bound (S.start - d)
    · have hlower : S.lower s d = { s with lowerDone := true } := by
        simp only [lower, if_pos hgo, if_pos hcut]
      -- the bound of a lower index is larger still
      have hcovers : ∀ e, 1 ≤ e → e ≤ S.start → s.Covers f e := by
        intro e he he'
        rcases Nat.lt_or_ge S.start (e + d) with hlt | hge
        · exact hs.below e he he' hlt
        · have hle : e ≤ S.start - d := by omega
          have hclips := h.clips_anti e _ hle hgo.2.2 hcut.1
          have hbound : S.bound (S.start - d) ≤ f e :=
            (h.bound_anti e _ hle hgo.2.2 hcut.1).trans (h.bound_le e he (by omega) hclips)
          exact .inl (hcut.2.trans_le (WithTop.coe_le_coe.mpr hbound))
      rw [hlower]
      exact ⟨hs.held, fun e he he' _ => hcovers e he he', hs.above, fun _ => hcovers⟩
    · have hlower : S.lower s d = S.visit s (S.start - d) := by
        simp only [lower, if_pos hgo, if_neg hcut]
      rw [hlower]
      refine ⟨h.visit_held hs.held ⟨hgo.2.1, hgo.2.2⟩, fun e he he' hlt => ?_,
        fun e he he' hlt => h.visit_keeps (hs.above e he he' hlt), fun hdone => ?_⟩
      · rcases Nat.lt_or_ge S.start (e + d) with hnear | hfar
        · exact h.visit_keeps (hs.below e he he' hnear)
        · obtain rfl : e = S.start - d := by omega
          exact h.visit_covers s _
      · rw [visit_lowerDone, hgo.1] at hdone
        exact absurd hdone Bool.false_ne_true
  · have hlower : S.lower s d = s := by simp only [lower, if_neg hgo]
    rw [hlower]
    refine ⟨hs.held, fun e he he' hlt => ?_, hs.above, hs.done⟩
    cases hdone : s.lowerDone with
    | true => exact hs.done hdone e he he'
    | false =>
      have hsmall : ¬ 1 ≤ S.start - d := fun hone => hgo ⟨hdone, hone, by omega⟩
      exact hs.below e he he' (by omega)

theorem Sound.settled_upper (h : S.Sound f) {e₀ : ℕ} {b₀ : WithTop α} {d : ℕ} {s : State α}
    (hs : S.Settled f e₀ b₀ (d + 1) d s) : S.Settled f e₀ b₀ (d + 1) (d + 1) (S.upper s d) := by
  have hpos := h.start_pos
  by_cases hgo : d ≠ 0 ∧ 1 ≤ S.start + d ∧ S.start + d ≤ S.hi
  · have hupper : S.upper s d = S.visit s (S.start + d) := by simp only [upper, if_pos hgo]
    rw [hupper]
    refine ⟨h.visit_held hs.held ⟨hgo.2.1, hgo.2.2⟩,
      fun e he he' hlt => h.visit_keeps (hs.below e he he' hlt), fun e he he' hlt => ?_,
      fun hdone e he he' => ?_⟩
    · rcases Nat.lt_or_ge e (S.start + d) with hnear | hfar
      · exact h.visit_keeps (hs.above e he he' hnear)
      · obtain rfl : e = S.start + d := by omega
        exact h.visit_covers s _
    · rw [visit_lowerDone] at hdone
      exact h.visit_keeps (hs.done hdone e he he')
  · have hupper : S.upper s d = s := by simp only [upper, if_neg hgo]
    rw [hupper]
    refine ⟨hs.held, hs.below, fun e he he' hlt => hs.above e he he' ?_, hs.done⟩
    by_contra hfar
    exact hgo ⟨by omega, by omega, by omega⟩

theorem Sound.loop_covers (h : S.Sound f) {e₀ : ℕ} {b₀ : WithTop α} (n : ℕ) {d : ℕ}
    {s : State α} (hs : S.Settled f e₀ b₀ d d s) (hn : S.hi ≤ d + n) (hdn : 0 < n) :
    (S.loop n d s).Held S f e₀ b₀ ∧ ∀ e ∈ Set.Icc 1 S.hi, (S.loop n d s).Covers f e := by
  have hstart := h.start_le
  have hpos := h.start_pos
  induction n generalizing d s with
  | zero => exact absurd hdn (lt_irrefl 0)
  | succ n ih =>
    have hround := h.settled_upper (h.settled_lower hs)
    rw [loop]
    have hend : (S.upper (S.lower s d) d).lowerDone = true ∨ S.start - d ≤ 1 →
        S.hi ≤ S.start + d →
        ∀ e ∈ Set.Icc 1 S.hi, (S.upper (S.lower s d) d).Covers f e := by
      rintro hlow hhigh e ⟨he, he'⟩
      rcases Nat.lt_or_ge S.start e with hgt | hle
      · exact hround.above e hgt he' (by omega)
      · rcases hlow with hdone | hfew
        · exact hround.done hdone e he hle
        · exact hround.below e he hle (by omega)
    split_ifs with hexits
    · exact ⟨hround.held, hend hexits.1 hexits.2⟩
    · rcases Nat.eq_zero_or_pos n with rfl | hn'
      · exact ⟨hround.held, hend (.inr (by omega)) (by omega)⟩
      · exact ih hround (by omega) hn'

theorem Sound.loop_isBest_iff (h : S.Sound f) {n : ℕ} (hn : S.hi ≤ n) (b₀ : WithTop α) :
    IsBest f (Set.Icc 1 S.hi) (S.loop n 0 ⟨0, b₀, false⟩).bestE ↔
      ∃ e ∈ Set.Icc 1 S.hi, (f e : WithTop α) < b₀ := by
  have hstart := h.start_le
  have hpos := h.start_pos
  have hfirst : S.Settled f 0 b₀ 0 0 ⟨0, b₀, false⟩ :=
    ⟨.inl ⟨rfl, rfl⟩, fun e he he' hlt => absurd hlt (by omega),
      fun e he he' hlt => absurd hlt (by omega), fun hdone => absurd hdone Bool.false_ne_true⟩
  obtain ⟨hheld, hcovers⟩ := h.loop_covers n hfirst (by omega) (by omega)
  constructor
  · intro hbest
    rcases hheld with ⟨hinit, -⟩ | ⟨hmem, herr, hbetter⟩
    · exact absurd hbest.1.1 (by rw [hinit]; decide)
    · refine ⟨_, hmem, ?_⟩
      rw [← herr]
      exact hbetter.resolve_right fun hlow => Nat.not_lt_zero _ hlow.2
  · rintro ⟨e, he, hlt⟩
    rcases hheld with ⟨-, herr⟩ | ⟨hmem, herr, -⟩
    · rcases hcovers e he with hc | ⟨hc, -⟩
      · exact absurd (herr ▸ hc) hlt.not_gt
      · exact absurd (herr ▸ hc).symm hlt.ne
    · refine ⟨hmem, fun e' he' => ?_⟩
      have := hcovers e' he'
      rw [State.Covers, herr, WithTop.coe_lt_coe, WithTop.coe_inj] at this
      exact this

end RocmFpx.PrunedSearch
