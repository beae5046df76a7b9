import Mathlib.Probability.ProbabilityMassFunction.Constructions
import RocmFpx.RejectionSampler

/-!
Verification of a whole draft: at every position that is reached the next token has the law of a
plain call in the state after the tokens before it.
-/

namespace RocmFpx
namespace RejectionSampler

open scoped ENNReal

variable (targets : List ℤ → Target) (grammarFirst : Bool) (draftModel : List ℤ → Distribution)

/-- The same with each token drafted only when its position is verified. -/
noncomputable def speculateLazily : ℕ → List ℤ → PMF (List ℤ)
  | 0, accepted =>
    (commonSamplerSample (targets accepted) grammarFirst).bind fun (_, id) => PMF.pure [id]
  | n + 1, accepted =>
    (draftModel accepted).law.bind fun drafted =>
      (verifyPosition (targets accepted) grammarFirst (draftModel accepted).entries drafted).bind
        fun
        | none => (speculateLazily n (accepted ++ [drafted])).bind fun result =>
          PMF.pure (drafted :: result)
        | some id => PMF.pure [id]

theorem speculate_lazily (n : ℕ) (accepted : List ℤ) :
    ((draftLaw draftModel n accepted).bind fun draft =>
      sampleAndAcceptNRejection targets grammarFirst accepted draft) =
      speculateLazily targets grammarFirst draftModel n accepted := by
  induction n generalizing accepted with
  | zero => simp only [draftLaw, PMF.pure_bind, sampleAndAcceptNRejection, speculateLazily]
  | succ n ih =>
    simp only [draftLaw, PMF.bind_bind, PMF.pure_bind, sampleAndAcceptNRejection, speculateLazily]
    congr 1
    funext drafted
    rw [PMF.bind_comm]
    congr 1
    funext r
    cases r with
    | none => rw [← ih, PMF.bind_bind]
    | some id => rw [PMF.bind_const]

/-- The law of a plain call. -/
noncomputable def sampleLaw (target : Target) (grammarFirst : Bool) : PMF ℤ :=
  (commonSamplerSample target grammarFirst).bind fun r => PMF.pure r.2

/-- The probability that a result begins with these tokens. -/
noncomputable def begins (result : PMF (List ℤ)) (tokens : List ℤ) : ℝ≥0∞ :=
  result.toOuterMeasure {tokens' | tokens <+: tokens'}

/-- The probability that a result has a token after these ones: the position is reached. -/
noncomputable def reaches (result : PMF (List ℤ)) (tokens : List ℤ) : ℝ≥0∞ :=
  result.toOuterMeasure {tokens' | ∃ id, tokens ++ [id] <+: tokens'}

theorem toOuterMeasure_bind_pure {α β : Type} (p : PMF α) (f : α → β) (s : Set β) :
    (p.bind fun a => PMF.pure (f a)).toOuterMeasure s = p.toOuterMeasure (Set.preimage f s) :=
  PMF.toOuterMeasure_map_apply f p s

theorem toOuterMeasure_univ {α : Type} (p : PMF α) : p.toOuterMeasure Set.univ = 1 :=
  (p.toOuterMeasure_apply_eq_one_iff _).mpr (Set.subset_univ _)

theorem toOuterMeasure_empty {α : Type} (p : PMF α) : p.toOuterMeasure ∅ = 0 :=
  p.toOuterMeasure.empty

/-! ## The first position -/

theorem begins_zero (accepted : List ℤ) (id : ℤ) :
    begins (speculateLazily targets grammarFirst draftModel 0 accepted) [id] =
      sampleLaw (targets accepted) grammarFirst id := by
  rw [begins, speculateLazily, toOuterMeasure_bind_pure, sampleLaw,
    ← PMF.toOuterMeasure_apply_singleton, toOuterMeasure_bind_pure]
  congr 1
  ext r
  simp [List.cons_prefix_cons, eq_comm]

/-- The probability of `s` after the outcome of the first position. -/
noncomputable def afterFirst (n : ℕ) (accepted : List ℤ) (s : Set (List ℤ)) (drafted : ℤ) :
    Option ℤ → ℝ≥0∞
  | none => (speculateLazily targets grammarFirst draftModel n
      (accepted ++ [drafted])).toOuterMeasure {result | drafted :: result ∈ s}
  | some id => (PMF.pure [id]).toOuterMeasure s

theorem toOuterMeasure_succ (n : ℕ) (accepted : List ℤ) (s : Set (List ℤ)) :
    (speculateLazily targets grammarFirst draftModel (n + 1) accepted).toOuterMeasure s =
      tsum fun drafted => (draftModel accepted).law drafted * tsum fun r =>
        verifyPosition (targets accepted) grammarFirst (draftModel accepted).entries drafted r *
          afterFirst targets grammarFirst draftModel n accepted s drafted r := by
  rw [speculateLazily, PMF.toOuterMeasure_bind_apply]
  refine tsum_congr fun drafted => ?_
  rw [PMF.toOuterMeasure_bind_apply]
  congr 1
  refine tsum_congr fun r => ?_
  cases r with
  | none => rw [toOuterMeasure_bind_pure]; rfl
  | some id => rfl

theorem begins_succ (n : ℕ) (accepted : List ℤ) (id : ℤ) :
    begins (speculateLazily targets grammarFirst draftModel (n + 1) accepted) [id] =
      sampleLaw (targets accepted) grammarFirst id := by
  rw [begins, toOuterMeasure_succ, sampleLaw, ← verifyPosition_law _ _ (draftModel accepted),
    PMF.bind_apply]
  refine tsum_congr fun drafted => ?_
  rw [PMF.bind_apply]
  congr 1
  refine tsum_congr fun r => ?_
  congr 1
  cases r with
  | none =>
    by_cases hid : drafted = id
    · have hall : {result | drafted :: result ∈ {tokens' | [id] <+: tokens'}} = Set.univ := by
        ext result
        simp [List.cons_prefix_cons, hid]
      rw [afterFirst, hall, toOuterMeasure_univ, Option.getD_none, PMF.pure_apply,
        if_pos hid.symm]
    · have hnone : {result | drafted :: result ∈ {tokens' | [id] <+: tokens'}} = ∅ := by
        ext result
        simp [List.cons_prefix_cons, Ne.symm hid]
      rw [afterFirst, hnone, toOuterMeasure_empty, Option.getD_none, PMF.pure_apply,
        if_neg (Ne.symm hid)]
  | some id' =>
    rw [afterFirst, PMF.toOuterMeasure_pure_apply, Option.getD_some, PMF.pure_apply]
    simp [List.cons_prefix_cons]

theorem reaches_nil (n : ℕ) (accepted : List ℤ) :
    reaches (speculateLazily targets grammarFirst draftModel n accepted) [] = 1 := by
  have hcons : ∀ (id : ℤ) (result : List ℤ), ∃ id', [] ++ [id'] <+: id :: result :=
    fun id result => ⟨id, List.cons_prefix_cons.mpr ⟨rfl, List.nil_prefix⟩⟩
  rw [reaches]
  cases n with
  | zero =>
    rw [speculateLazily, toOuterMeasure_bind_pure]
    convert toOuterMeasure_univ _
    exact Set.eq_univ_of_forall fun r => hcons r.2 []
  | succ n =>
    have hall : ∀ drafted : ℤ, {result | drafted :: result ∈
        {tokens' : List ℤ | ∃ id, [] ++ [id] <+: tokens'}} = Set.univ :=
      fun drafted => Set.eq_univ_of_forall (hcons drafted)
    rw [toOuterMeasure_succ]
    have hone : ∀ drafted r, afterFirst targets grammarFirst draftModel n accepted
        {tokens' : List ℤ | ∃ id, [] ++ [id] <+: tokens'} drafted r = 1 := by
      intro drafted r
      cases r with
      | none => rw [afterFirst, hall, toOuterMeasure_univ]
      | some id =>
        rw [afterFirst, PMF.toOuterMeasure_pure_apply]
        exact if_pos (hcons id [])
    simp only [hone, mul_one, PMF.tsum_coe]

/-! ## Later positions -/

theorem toOuterMeasure_cons (n : ℕ) (accepted : List ℤ) {s : Set (List ℤ)} {token : ℤ}
    (hs : ∀ result ∈ s, ∃ rest, rest ≠ [] ∧ result = token :: rest) :
    (speculateLazily targets grammarFirst draftModel (n + 1) accepted).toOuterMeasure s =
      (draftModel accepted).law token *
        (verifyPosition (targets accepted) grammarFirst (draftModel accepted).entries token none *
          (speculateLazily targets grammarFirst draftModel n
            (accepted ++ [token])).toOuterMeasure {result | token :: result ∈ s}) := by
  have hsingle : ∀ id, [id] ∉ s := by
    intro id hmem
    obtain ⟨rest, hne, heq⟩ := hs _ hmem
    exact hne (List.cons.inj heq).2.symm
  have hother : ∀ drafted, drafted ≠ token → {result | drafted :: result ∈ s} = ∅ := by
    intro drafted hne
    refine Set.eq_empty_of_forall_notMem fun result hmem => ?_
    obtain ⟨rest, -, heq⟩ := hs _ hmem
    exact hne (List.cons.inj heq).1
  have hrejected : ∀ id, (PMF.pure [id]).toOuterMeasure s = 0 := fun id => by
    rw [PMF.toOuterMeasure_pure_apply, if_neg (hsingle id)]
  rw [toOuterMeasure_succ, tsum_eq_single token]
  · congr 1
    rw [tsum_eq_single none]
    · rw [afterFirst]
    · intro r hr
      cases r with
      | none => exact absurd rfl hr
      | some id => rw [afterFirst, hrejected, mul_zero]
  · intro drafted hne
    have hzero : ∀ r, afterFirst targets grammarFirst draftModel n accepted s drafted r = 0 := by
      intro r
      cases r with
      | none => rw [afterFirst, hother drafted hne, toOuterMeasure_empty]
      | some id => rw [afterFirst, hrejected]
    simp only [hzero, mul_zero, tsum_zero]

theorem prefix_cons_rest {token id : ℤ} {tokens result : List ℤ}
    (h : (token :: tokens) ++ [id] <+: result) :
    ∃ rest, rest ≠ [] ∧ result = token :: rest := by
  obtain ⟨tail, rfl⟩ := h
  exact ⟨tokens ++ [id] ++ tail, by simp, by simp⟩

theorem speculateLazily_begins (n : ℕ) (accepted tokens : List ℤ) (id : ℤ) :
    begins (speculateLazily targets grammarFirst draftModel n accepted) (tokens ++ [id]) =
      reaches (speculateLazily targets grammarFirst draftModel n accepted) tokens *
        sampleLaw (targets (accepted ++ tokens)) grammarFirst id := by
  induction tokens generalizing n accepted with
  | nil =>
    rw [reaches_nil, one_mul, List.append_nil, List.nil_append]
    cases n with
    | zero => exact begins_zero targets grammarFirst draftModel accepted id
    | succ n => exact begins_succ targets grammarFirst draftModel n accepted id
  | cons token tokens ih =>
    cases n with
    | zero =>
      -- there is only one token left
      have hshort : ∀ (id id' : ℤ), ¬(token :: tokens) ++ [id] <+: [id'] := by
        intro id id' hpre
        have hlength := hpre.length_le
        simp at hlength
      rw [begins, reaches, speculateLazily, toOuterMeasure_bind_pure, toOuterMeasure_bind_pure]
      have hbegins : Set.preimage (fun r : Distribution × ℤ => [r.2])
          {tokens' | (token :: tokens) ++ [id] <+: tokens'} = ∅ :=
        Set.eq_empty_of_forall_notMem fun r => hshort id r.2
      have hreaches : Set.preimage (fun r : Distribution × ℤ => [r.2])
          {tokens' | ∃ id, (token :: tokens) ++ [id] <+: tokens'} = ∅ :=
        Set.eq_empty_of_forall_notMem fun r ⟨id, hpre⟩ => hshort id r.2 hpre
      rw [hbegins, hreaches, toOuterMeasure_empty, zero_mul]
    | succ n =>
      have hbegins : {result | token :: result ∈ {tokens' : List ℤ |
          (token :: tokens) ++ [id] <+: tokens'}} = {tokens' | tokens ++ [id] <+: tokens'} := by
        ext result
        simp [List.cons_prefix_cons]
      have hreaches : {result | token :: result ∈ {tokens' : List ℤ |
          ∃ id, (token :: tokens) ++ [id] <+: tokens'}} =
          {tokens' | ∃ id, tokens ++ [id] <+: tokens'} := by
        ext result
        simp [List.cons_prefix_cons]
      have hcons := toOuterMeasure_cons targets grammarFirst draftModel n accepted
        (s := {tokens' | (token :: tokens) ++ [id] <+: tokens'}) fun result => prefix_cons_rest
      have hcons' := toOuterMeasure_cons targets grammarFirst draftModel n accepted
        (s := {tokens' | ∃ id, (token :: tokens) ++ [id] <+: tokens'})
        fun result ⟨id, h⟩ => prefix_cons_rest h
      rw [begins, reaches, hcons, hcons', hbegins, hreaches]
      have hrest := ih n (accepted ++ [token])
      rw [begins, reaches, List.append_assoc, List.singleton_append] at hrest
      rw [hrest, mul_assoc, mul_assoc]

/-- Verification by rejection emits, at every draft position it reaches, a token with the law of a
plain call of the sampler in the same state. -/
theorem speculate_begins (n : ℕ) (tokens : List ℤ) (id : ℤ) :
    begins (speculate targets grammarFirst draftModel n) (tokens ++ [id]) =
      reaches (speculate targets grammarFirst draftModel n) tokens *
        sampleLaw (targets tokens) grammarFirst id := by
  rw [speculate, speculate_lazily]
  exact speculateLazily_begins targets grammarFirst draftModel n [] tokens id

end RejectionSampler
end RocmFpx
