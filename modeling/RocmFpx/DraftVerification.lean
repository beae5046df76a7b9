import RocmFpx.RejectionSampler

/-!
The two loops that verify a draft against the target, from any state of the sampler: by comparing
with the token the target samples, and by rejection.
-/

namespace RocmFpx
namespace DraftVerification

open RejectionSampler

variable {σ K : Type} [Field K] [LinearOrder K]

/-- What the loops use of a `common_sampler`: `sample` at an output index leaves the candidates in
`curP`, `uni` draws from the sampler's own stream. -/
structure Sampler (σ K : Type) where
  sample : σ → ℤ → Bool → σ × ℤ
  accept : σ → ℤ → σ
  curP : σ → List (Candidate K)
  grammarShouldApply : σ → Bool
  grammar : σ → ℤ → Bool
  uni : σ → σ × K

namespace Sampler

variable (S : Sampler σ K) (isEog : ℤ → Bool) (grammarFirst : Bool)

def sampleAndAccept (s : σ) (idx : ℤ) : σ × ℤ :=
  let (s, id) := S.sample s idx grammarFirst
  (S.accept s id, id)

/-- The loop of `common_sampler_sample_and_accept_n`. -/
def acceptMatching : σ → List ℤ → List ℤ → σ × List ℤ
  | s, [], _ => (s, [])
  | s, idx :: _, [] =>
    let (s, id) := S.sampleAndAccept grammarFirst s idx
    (s, [id])
  | s, idx :: idxs, drafted :: draft =>
    let (s, id) := S.sampleAndAccept grammarFirst s idx
    if drafted ≠ id ∨ (isEog id ∧ draft ≠ []) then (s, [id])
    else
      let (s, result) := acceptMatching s idxs draft
      (s, id :: result)

/-- `common_sampler_sample_and_accept_n`; `none` is a failed assertion. -/
def sampleAndAcceptN (s : σ) (idxs draft : List ℤ) : Option (σ × List ℤ) :=
  if idxs.length = draft.length + 1 then some (S.acceptMatching isEog grammarFirst s idxs draft)
  else none

/-- The target at a position, in the state that `sample` left. -/
def target (s : σ) : List (ℤ × K) :=
  pOf (!grammarFirst && S.grammarShouldApply s) (S.grammar s) (getCandidates (S.curP s))

/-- The test of a drafted token; a draw is taken only when it decides. -/
def test (s : σ) (q : List (Candidate K)) (drafted : ℤ) : σ × Bool :=
  let qX := probOf q drafted
  let pX := weightOf (S.target grammarFirst s) drafted
  let (s, u) := if 0 < qX ∧ pX < qX then S.uni s else (s, 0)
  (s, accepts qX pX u)

/-- What takes the place of a rejected token. -/
def replace (s : σ) (p : List (ℤ × K)) (q : List (Candidate K)) (idTgt : ℤ) : σ × ℤ :=
  if residualSum p q > 0 then
    let (s, u) := S.uni s
    (s, drawResidual p q u)
  else (s, idTgt)

/-- The loop of `common_sampler_sample_and_accept_n_rejection`, each token with the candidates it
was drawn from. -/
def acceptRejecting : σ → List ℤ → List (ℤ × List (Candidate K)) → σ × List ℤ
  | s, [], _ => (s, [])
  | s, idx :: _, [] =>
    let (s, id) := S.sampleAndAccept grammarFirst s idx
    (s, [id])
  | s, idx :: idxs, (drafted, q) :: draft =>
    let (s, idTgt) := S.sample s idx grammarFirst
    let p := S.target grammarFirst s
    let (s, accepted) := S.test grammarFirst s q drafted
    if accepted then
      let (s, result) := acceptRejecting (S.accept s drafted) idxs draft
      (s, drafted :: result)
    else
      let (s, id) := S.replace s p q idTgt
      (S.accept s id, [id])

def sampleAndAcceptNRejection (s : σ) (idxs draft : List ℤ) (draftQ : List (List (Candidate K))) :
    Option (σ × List ℤ) :=
  if idxs.length = draft.length + 1 ∧ draftQ.length = draft.length then
    some (S.acceptRejecting grammarFirst s idxs (draft.zip draftQ))
  else none

/-- How many tokens of the draft pass the test in a row. -/
def passed : σ → List ℤ → List (ℤ × List (Candidate K)) → ℕ
  | _, [], _ => 0
  | _, _ :: _, [] => 0
  | s, idx :: idxs, (drafted, q) :: draft =>
    let t := S.test grammarFirst (S.sample s idx grammarFirst).1 q drafted
    if t.2 then passed (S.accept t.1 drafted) idxs draft + 1 else 0

end Sampler

/-- The first `k` tokens are those of the draft, none of them after an end of generation, and one
token of the target follows them unless the last is itself an accepted end of generation. -/
def Verified (isEog : ℤ → Bool) (draft result : List ℤ) : Prop :=
  ∃ k ≤ draft.length, result.take k = draft.take k ∧
    (∀ t ∈ (draft.take k).dropLast, isEog t = false) ∧
    (result.length = k + 1 ∨ result.length = k ∧ ∃ t ∈ result.getLast?, isEog t = true)

variable {S : Sampler σ K} {isEog : ℤ → Bool} {grammarFirst : Bool}

theorem verified_single (draft : List ℤ) (id : ℤ) : Verified isEog draft [id] :=
  ⟨0, Nat.zero_le _, rfl, fun _ h => absurd h List.not_mem_nil, .inl rfl⟩

theorem Verified.cons {drafted : ℤ} {draft result : List ℤ}
    (hstop : isEog drafted = true → draft = []) (hresult : result ≠ [])
    (h : Verified isEog draft result) : Verified isEog (drafted :: draft) (drafted :: result) := by
  obtain ⟨k, hk, htake, hclean, hend⟩ := h
  refine ⟨k + 1, Nat.succ_le_succ hk, congrArg (drafted :: ·) htake, fun t ht => ?_, ?_⟩
  · rw [List.take_succ_cons] at ht
    cases hrest : draft.take k with
    | nil =>
      rw [hrest] at ht
      exact absurd ht List.not_mem_nil
    | cons d rest =>
      rw [hrest, List.dropLast_cons_of_ne_nil (List.cons_ne_nil d rest), List.mem_cons] at ht
      rcases ht with rfl | ht
      · refine Bool.eq_false_iff.mpr fun heog => ?_
        rw [hstop heog, List.take_nil] at hrest
        cases hrest
      · exact hclean t (hrest ▸ ht)
  · rw [List.length_cons, List.getLast?_cons_of_ne_nil hresult]
    exact hend.imp (congrArg (· + 1)) fun h => ⟨congrArg (· + 1) h.1, h.2⟩

omit [Field K] [LinearOrder K] in
theorem acceptMatching_ne_nil (s : σ) (idx : ℤ) (idxs draft : List ℤ) :
    (S.acceptMatching isEog grammarFirst s (idx :: idxs) draft).2 ≠ [] := by
  cases draft with
  | nil => exact List.cons_ne_nil _ _
  | cons drafted draft =>
    rw [Sampler.acceptMatching]
    dsimp only
    split_ifs <;> exact List.cons_ne_nil _ _

omit [Field K] [LinearOrder K] in
theorem acceptMatching_verified (s : σ) (idxs draft : List ℤ)
    (hlen : idxs.length = draft.length + 1) :
    Verified isEog draft (S.acceptMatching isEog grammarFirst s idxs draft).2 := by
  induction draft generalizing s idxs with
  | nil =>
    obtain ⟨idx, idxs, rfl⟩ := List.exists_cons_of_length_eq_add_one hlen
    exact verified_single _ _
  | cons drafted draft ih =>
    obtain ⟨idx, idxs, rfl⟩ := List.exists_cons_of_length_eq_add_one hlen
    have hlen : idxs.length = draft.length + 1 := Nat.succ.inj hlen
    obtain ⟨idx', idxs, rfl⟩ := List.exists_cons_of_length_eq_add_one hlen
    rw [Sampler.acceptMatching]
    dsimp only
    split_ifs with hstop
    · exact verified_single _ _
    · obtain ⟨hsame, hgoes⟩ := not_or.mp hstop
      rw [← not_not.mp hsame] at hgoes ⊢
      exact (ih _ _ hlen).cons (fun heog => not_not.mp fun hne => hgoes ⟨heog, hne⟩)
        (acceptMatching_ne_nil _ _ _ _)

/-- Rejection takes the tokens that pass the test and one token after them. -/
theorem acceptRejecting_eq (s : σ) (idxs : List ℤ) (draft : List (ℤ × List (Candidate K)))
    (hlen : idxs.length = draft.length + 1) :
    S.passed grammarFirst s idxs draft ≤ draft.length ∧
      ∃ id, (S.acceptRejecting grammarFirst s idxs draft).2 =
        (draft.map Prod.fst).take (S.passed grammarFirst s idxs draft) ++ [id] := by
  induction draft generalizing s idxs with
  | nil =>
    obtain ⟨idx, idxs, rfl⟩ := List.exists_cons_of_length_eq_add_one hlen
    exact ⟨le_rfl, _, rfl⟩
  | cons d draft ih =>
    obtain ⟨idx, idxs, rfl⟩ := List.exists_cons_of_length_eq_add_one hlen
    obtain ⟨hle, id, heq⟩ := ih (S.accept (S.test grammarFirst
      (S.sample s idx grammarFirst).1 d.2 d.1).1 d.1) idxs (Nat.succ.inj hlen)
    rw [Sampler.acceptRejecting, Sampler.passed]
    dsimp only
    split_ifs with hpass
    · exact ⟨Nat.succ_le_succ hle, id, congrArg (d.1 :: ·) heq⟩
    · exact ⟨Nat.zero_le _, _, rfl⟩

theorem verified_append_iff {draft : List ℤ} {n : ℕ} (hn : n ≤ draft.length) (id : ℤ) :
    Verified isEog draft (draft.take n ++ [id]) ↔
      ∀ t ∈ (draft.take n).dropLast, isEog t = false := by
  have hlength : (draft.take n ++ [id]).length = n + 1 := by
    rw [List.length_append, List.length_take, min_eq_left hn, List.length_singleton]
  constructor
  · rintro ⟨k, -, -, hclean, hend⟩ t ht
    have hle : n ≤ k := by omega
    have hpre : (draft.take n).dropLast <+: (draft.take k).dropLast := by
      rw [List.dropLast_take_eq_take_dropLast, List.dropLast_take_eq_take_dropLast]
      exact List.take_prefix_take_left (Nat.sub_le_sub_right hle 1)
    exact hclean t (hpre.subset ht)
  · exact fun hclean => ⟨n, hn, List.take_left' (List.length_take_of_le hn), hclean, .inl hlength⟩

/-- Comparing never goes on after an end of generation; rejection does when the token after it
passes the test too. -/
theorem verified_iff (S : Sampler σ K) (isEog : ℤ → Bool) (grammarFirst : Bool) (s : σ)
    (idxs draft : List ℤ) (draftQ : List (List (Candidate K)))
    (hidxs : idxs.length = draft.length + 1) (hq : draftQ.length = draft.length) :
    (∃ r ∈ S.sampleAndAcceptN isEog grammarFirst s idxs draft, Verified isEog draft r.2) ∧
    ∃ r ∈ S.sampleAndAcceptNRejection grammarFirst s idxs draft draftQ,
      (Verified isEog draft r.2 ↔
        ∀ t ∈ (draft.take (S.passed grammarFirst s idxs (draft.zip draftQ))).dropLast,
          isEog t = false) := by
  have hzip : (draft.zip draftQ).length = draft.length := by
    rw [List.length_zip, hq, min_self]
  obtain ⟨hle, id, heq⟩ : S.passed grammarFirst s idxs (draft.zip draftQ) ≤ _ ∧ _ :=
    acceptRejecting_eq s idxs (draft.zip draftQ) (by rw [hzip, hidxs])
  rw [List.map_fst_zip hq.ge] at heq
  refine ⟨⟨_, if_pos hidxs, acceptMatching_verified s idxs draft hidxs⟩,
    ⟨_, if_pos ⟨hidxs, hq⟩, ?_⟩⟩
  rw [heq]
  exact verified_append_iff (hzip ▸ hle) id

/-! ## A sampler that counts -/

/-- The target goes on with the number of tokens so far. -/
def counting : Sampler ℕ ℚ where
  sample s _ _ := (s, s + 1)
  accept s _ := s + 1
  curP s := [⟨s + 1, (0 : ℚ), 1⟩]
  grammarShouldApply _ := false
  grammar _ _ := true
  uni s := (s, 0)

theorem counting_verified_iff :
    (∃ r ∈ counting.sampleAndAcceptN (· = 2) false 0 [0, 1, 2] [1, 2], Verified (· = 2) [1, 2] r.2) ∧
    ∃ r ∈ counting.sampleAndAcceptNRejection false 0 [0, 1, 2] [1, 2]
        [[⟨1, (0 : ℚ), 1⟩], [⟨2, (0 : ℚ), 1⟩]],
      (Verified (· = 2) [1, 2] r.2 ↔
        ∀ t ∈ (([1, 2] : List ℤ).take (counting.passed false 0 [0, 1, 2] (([1, 2] : List ℤ).zip
          [[⟨1, (0 : ℚ), 1⟩], [⟨2, (0 : ℚ), 1⟩]]))).dropLast, (decide (t = 2)) = false) :=
  verified_iff counting (· = 2) false 0 [0, 1, 2] [1, 2] _ rfl rfl

/-- The first token ends the generation, and the second is accepted after it. -/
theorem counting_accepts_past_end : ¬ ∀ (S : Sampler ℕ ℚ) (isEog : ℤ → Bool) (grammarFirst : Bool)
    (s : ℕ) (idxs draft : List ℤ) (draftQ : List (List (Candidate ℚ))),
    idxs.length = draft.length + 1 → draftQ.length = draft.length →
    ∃ r ∈ S.sampleAndAcceptNRejection grammarFirst s idxs draft draftQ,
      Verified isEog draft r.2 := by
  intro h
  obtain ⟨r, hr, k, hk, -, hclean, hend⟩ := h counting (· = 1) false 0 [0, 1, 2] [1, 2]
    [[⟨1, (0 : ℚ), 1⟩], [⟨2, (0 : ℚ), 1⟩]] rfl rfl
  have htest : ∀ (s : ℕ) (id : ℤ), id = s + 1 →
      counting.test false s [⟨id, (0 : ℚ), 1⟩] id = (s, true) := by
    rintro s id rfl
    simp [Sampler.test, Sampler.target, counting, getCandidates, pOf, pRaw, weightOf, probOf,
      accepts]
  have hrun : counting.acceptRejecting false 0 [0, 1, 2]
      (([1, 2] : List ℤ).zip [[⟨1, (0 : ℚ), 1⟩], [⟨2, (0 : ℚ), 1⟩]]) = (3, [1, 2, 3]) := by
    simp only [List.zip_cons_cons, List.zip_nil_right, Sampler.acceptRejecting]
    rw [show (counting.sample 0 0 false).1 = 0 from rfl, htest 0 1 rfl]
    simp only [if_true]
    rw [show (counting.sample (counting.accept 0 1) 1 false).1 = 1 from rfl, htest 1 2 rfl]
    rfl
  cases hr
  rw [hrun] at hend
  have htwo : k = 2 := by
    rcases hend with hlength | ⟨-, t, ht, heog⟩
    · exact (Nat.succ.inj hlength).symm
    · cases ht
      exact absurd heog (by decide)
  subst htwo
  exact Bool.false_ne_true (hclean 1 (List.mem_singleton_self 1)).symm

end DraftVerification
end RocmFpx
