import RocmFpx.UniformDraw

/-!
Verification of a draft by rejection sampling. What the sampler chain leaves is a distribution over
candidates; a uniform draw is an argument of the functions that use one. The second part gives each
call its law.
-/

namespace RocmFpx
namespace RejectionSampler

open UniformDraw

section Kernel

variable {K : Type} [Field K] [LinearOrder K] [IsStrictOrderedRing K]

/-- `llama_token_data`; a logit of `⊥` is `-INFINITY`. -/
structure Candidate (K : Type) where
  id : ℤ
  logit : WithBot K
  p : K

def probOf (data : List (Candidate K)) (id : ℤ) : K :=
  ((data.find? fun c => c.id = id).map Candidate.p).getD 0

/-- The grammar sampler on a candidate array. -/
def grammarApply (grammar : ℤ → Bool) (data : List (Candidate K)) : List (Candidate K) :=
  data.map fun c => if grammar c.id then c else { c with logit := ⊥ }

/-- The test of a single token by the grammar. -/
def isValid (grammar : ℤ → Bool) (id : ℤ) : Bool :=
  (grammarApply grammar [⟨id, ((1 : ℚ) : WithBot ℚ), 0⟩]).all fun c => c.logit ≠ ⊥

/-- `common_sampler_get_candidates`, sorted. -/
def getCandidates (data : List (Candidate K)) : List (Candidate K) :=
  data.mergeSort fun a b => decide (b.p ≤ a.p)

/-- `p_raw`: a candidate that the grammar rejects carries no probability. -/
def pRaw (masked : Bool) (grammar : ℤ → Bool) (data : List (Candidate K)) : List (ℤ × K) :=
  let cand := if masked then grammarApply grammar data else data
  (data.zip cand).map fun (c, masked') =>
    (c.id, if masked && masked'.logit = ⊥ then 0 else c.p)

/-- `p_of`: rescaled after masking. -/
def pOf (masked : Bool) (grammar : ℤ → Bool) (data : List (Candidate K)) : List (ℤ × K) :=
  let raw := pRaw masked grammar data
  let pSum := if masked then (raw.map Prod.snd).sum else 0
  let pNorm := if masked && 0 < pSum then 1 / pSum else 1
  raw.map fun (id, p) => (id, p * pNorm)

/-- `p_x` of a drafted token. -/
def weightOf (p : List (ℤ × K)) (id : ℤ) : K :=
  ((p.find? fun e => e.1 = id).map Prod.snd).getD 0

/-- Accept a drafted token with probability `min(1, p/q)`. -/
def accepts (qX pX u : K) : Bool := 0 < qX && (pX ≥ qX || u < pX / qX)

/-- Tokens outside the support of `q` keep all of `p`. -/
def residual (p : List (ℤ × K)) (q : List (Candidate K)) : List (ℤ × K) :=
  p.filterMap fun (id, p) =>
    let r := p - probOf q id
    if r > 0 then some (id, r) else none

def residualSum (p : List (ℤ × K)) (q : List (Candidate K)) : K :=
  ((residual p q).map Prod.snd).sum

def drawResidual (p : List (ℤ × K)) (q : List (Candidate K)) (u : K) : ℤ :=
  pick (((residual p q).getLast?.map Prod.fst).getD 0) (residual p q) (u * residualSum p q)

end Kernel

/-! ## Laws -/

/-- A distribution over candidates with different tokens, as a sampler chain leaves it: softmax
gives no probability to a logit of `-INFINITY`. -/
structure Distribution where
  entries : List (Candidate ℝ)
  nodup : (entries.map Candidate.id).Nodup
  nonneg : ∀ c ∈ entries, 0 ≤ c.p
  sum_eq_one : (entries.map Candidate.p).sum = 1
  masked : ∀ c ∈ entries, c.logit = ⊥ → c.p = 0

namespace Distribution

instance : Inhabited Distribution where
  default :=
    { entries := [⟨0, (0 : ℝ), 1⟩]
      nodup := List.nodup_singleton 0
      nonneg := by simp
      sum_eq_one := List.sum_singleton
      masked := by simp }

def weights (d : Distribution) : List (ℤ × ℝ) := d.entries.map fun c => (c.id, c.p)

/-- A token drawn from the distribution. -/
noncomputable def law (d : Distribution) : PMF ℤ :=
  draw (pick 0 d.weights) (measurable_pick d.weights)

end Distribution

/-- What `common_sampler_sample` depends on in a state: the grammar, whether it should apply, and
what the chain leaves of the logits without and with the grammar applied before. -/
structure Target where
  grammarShouldApply : Bool
  grammar : ℤ → Bool
  chain : Bool → Distribution
  rejected : ∀ c ∈ (chain true).entries, grammar c.id = false → c.p = 0

/-- `common_sampler_sample`, with the candidates that it leaves. -/
noncomputable def commonSamplerSample (target : Target) (grammarFirst : Bool) :
    PMF (Distribution × ℤ) :=
  let curP := target.chain (grammarFirst && target.grammarShouldApply)
  curP.law.bind fun id =>
    if grammarFirst || !target.grammarShouldApply then PMF.pure (curP, id)
    else if isValid target.grammar id then PMF.pure (curP, id)
    else
      let curP := target.chain target.grammarShouldApply
      curP.law.bind fun id => PMF.pure (curP, id)

theorem measurable_accepts (qX pX : ℝ) : Measurable (accepts qX pX) := by
  have heq : accepts qX pX = fun u =>
      if u < pX / qX then (decide (0 < qX)) else decide (0 < qX) && decide (pX ≥ qX) := by
    funext u
    unfold accepts
    split_ifs with hu <;> simp [hu]
  rw [heq]
  exact Measurable.ite (measurableSet_lt measurable_id measurable_const) measurable_const
    measurable_const

theorem measurable_drawResidual (p : List (ℤ × ℝ)) (q : List (Candidate ℝ)) :
    Measurable (drawResidual p q) :=
  (measurable_pick (residual p q)).comp (measurable_id.mul_const _)

/-- What takes the place of a rejected token. -/
noncomputable def replace (p : List (ℤ × ℝ)) (q : List (Candidate ℝ)) (idTgt : ℤ) : PMF ℤ :=
  if residualSum p q > 0 then draw (drawResidual p q) (measurable_drawResidual p q)
  else PMF.pure idTgt

/-- The test of a drafted token against a target `p`: `none` accepts it, otherwise there is a token
in its place. -/
noncomputable def acceptOrReplace (p : List (ℤ × ℝ)) (q : List (Candidate ℝ)) (drafted idTgt : ℤ) :
    PMF (Option ℤ) :=
  let qX := probOf q drafted
  let pX := weightOf p drafted
  (draw (accepts qX pX) (measurable_accepts qX pX)).bind fun accepted =>
    if accepted then PMF.pure none else (replace p q idTgt).bind fun id => PMF.pure (some id)

/-- One position of the draft. -/
noncomputable def verifyPosition (target : Target) (grammarFirst : Bool)
    (q : List (Candidate ℝ)) (drafted : ℤ) : PMF (Option ℤ) :=
  (commonSamplerSample target grammarFirst).bind fun (curP, idTgt) =>
    let masked := !grammarFirst && target.grammarShouldApply
    let p := pOf masked target.grammar (getCandidates curP.entries)
    acceptOrReplace p q drafted idTgt

/-- `common_sampler_sample_and_accept_n_rejection` on a draft whose tokens come with the candidates
they were drawn from. The target depends on the tokens accepted so far. -/
noncomputable def sampleAndAcceptNRejection (targets : List ℤ → Target) (grammarFirst : Bool) :
    List ℤ → List (ℤ × List (Candidate ℝ)) → PMF (List ℤ)
  | accepted, [] =>
    (commonSamplerSample (targets accepted) grammarFirst).bind fun (_, id) => PMF.pure [id]
  | accepted, (drafted, q) :: draft =>
    (verifyPosition (targets accepted) grammarFirst q drafted).bind fun
      | none =>
        (sampleAndAcceptNRejection targets grammarFirst (accepted ++ [drafted]) draft).bind
          fun result => PMF.pure (drafted :: result)
      | some id => PMF.pure [id]

/-- A draft, each token drawn from the distribution of the draft model after the tokens before. -/
noncomputable def draftLaw (draftModel : List ℤ → Distribution) :
    ℕ → List ℤ → PMF (List (ℤ × List (Candidate ℝ)))
  | 0, _ => PMF.pure []
  | n + 1, drafted =>
    (draftModel drafted).law.bind fun id =>
      (draftLaw draftModel n (drafted ++ [id])).bind fun draft =>
        PMF.pure ((id, (draftModel drafted).entries) :: draft)

/-- The result of verifying a draft of `n` tokens. -/
noncomputable def speculate (targets : List ℤ → Target) (grammarFirst : Bool)
    (draftModel : List ℤ → Distribution) (n : ℕ) : PMF (List ℤ) :=
  (draftLaw draftModel n []).bind fun draft =>
    sampleAndAcceptNRejection targets grammarFirst [] draft

end RejectionSampler
end RocmFpx

/-!
The token emitted at a draft position has the law of a plain call of the sampler in the same state.
-/

namespace RocmFpx
namespace RejectionSampler

open UniformDraw SpeculativeSampling
open scoped ENNReal

/-! ## Weights -/

/-- A list of weights of different tokens that sum to one. -/
structure Weights (p : List (ℤ × ℝ)) : Prop where
  nodup : (p.map Prod.fst).Nodup
  nonneg : ∀ e ∈ p, 0 ≤ e.2
  sum_eq_one : (p.map Prod.snd).sum = 1

theorem massOf_of_notMem {p : List (ℤ × ℝ)} {id : ℤ} (h : id ∉ p.map Prod.fst) :
    massOf p id = 0 := by
  induction p with
  | nil => rfl
  | cons e p ih =>
    rw [List.map_cons, List.mem_cons, not_or] at h
    rw [massOf_cons, if_neg (Ne.symm h.1), ih h.2, zero_add]

theorem massOf_eq_weightOf {p : List (ℤ × ℝ)} (h : (p.map Prod.fst).Nodup) (id : ℤ) :
    massOf p id = weightOf p id := by
  induction p with
  | nil => rfl
  | cons e p ih =>
    obtain ⟨hnot, hnodup⟩ := List.nodup_cons.mp h
    rw [massOf_cons, weightOf, List.find?_cons]
    by_cases he : e.1 = id
    · rw [if_pos he, massOf_of_notMem (he ▸ hnot), add_zero]
      simp [he]
    · rw [if_neg he, zero_add, ih hnodup]
      simp [he, weightOf]

theorem massOf_perm {p p' : List (ℤ × ℝ)} (h : p.Perm p') (id : ℤ) :
    massOf p id = massOf p' id := (h.map _).sum_eq

theorem tsum_massOf {p : List (ℤ × ℝ)} (h : ∀ e ∈ p, 0 ≤ e.2) :
    (tsum fun id => ENNReal.ofReal (massOf p id)) = ENNReal.ofReal (p.map Prod.snd).sum := by
  induction p with
  | nil => simp [massOf]
  | cons e p ih =>
    obtain ⟨he, hp⟩ := List.forall_mem_cons.mp h
    have hsum : 0 ≤ (p.map Prod.snd).sum := List.sum_nonneg fun w hw => by
      obtain ⟨e', he', rfl⟩ := List.mem_map.mp hw
      exact hp e' he'
    have hcons : ∀ id, ENNReal.ofReal (massOf (e :: p) id) =
        (if id = e.1 then ENNReal.ofReal e.2 else 0) + ENNReal.ofReal (massOf p id) := by
      intro id
      rw [massOf_cons, ENNReal.ofReal_add (by split_ifs <;> simp [he]) (massOf_nonneg hp id)]
      simp only [eq_comm (a := id), apply_ite ENNReal.ofReal, ENNReal.ofReal_zero]
    rw [tsum_congr hcons, ENNReal.tsum_add, tsum_ite_eq, ih hp, List.map_cons, List.sum_cons,
      ENNReal.ofReal_add he hsum]

theorem draw_pick {p : List (ℤ × ℝ)} (h : Weights p) (id : ℤ) :
    draw (pick 0 p) (measurable_pick p) id = ENNReal.ofReal (massOf p id) := by
  have hpos : 0 < (p.map Prod.snd).sum := h.sum_eq_one ▸ one_pos
  have hpick : uniform {u | pick 0 p (u * (p.map Prod.snd).sum) = id} =
      ENNReal.ofReal (massOf p id / (p.map Prod.snd).sum) := uniform_pick h.nonneg hpos id
  simp only [h.sum_eq_one, mul_one, div_one] at hpick
  rw [draw_apply]
  exact hpick

/-! ## One test -/

theorem uniform_accepts {qX pX : ℝ} (hq : 0 ≤ qX) :
    ENNReal.ofReal qX * uniform {u | accepts qX pX u = true} =
      min (ENNReal.ofReal qX) (ENNReal.ofReal pX) := by
  rcases hq.eq_or_lt with rfl | hpos
  · simp
  · have hset : {u | accepts qX pX u = true} =
        if qX ≤ pX then Set.univ else {u | u < pX / qX} := by
      ext u
      split_ifs with hle <;> simp [accepts, hpos, hle]
    rw [hset]
    split_ifs with hle
    · rw [MeasureTheory.measure_univ, mul_one, min_eq_left (ENNReal.ofReal_le_ofReal hle)]
    · have hlt := not_le.mp hle
      rw [uniform_lt, ← ENNReal.ofReal_mul hq, min_eq_right ((div_le_one hpos).mpr hlt.le),
        mul_div_cancel₀ pX hpos.ne', min_eq_right (ENNReal.ofReal_le_ofReal hlt.le)]

/-! ## The residual -/

theorem residual_cons (id : ℤ) (w : ℝ) (p : List (ℤ × ℝ)) (q : List (Candidate ℝ)) :
    residual ((id, w) :: p) q =
      if w - probOf q id > 0 then (id, w - probOf q id) :: residual p q else residual p q := by
  simp only [residual, List.filterMap_cons]
  split_ifs <;> rfl

theorem residual_pos {p : List (ℤ × ℝ)} {q : List (Candidate ℝ)} {e : ℤ × ℝ}
    (h : e ∈ residual p q) : 0 < e.2 := by
  obtain ⟨e', -, he⟩ := List.mem_filterMap.mp h
  simp only at he
  split_ifs at he with hpos
  cases he
  exact hpos

theorem residual_notMem {p : List (ℤ × ℝ)} (q : List (Candidate ℝ)) {id : ℤ}
    (h : id ∉ p.map Prod.fst) : id ∉ (residual p q).map Prod.fst := by
  intro hmem
  obtain ⟨e, he, rfl⟩ := List.mem_map.mp hmem
  obtain ⟨e', he', hif⟩ := List.mem_filterMap.mp he
  simp only at hif
  split_ifs at hif
  cases hif
  exact h (List.mem_map.mpr ⟨e', he', rfl⟩)

theorem massOf_residual {p : List (ℤ × ℝ)} (h : (p.map Prod.fst).Nodup)
    {q : List (Candidate ℝ)} (hq : ∀ id, 0 ≤ probOf q id) (id : ℤ) :
    massOf (residual p q) id = max 0 (massOf p id - probOf q id) := by
  induction p with
  | nil => rw [massOf, max_eq_left (by simpa [massOf] using hq id)]; rfl
  | cons e p ih =>
    obtain ⟨hnot, hnodup⟩ := List.nodup_cons.mp h
    obtain ⟨id', w⟩ := e
    rw [residual_cons, massOf_cons]
    by_cases he : id' = id
    · subst he
      rw [massOf_of_notMem hnot, if_pos rfl, add_zero]
      have hrest := massOf_of_notMem (residual_notMem q hnot)
      split_ifs with hpos
      · rw [massOf_cons, if_pos rfl, hrest, add_zero, max_eq_right hpos.le]
      · rw [hrest, max_eq_left (not_lt.mp hpos)]
    · rw [if_neg he, zero_add, ← ih hnodup]
      split_ifs
      · rw [massOf_cons, if_neg he, zero_add]
      · rfl

variable {p : List (ℤ × ℝ)} {q : List (Candidate ℝ)} {t draft : PMF ℤ}

theorem sub_eq_residual (h : (p.map Prod.fst).Nodup) (hq : ∀ id, 0 ≤ probOf q id)
    (ht : ∀ id, t id = ENNReal.ofReal (massOf p id))
    (hdraft : ∀ id, draft id = ENNReal.ofReal (probOf q id)) (id : ℤ) :
    t id - draft id = ENNReal.ofReal (massOf (residual p q) id) := by
  rw [ht, hdraft, ← ENNReal.ofReal_sub _ (hq id), massOf_residual h hq, max_comm,
    ENNReal.ofReal_max, ENNReal.ofReal_zero, max_eq_left zero_le]

theorem replace_apply (h : (p.map Prod.fst).Nodup) (hq : ∀ id, 0 ≤ probOf q id)
    (ht : ∀ id, t id = ENNReal.ofReal (massOf p id))
    (hdraft : ∀ id, draft id = ENNReal.ofReal (probOf q id)) (idTgt id : ℤ) :
    (tsum fun id' => t id' - draft id') * replace p q idTgt id = t id - draft id := by
  have hsub := sub_eq_residual h hq ht hdraft
  have hpos : ∀ e ∈ residual p q, 0 ≤ e.2 := fun e he => (residual_pos he).le
  have hsum : (tsum fun id' => t id' - draft id') = ENNReal.ofReal (residualSum p q) := by
    rw [tsum_congr hsub, tsum_massOf hpos, residualSum]
  rw [hsum, hsub, replace]
  split_ifs with hs
  · have hpick : uniform {u | drawResidual p q u = id} =
        ENNReal.ofReal (massOf (residual p q) id / residualSum p q) := uniform_pick hpos hs id
    rw [draw_apply]
    change ENNReal.ofReal (residualSum p q) * uniform {u | drawResidual p q u = id} = _
    rw [hpick, ← ENNReal.ofReal_mul hs.le, mul_div_cancel₀ _ (ne_of_gt hs)]
  · have hzero : ENNReal.ofReal (residualSum p q) = 0 := ENNReal.ofReal_of_nonpos (not_lt.mp hs)
    have hall := ENNReal.tsum_eq_zero.mp ((tsum_massOf hpos).trans hzero) id
    rw [hzero, zero_mul, hall]

theorem acceptOrReplace_emitted (drafted idTgt id : ℤ) :
    ((acceptOrReplace p q drafted idTgt).bind fun r => PMF.pure (r.getD drafted)) id =
      uniform {u | accepts (probOf q drafted) (weightOf p drafted) u = true} *
          (if drafted = id then 1 else 0) +
        (1 - uniform {u | accepts (probOf q drafted) (weightOf p drafted) u = true}) *
          replace p q idTgt id := by
  have hmeasurable := measurable_accepts (probOf q drafted) (weightOf p drafted)
  have htrue : draw (accepts (probOf q drafted) (weightOf p drafted)) hmeasurable true =
      uniform {u | accepts (probOf q drafted) (weightOf p drafted) u = true} :=
    draw_apply hmeasurable true
  have hfalse : draw (accepts (probOf q drafted) (weightOf p drafted)) hmeasurable false =
      1 - draw (accepts (probOf q drafted) (weightOf p drafted)) hmeasurable true := by
    have hone := (draw (accepts (probOf q drafted) (weightOf p drafted)) hmeasurable).tsum_coe
    rw [tsum_bool] at hone
    exact ENNReal.eq_sub_of_add_eq (PMF.apply_ne_top _ _) hone
  rw [acceptOrReplace]
  simp only [PMF.bind_bind]
  rw [PMF.bind_apply, tsum_bool, hfalse, htrue, add_comm]
  congr 2
  · simp only [if_true, PMF.pure_bind, Option.getD_none, PMF.pure_apply, eq_comm]
  · simp only [Bool.false_eq_true, if_false, PMF.bind_bind, PMF.pure_bind, Option.getD_some,
      PMF.bind_pure]

theorem acceptOrReplace_law (h : (p.map Prod.fst).Nodup) (hq : ∀ id, 0 ≤ probOf q id)
    (ht : ∀ id, t id = ENNReal.ofReal (massOf p id))
    (hdraft : ∀ id, draft id = ENNReal.ofReal (probOf q id)) (idTgt : ℤ) :
    (draft.bind fun drafted => (acceptOrReplace p q drafted idTgt).bind fun r =>
      PMF.pure (r.getD drafted)) = t := by
  ext id
  rw [PMF.bind_apply]
  simp only [acceptOrReplace_emitted]
  refine tsum_emitted (fun d => ?_) (replace_apply h hq ht hdraft idTgt) id
  rw [hdraft, ht, massOf_eq_weightOf h]
  exact uniform_accepts (hq d)

/-! ## Candidates -/

namespace Distribution

variable (d : Distribution)

theorem weights_fst : d.weights.map Prod.fst = d.entries.map Candidate.id := by
  rw [weights, List.map_map]
  rfl

theorem weights_snd : d.weights.map Prod.snd = d.entries.map Candidate.p := by
  rw [weights, List.map_map]
  rfl

theorem weights_spec : Weights d.weights where
  nodup := d.weights_fst ▸ d.nodup
  nonneg e he := by
    obtain ⟨c, hc, rfl⟩ := List.mem_map.mp he
    exact d.nonneg c hc
  sum_eq_one := d.weights_snd ▸ d.sum_eq_one

theorem law_apply (id : ℤ) : d.law id = ENNReal.ofReal (massOf d.weights id) :=
  draw_pick d.weights_spec id

theorem probOf_eq (id : ℤ) : probOf d.entries id = massOf d.weights id := by
  rw [massOf_eq_weightOf d.weights_spec.nodup, weightOf, weights, List.find?_map, Option.map_map]
  rfl

theorem probOf_nonneg (id : ℤ) : 0 ≤ probOf d.entries id :=
  d.probOf_eq id ▸ massOf_nonneg d.weights_spec.nonneg id

end Distribution

section Masking

theorem zip_map_self {α β : Type} (f : α → β) (l : List α) :
    l.zip (l.map f) = l.map fun a => (a, f a) := by
  induction l with
  | nil => rfl
  | cons a l ih => rw [List.map_cons, List.zip_cons_cons, ih, List.map_cons]

variable (masked : Bool) (grammar : ℤ → Bool) (d : Distribution)

/-- The weights with those of rejected tokens taken away. -/
def maskedWeights (data : List (Candidate ℝ)) : List (ℤ × ℝ) :=
  data.map fun c => (c.id, if masked && !grammar c.id then 0 else c.p)

theorem pRaw_perm :
    (pRaw masked grammar (getCandidates d.entries)).Perm
      (maskedWeights masked grammar d.entries) := by
  have hperm : (getCandidates d.entries).Perm d.entries := List.mergeSort_perm _ _
  have hraw : pRaw masked grammar (getCandidates d.entries) =
      maskedWeights masked grammar (getCandidates d.entries) := by
    unfold pRaw maskedWeights
    cases masked with
    | false =>
      have hzip := zip_map_self id (getCandidates d.entries)
      rw [List.map_id] at hzip
      simp only [Bool.false_eq_true, if_false, Bool.false_and, hzip, List.map_map]
      rfl
    | true =>
      simp only [if_true, grammarApply, Bool.true_and]
      rw [zip_map_self, List.map_map]
      refine List.map_congr_left fun c hc => ?_
      have hbot := d.masked c (hperm.mem_iff.mp hc)
      cases hg : grammar c.id with
      | false => simp [hg]
      | true =>
        simp only [Function.comp_apply, hg, if_true, Bool.not_true, Bool.false_eq_true, if_false,
          Prod.mk.injEq, true_and, decide_eq_true_eq]
        split_ifs with h
        · exact (hbot h).symm
        · rfl
  rw [hraw]
  exact hperm.map _

theorem massOf_maskedWeights (data : List (Candidate ℝ)) (id : ℤ) :
    massOf (maskedWeights masked grammar data) id =
      if masked && !grammar id then 0 else massOf (data.map fun c => (c.id, c.p)) id := by
  induction data with
  | nil => exact (ite_self _).symm
  | cons c data ih =>
    rw [maskedWeights, List.map_cons, List.map_cons, massOf_cons, massOf_cons]
    change _ + massOf (maskedWeights masked grammar data) id = _
    rw [ih]
    by_cases hid : c.id = id
    · subst hid
      split_ifs <;> simp
    · simp only [if_neg hid, zero_add]

/-- The sum of the weights that the grammar leaves. -/
def keptSum : ℝ := ((maskedWeights masked grammar d.entries).map Prod.snd).sum

theorem maskedWeights_nonneg : ∀ e ∈ maskedWeights masked grammar d.entries, 0 ≤ e.2 := by
  intro e he
  obtain ⟨c, hc, rfl⟩ := List.mem_map.mp he
  simp only
  split_ifs
  · exact le_rfl
  · exact d.nonneg c hc

theorem massOf_map_mul (p : List (ℤ × ℝ)) (c : ℝ) (id : ℤ) :
    massOf (p.map fun e => (e.1, e.2 * c)) id = massOf p id * c := by
  induction p with
  | nil => exact (zero_mul c).symm
  | cons e p ih =>
    rw [List.map_cons, massOf_cons, massOf_cons, ih, add_mul]
    congr 1
    split_ifs
    · rfl
    · exact (zero_mul c).symm

/-- The factor that rescales what the grammar leaves. -/
noncomputable def keptNorm : ℝ :=
  if masked && 0 < keptSum masked grammar d then 1 / keptSum masked grammar d else 1

theorem keptNorm_of_pos {grammar : ℤ → Bool} {d : Distribution} (h : 0 < keptSum true grammar d) :
    keptNorm true grammar d = 1 / keptSum true grammar d := by
  rw [keptNorm, Bool.true_and, if_pos (decide_eq_true h)]

theorem pOf_eq : pOf masked grammar (getCandidates d.entries) =
    (pRaw masked grammar (getCandidates d.entries)).map fun e =>
      (e.1, e.2 * keptNorm masked grammar d) := by
  have hsum : ((pRaw masked grammar (getCandidates d.entries)).map Prod.snd).sum =
      keptSum masked grammar d := ((pRaw_perm masked grammar d).map _).sum_eq
  unfold pOf keptNorm
  cases masked with
  | false => simp
  | true => simp only [if_true, hsum]

theorem pOf_nodup :
    ((pOf masked grammar (getCandidates d.entries)).map Prod.fst).Nodup := by
  rw [pOf_eq, List.map_map]
  have hperm := (pRaw_perm masked grammar d).map Prod.fst
  refine hperm.nodup_iff.mpr ?_
  rw [maskedWeights, List.map_map]
  exact d.nodup

theorem massOf_pOf (id : ℤ) : massOf (pOf masked grammar (getCandidates d.entries)) id =
    (if masked && !grammar id then 0 else massOf d.weights id) * keptNorm masked grammar d := by
  rw [pOf_eq, massOf_map_mul, massOf_perm (pRaw_perm masked grammar d), massOf_maskedWeights]
  rfl

theorem massOf_pOf_kept (h : ∀ c ∈ d.entries, (masked && !grammar c.id) = true → c.p = 0) (id : ℤ) :
    massOf (pOf masked grammar (getCandidates d.entries)) id = massOf d.weights id := by
  have hkept : maskedWeights masked grammar d.entries = d.weights := by
    refine List.map_congr_left fun c hc => ?_
    split_ifs with hmasked
    · rw [h c hc hmasked]
    · rfl
  have hnorm : keptNorm masked grammar d = 1 := by
    rw [keptNorm, keptSum, hkept, d.weights_spec.sum_eq_one, div_one, ite_self]
  rw [pOf_eq, massOf_map_mul, massOf_perm (pRaw_perm masked grammar d), hkept, hnorm, mul_one]

theorem pOf_spec (h : 0 < keptSum true grammar d) :
    Weights (pOf true grammar (getCandidates d.entries)) where
  nodup := pOf_nodup true grammar d
  nonneg e he := by
    rw [pOf_eq] at he
    obtain ⟨e', he', rfl⟩ := List.mem_map.mp he
    have hraw := maskedWeights_nonneg true grammar d e' ((pRaw_perm true grammar d).mem_iff.mp he')
    rw [keptNorm_of_pos h]
    exact mul_nonneg hraw (one_div_pos.mpr h).le
  sum_eq_one := by
    rw [pOf_eq, List.map_map]
    change ((pRaw true grammar (getCandidates d.entries)).map
      fun e => e.2 * keptNorm true grammar d).sum = 1
    rw [List.sum_map_mul_right, ((pRaw_perm true grammar d).map Prod.snd).sum_eq]
    change keptSum true grammar d * keptNorm true grammar d = 1
    rw [keptNorm_of_pos h, mul_one_div_cancel h.ne']

end Masking

/-! ## One position -/

/-- What is emitted for a draft token when the sampler has left these candidates. -/
noncomputable def emitted (p : List (ℤ × ℝ)) (q : Distribution) (idTgt : ℤ) : PMF ℤ :=
  q.law.bind fun drafted => (acceptOrReplace p q.entries drafted idTgt).bind fun r =>
    PMF.pure (r.getD drafted)

theorem emitted_eq {p : List (ℤ × ℝ)} (h : (p.map Prod.fst).Nodup) (q : Distribution) (idTgt : ℤ)
    {t : PMF ℤ} (ht : ∀ id, t id = ENNReal.ofReal (massOf p id)) : emitted p q idTgt = t :=
  acceptOrReplace_law h q.probOf_nonneg ht
    (fun id => by rw [q.law_apply, q.probOf_eq]) idTgt

theorem emitted_kept {masked : Bool} {grammar : ℤ → Bool} {d : Distribution}
    (h : ∀ c ∈ d.entries, (masked && !grammar c.id) = true → c.p = 0) (q : Distribution)
    (idTgt : ℤ) : emitted (pOf masked grammar (getCandidates d.entries)) q idTgt = d.law :=
  emitted_eq (pOf_nodup masked grammar d) q idTgt fun id => by
    rw [massOf_pOf_kept masked grammar d h, d.law_apply]

theorem tsum_kept (grammar : ℤ → Bool) (d : Distribution) :
    (tsum fun id => if grammar id then d.law id else 0) = ENNReal.ofReal (keptSum true grammar d) := by
  rw [keptSum, ← tsum_massOf (maskedWeights_nonneg true grammar d)]
  refine tsum_congr fun id => ?_
  rw [massOf_maskedWeights, d.law_apply]
  cases grammar id with
  | true => rfl
  | false => simp

theorem tsum_kept_emitted (grammar : ℤ → Bool) (d q : Distribution) (id : ℤ) :
    (tsum fun idTgt => if grammar idTgt then d.law idTgt *
        emitted (pOf true grammar (getCandidates d.entries)) q idTgt id else 0) =
      if grammar id then d.law id else 0 := by
  have hnonneg : 0 ≤ keptSum true grammar d := List.sum_nonneg fun w hw => by
    obtain ⟨e, he, rfl⟩ := List.mem_map.mp hw
    exact maskedWeights_nonneg true grammar d e he
  have hfactor : ∀ idTgt e, (if grammar idTgt then d.law idTgt * e else 0) =
      (if grammar idTgt then d.law idTgt else 0) * e := fun idTgt e => by
    rw [ite_mul, zero_mul]
  rcases hnonneg.eq_or_lt with hzero | hpos
  · have htsum := tsum_kept grammar d
    rw [← hzero, ENNReal.ofReal_zero] at htsum
    have hnone := ENNReal.tsum_eq_zero.mp htsum
    simp only [hfactor, hnone, zero_mul, tsum_zero]
  · have hlaw := fun idTgt => emitted_eq (pOf_nodup true grammar d) q idTgt
      (draw_pick (pOf_spec grammar d hpos))
    simp only [hfactor, hlaw]
    rw [ENNReal.tsum_mul_right, tsum_kept, draw_pick (pOf_spec grammar d hpos),
      ← ENNReal.ofReal_mul hnonneg, massOf_pOf, keptNorm_of_pos hpos, d.law_apply]
    cases hg : grammar id with
    | true =>
      simp only [Bool.not_true, Bool.and_false, Bool.false_eq_true, if_false, if_true]
      rw [mul_one_div, mul_div_cancel₀ _ hpos.ne']
    | false => simp

theorem isValid_eq (grammar : ℤ → Bool) (id : ℤ) : isValid grammar id = grammar id := by
  unfold isValid grammarApply
  cases h : grammar id with
  | true => simp [h]
  | false => simp [h]

theorem verifyPosition_law (target : Target) (grammarFirst : Bool) (q : Distribution) :
    (q.law.bind fun drafted => (verifyPosition target grammarFirst q.entries drafted).bind fun r =>
      PMF.pure (r.getD drafted)) =
      (commonSamplerSample target grammarFirst).bind fun r => PMF.pure r.2 := by
  have hcomm : (q.law.bind fun drafted =>
      (verifyPosition target grammarFirst q.entries drafted).bind fun r =>
        PMF.pure (r.getD drafted)) =
      (commonSamplerSample target grammarFirst).bind fun r =>
        emitted (pOf (!grammarFirst && target.grammarShouldApply) target.grammar
          (getCandidates r.1.entries)) q r.2 := by
    simp only [verifyPosition, PMF.bind_bind, emitted]
    exact PMF.bind_comm _ _ _
  rw [hcomm, commonSamplerSample]
  by_cases hmasked : (!grammarFirst && target.grammarShouldApply) = true
  · obtain ⟨hfirst, hshould⟩ : grammarFirst = false ∧ target.grammarShouldApply = true := by
      simpa using hmasked
    have hrest : ∀ idTgt, emitted (pOf true target.grammar
        (getCandidates (target.chain true).entries)) q idTgt = (target.chain true).law :=
      fun idTgt => emitted_kept (fun c hc hg => target.rejected c hc (by simpa using hg)) q idTgt
    ext id
    simp only [hfirst, hshould, Bool.false_and, Bool.not_false, Bool.true_and, Bool.not_true,
      Bool.or_self, Bool.false_eq_true, if_false, isValid_eq, PMF.bind_bind]
    rw [PMF.bind_apply, PMF.bind_apply]
    have hterm : ∀ idTgt, (target.chain false).law idTgt *
        ((if target.grammar idTgt = true then PMF.pure (target.chain false, idTgt)
          else (target.chain true).law.bind fun id => PMF.pure (target.chain true, id)).bind
            fun r => emitted (pOf true target.grammar (getCandidates r.1.entries)) q r.2) id =
        (if target.grammar idTgt then (target.chain false).law idTgt *
          emitted (pOf true target.grammar (getCandidates (target.chain false).entries)) q idTgt id
          else 0) +
        (if target.grammar idTgt then 0 else
          (target.chain false).law idTgt * (target.chain true).law id) := by
      intro idTgt
      split_ifs
      · rw [PMF.pure_bind, add_zero]
      · simp only [PMF.bind_bind, PMF.pure_bind, hrest, PMF.bind_const, zero_add]
    have hplain : ∀ idTgt, (target.chain false).law idTgt *
        ((if target.grammar idTgt = true then PMF.pure (target.chain false, idTgt)
          else (target.chain true).law.bind fun id => PMF.pure (target.chain true, id)).bind
            fun r => PMF.pure r.2) id =
        (if idTgt = id then (if target.grammar idTgt then (target.chain false).law idTgt else 0)
          else 0) +
        (if target.grammar idTgt then 0 else
          (target.chain false).law idTgt * (target.chain true).law id) := by
      intro idTgt
      split_ifs with hg hid hid
      · rw [PMF.pure_bind, PMF.pure_apply, if_pos hid.symm, mul_one, add_zero]
      · rw [PMF.pure_bind, PMF.pure_apply, if_neg (Ne.symm hid), mul_zero, add_zero]
      all_goals simp only [PMF.bind_bind, PMF.pure_bind, PMF.bind_pure, zero_add]
    rw [tsum_congr hterm, tsum_congr hplain, ENNReal.tsum_add, ENNReal.tsum_add, tsum_ite_eq,
      tsum_kept_emitted]
  · have hunmasked : (!grammarFirst && target.grammarShouldApply) = false := by
      simpa using hmasked
    have hreturn : (grammarFirst || !target.grammarShouldApply) = true := by
      rw [← Bool.not_not (grammarFirst || !target.grammarShouldApply), Bool.not_or, Bool.not_not,
        hunmasked]
      rfl
    have hkept : ∀ d : Distribution, ∀ idTgt, emitted (pOf false target.grammar
        (getCandidates d.entries)) q idTgt = d.law :=
      fun d idTgt => emitted_kept (fun c _ hg => absurd hg (by simp)) q idTgt
    simp only [hunmasked, hreturn, if_true, PMF.bind_bind, PMF.pure_bind, hkept, PMF.bind_const,
      PMF.bind_pure]

theorem acceptOrReplace_none (p : List (ℤ × ℝ)) (q : List (Candidate ℝ)) (drafted idTgt : ℤ) :
    acceptOrReplace p q drafted idTgt none =
      uniform {u | accepts (probOf q drafted) (weightOf p drafted) u = true} := by
  have hfalse : ((replace p q idTgt).bind fun id => PMF.pure (some id)) none = 0 := by simp
  rw [acceptOrReplace, PMF.bind_apply, tsum_bool]
  simp only [Bool.false_eq_true, if_false, if_true, hfalse, mul_zero, zero_add, PMF.pure_apply,
    mul_one]
  exact draw_apply (measurable_accepts _ _) true

/-- A drafted token is kept with the mass that its law shares with the target of the test. -/
theorem verifyPosition_accepts (target : Target) (grammarFirst : Bool) (q : Distribution) :
    (q.law.bind fun drafted => verifyPosition target grammarFirst q.entries drafted) none =
      tsum fun r => commonSamplerSample target grammarFirst r * tsum fun id =>
        min (q.law id) (ENNReal.ofReal (massOf (pOf (!grammarFirst && target.grammarShouldApply)
          target.grammar (getCandidates r.1.entries)) id)) := by
  simp only [verifyPosition]
  rw [PMF.bind_comm, PMF.bind_apply]
  refine tsum_congr fun r => congrArg (_ * ·) ?_
  rw [PMF.bind_apply]
  refine tsum_congr fun id => ?_
  rw [acceptOrReplace_none, q.law_apply, ← q.probOf_eq, massOf_eq_weightOf (pOf_nodup _ _ _)]
  exact uniform_accepts (q.probOf_nonneg id)

end RejectionSampler
end RocmFpx
