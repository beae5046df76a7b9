import RocmFpx.GuardedRuns
import RocmFpx.RingBuffer
import RocmFpx.TensorRows
import Mathlib.Algebra.Field.Rat
import Mathlib.Algebra.Order.Ring.Rat
import Mathlib.Data.List.AList
import Mathlib.Data.List.Count
import Mathlib.Tactic.Ring

/-!
The penalties sampler: a window of the last accepted tokens, their counts, and the two ways of
applying the penalties, to the candidates on the CPU and by a compute graph on a backend. Logits
and penalties are rationals, and the tokens are ids of the vocabulary.
-/

namespace RocmFpx
open TensorRows

/-- `llama_sampler_penalties::is_disabled`. -/
def penaltiesDisabled (penaltyLastN : ℕ) (penaltyRepeat penaltyFreq penaltyPresent : ℚ) : Bool :=
  penaltyLastN = 0 || (penaltyRepeat = 1 && penaltyFreq = 0 && penaltyPresent = 0)

/-- The constants of a sampler that `llama_sampler_init_penalties` does not replace by an empty
one. -/
structure PenaltiesConfig (nVocab : ℕ) where
  penaltyLastN : ℕ
  penaltyRepeat : ℚ
  penaltyFreq : ℚ
  penaltyPresent : ℚ
  vocab_pos : 0 < nVocab
  enabled : penaltiesDisabled penaltyLastN penaltyRepeat penaltyFreq penaltyPresent = false
  deriving DecidableEq

namespace PenaltiesConfig

variable {nVocab : ℕ} (config : PenaltiesConfig nVocab)

theorem lastN_pos : 0 < config.penaltyLastN := by
  have h := config.enabled
  rw [penaltiesDisabled, Bool.or_eq_false_iff] at h
  exact Nat.pos_of_ne_zero (of_decide_eq_false h.1)

def nMax : ℕ := min config.penaltyLastN nVocab

end PenaltiesConfig

/-- `llama_token_data`. -/
structure TokenData (nVocab : ℕ) where
  id : Fin nVocab
  logit : ℚ
  p : ℚ

/-- `llama_token_data_array`. -/
structure TokenDataArray (nVocab : ℕ) where
  data : List (TokenData nVocab)
  sorted : Bool

/-- `llama_sampler_penalties`. -/
structure Penalties (nVocab : ℕ) where
  config : PenaltiesConfig nVocab
  prev : RingBuffer (Fin nVocab)
  tokenCount : AList fun _ : Fin nVocab => ℤ

namespace Penalties

variable {nVocab : ℕ} (s : Penalties nVocab)

def init (config : PenaltiesConfig nVocab) : Penalties nVocab :=
  ⟨config, .new config.penaltyLastN config.lastN_pos ⟨0, config.vocab_pos⟩, ∅⟩

/-- `token_count[token]`, which is zero for a new entry. -/
def countOf (token : Fin nVocab) : ℤ := (s.tokenCount.lookup token).getD 0

def increment (token : Fin nVocab) : Penalties nVocab :=
  { s with tokenCount := s.tokenCount.insert token (s.countOf token + 1) }

def decrement (old : Fin nVocab) : Penalties nVocab :=
  let s := { s with tokenCount := s.tokenCount.insert old (s.countOf old - 1) }
  if s.countOf old = 0 then { s with tokenCount := s.tokenCount.erase old } else s

/-- `llama_sampler_penalties_accept`; an empty ring buffer throws. -/
def accept (token : Fin nVocab) : Option (Penalties nVocab) :=
  if s.config.penaltyLastN = 0 then some s
  else
    let s := s.increment token
    if s.prev.sz ≥ s.config.penaltyLastN then
      s.prev.front.map fun old => { s.decrement old with prev := s.prev.pushBack token }
    else some { s with prev := s.prev.pushBack token }

def reset : Penalties nVocab := { s with prev := s.prev.clear, tokenCount := ∅ }

def clone : Penalties nVocab :=
  { init s.config with prev := s.prev, tokenCount := s.tokenCount }

/-- `copy_state`, into a sampler of the same configuration. -/
def copyState (src : Penalties nVocab) : Penalties nVocab :=
  { s with prev := src.prev, tokenCount := src.tokenCount }

/-! ## On the CPU -/

/-- The round of `llama_sampler_penalties_apply` for one candidate. -/
def penalize (data : TokenData nVocab) : TokenData nVocab :=
  match s.tokenCount.lookup data.id with
  | none => data
  | some count =>
    let logit := if data.logit ≤ 0 then data.logit * s.config.penaltyRepeat
      else data.logit / s.config.penaltyRepeat
    { data with logit := logit -
        (count * s.config.penaltyFreq + (if count > 0 then 1 else 0) * s.config.penaltyPresent) }

def apply (cur : TokenDataArray nVocab) : TokenDataArray nVocab :=
  let config := s.config
  if penaltiesDisabled config.penaltyLastN config.penaltyRepeat config.penaltyFreq
      config.penaltyPresent then cur
  else { data := cur.data.map s.penalize, sorted := false }

/-! ## On a backend -/

/-- The values of the graph inputs `inp_token_ids` and `inp_counts`. -/
structure Inputs (nVocab nMax : ℕ) where
  tokenIds : Fin nMax → Fin nVocab
  counts : Fin nMax → ℤ

/-- `llama_sampler_penalties_backend_set_input`: the entries sorted by token, padded with a token
that has none; the assertions fail as `none`. -/
def backendSetInput : Option (Inputs nVocab s.config.nMax) :=
  if s.tokenCount.entries.length > s.config.nMax then none
  else
    let entries := s.tokenCount.entries.mergeSort fun a b => decide (a.1 ≤ b.1)
    let filler :=
      if entries.length < s.config.nMax then
        (List.finRange nVocab).find? fun token => (s.tokenCount.lookup token).isNone
      else some ⟨0, s.config.vocab_pos⟩
    filler.map fun filler =>
      { tokenIds := fun k => (entries[k.val]?.map (·.1)).getD filler
        counts := fun k => (entries[k.val]?.map (·.2)).getD 0 }

/-- The part of the graph that is the same for the full vocabulary and for candidates. -/
def penalized (config : PenaltiesConfig nVocab) {m : ℕ} (gathered counts : Fin m → ℚ) :
    Fin m → ℚ :=
  let activeMask := step counts
  let inactiveMask := sub (fill 1) activeMask
  let penalized :=
    if config.penaltyRepeat ≠ 1 then
      let posMask := step gathered
      let negMask := sub (fill 1) posMask
      let posScale := scale posMask (1 / config.penaltyRepeat)
      let negScale := scale negMask config.penaltyRepeat
      let repeatScale := add posScale negScale
      -- inactive entries are scaled with 1
      let repeatScale := add (mul repeatScale activeMask) inactiveMask
      mul gathered repeatScale
    else gathered
  let penalized :=
    if config.penaltyFreq ≠ 0 then sub penalized (scale counts config.penaltyFreq) else penalized
  if config.penaltyPresent ≠ 0 then sub penalized (scale activeMask config.penaltyPresent)
  else penalized

/-- `llama_sampler_penalties_backend_apply` on the logits of the full vocabulary. -/
def backendApply (config : PenaltiesConfig nVocab) (order : Equiv.Perm (Fin config.nMax))
    (inputs : Inputs nVocab config.nMax) (logits : Fin nVocab → ℚ) : Fin nVocab → ℚ :=
  if penaltiesDisabled config.penaltyLastN config.penaltyRepeat config.penaltyFreq
      config.penaltyPresent then logits
  else
    let countsF32 : Fin config.nMax → ℚ := fun k => inputs.counts k
    let gathered := getRows logits inputs.tokenIds
    setRows order logits (penalized config gathered countsF32) inputs.tokenIds

/-- `llama_sampler_penalties_backend_apply` on the logits of candidates. -/
def backendApplyCandidates (config : PenaltiesConfig nVocab)
    (order : Equiv.Perm (Fin config.nMax)) (inputs : Inputs nVocab config.nMax) {m : ℕ}
    (candidates : Fin m → Fin nVocab) (logits : Fin m → ℚ) : Fin m → ℚ :=
  if penaltiesDisabled config.penaltyLastN config.penaltyRepeat config.penaltyFreq
      config.penaltyPresent then logits
  else
    let countsF32 : Fin config.nMax → ℚ := fun k => inputs.counts k
    let countsRows := setRows order (fill 0) countsF32 inputs.tokenIds
    penalized config logits (getRows countsRows candidates)

/-- The candidates that the CPU is given for the logits. -/
def candidatesOf {m : ℕ} (candidates : Fin m → Fin nVocab) (logits : Fin m → ℚ) :
    TokenDataArray nVocab :=
  ⟨List.ofFn fun k => ⟨candidates k, logits k, 0⟩, false⟩

end Penalties
end RocmFpx

/-!
The token counts of a penalties sampler are those of its window in every run, and from such counts
the compute graph and the CPU produce the same logits.
-/

namespace RocmFpx
open GuardedRuns TensorRows

namespace Penalties

variable {nVocab : ℕ} {s s' : Penalties nVocab}

/-! ## Counts -/

/-- The tokens that count: the last ones accepted since the reset. -/
def window (s : Penalties nVocab) (history : List (Fin nVocab)) : List (Fin nVocab) :=
  history.rtake s.config.penaltyLastN

/-- The entries are the tokens of the list, each with the number of its occurrences. -/
def CountsOf (counts : AList fun _ : Fin nVocab => ℤ) (tokens : List (Fin nVocab)) : Prop :=
  ∀ token, counts.lookup token =
    if tokens.count token = 0 then none else some (tokens.count token : ℤ)

/-- The sampler has seen this history since its reset. -/
structure Saw (s : Penalties nVocab) (history : List (Fin nVocab)) : Prop where
  capacity : s.prev.capacity = s.config.penaltyLastN
  prev : s.prev.toVector = s.window history
  counts : CountsOf s.tokenCount (s.window history)

theorem CountsOf.getD {counts : AList fun _ : Fin nVocab => ℤ} {tokens : List (Fin nVocab)}
    (h : CountsOf counts tokens) (token : Fin nVocab) :
    (counts.lookup token).getD 0 = tokens.count token := by
  rw [h token]
  split_ifs with hzero
  · rw [hzero]
    rfl
  · rfl

theorem countsOf_empty : CountsOf (∅ : AList fun _ : Fin nVocab => ℤ) [] := fun _ => rfl

theorem increment_counts {tokens : List (Fin nVocab)} (h : CountsOf s.tokenCount tokens)
    (token : Fin nVocab) : CountsOf (s.increment token).tokenCount (tokens ++ [token]) := by
  intro other
  rw [increment, countOf, h.getD, List.count_append, List.count_singleton]
  by_cases heq : other = token
  · subst heq
    rw [AList.lookup_insert, if_neg (by simp)]
    simp
  · rw [AList.lookup_insert_ne heq, h other]
    simp [Ne.symm heq]

theorem decrement_counts {old : Fin nVocab} {tokens : List (Fin nVocab)}
    (h : CountsOf s.tokenCount (old :: tokens)) : CountsOf (s.decrement old).tokenCount tokens := by
  intro token
  have hcount : s.countOf old - 1 = tokens.count old := by
    rw [countOf, h.getD, List.count_cons_self]
    omega
  have hself : countOf { s with tokenCount := s.tokenCount.insert old (s.countOf old - 1) } old =
      tokens.count old := by
    rw [countOf, AList.lookup_insert, Option.getD_some, hcount]
  simp only [decrement, hself]
  have hother : token ≠ old → s.tokenCount.lookup token =
      if tokens.count token = 0 then none else some (tokens.count token : ℤ) := by
    intro hne
    rw [h token, List.count_cons_of_ne (Ne.symm hne)]
  by_cases heq : token = old
  · subst heq
    by_cases hzero : tokens.count token = 0
    · rw [if_pos (by rw [hzero]; rfl), if_pos hzero, AList.lookup_erase]
    · rw [if_neg (by omega), if_neg hzero, AList.lookup_insert, hcount]
  · rw [← hother heq]
    split_ifs
    · rw [AList.lookup_erase_ne heq, AList.lookup_insert_ne heq]
    · rw [AList.lookup_insert_ne heq]

@[simp] theorem decrement_config (old : Fin nVocab) : (s.decrement old).config = s.config := by
  simp only [decrement]
  split_ifs <;> rfl

theorem accept_saw {history : List (Fin nVocab)} (h : Saw s history) (token : Fin nVocab) :
    ∃ s', s.accept token = some s' ∧ s'.config = s.config ∧ Saw s' (history ++ [token]) := by
  have hpushed : (s.prev.pushBack token).toVector = (history ++ [token]).rtake s.config.penaltyLastN :=
    h.capacity ▸ s.prev.toVector_pushBack_rtake (h.prev.trans (by rw [window, h.capacity])) token
  have hlast := s.config.lastN_pos
  simp only [accept, if_neg (Nat.pos_iff_ne_zero.mp hlast)]
  have hwindow := s.prev.toVector_pushBack token
  by_cases hfull : s.prev.sz = s.prev.capacity
  · rw [if_pos hfull] at hwindow
    have hsz : s.prev.toVector.length ≠ 0 := by
      rw [RingBuffer.toVector_length, hfull]
      exact Nat.pos_iff_ne_zero.mp s.prev.capacity_pos
    obtain ⟨old, rest, hold⟩ := List.exists_cons_of_length_pos (Nat.pos_of_ne_zero hsz)
    rw [hold, List.tail_cons] at hwindow
    have hfront : (s.increment token).prev.front = some old := by
      change s.prev.front = some old
      rw [RingBuffer.front_eq, hold, List.head?_cons]
    rw [if_pos (by change s.prev.sz ≥ _; rw [hfull, h.capacity]; rfl), hfront]
    have hconfig : ((s.increment token).decrement old).config = s.config :=
      decrement_config old
    refine ⟨_, rfl, hconfig, h.capacity.trans (congrArg _ hconfig.symm), ?_, ?_⟩
    · rw [window, hconfig]
      exact hpushed
    · -- the oldest token leaves the window, the new one enters it
      have hcounts := increment_counts h.counts token
      rw [← h.prev, hold, List.cons_append] at hcounts
      have hgone := decrement_counts hcounts
      rw [← hwindow, hpushed] at hgone
      rw [window, hconfig]
      exact hgone
  · rw [if_neg hfull] at hwindow
    have hle := s.prev.sz_le
    rw [h.capacity] at hfull hle
    rw [if_neg (Nat.not_le.mpr (Nat.lt_of_le_of_ne hle hfull) :
      ¬ (s.increment token).prev.sz ≥ (s.increment token).config.penaltyLastN)]
    refine ⟨_, rfl, rfl, h.capacity, hpushed, ?_⟩
    have hcounts := increment_counts h.counts token
    rw [← h.prev, ← hwindow, hpushed] at hcounts
    exact hcounts

theorem init_saw (config : PenaltiesConfig nVocab) : Saw (init config) [] :=
  ⟨rfl, (List.rtake_nil _).symm, by rw [window, List.rtake_nil]; exact countsOf_empty⟩

theorem reset_saw {history : List (Fin nVocab)} (h : Saw s history) : Saw s.reset [] :=
  ⟨h.capacity, (List.rtake_nil _).symm, by rw [window, List.rtake_nil]; exact countsOf_empty⟩

theorem clone_saw {history : List (Fin nVocab)} (h : Saw s history) : Saw s.clone history :=
  ⟨h.capacity, h.prev, h.counts⟩

theorem copyState_saw {history : List (Fin nVocab)} {src : Penalties nVocab} (h : Saw src history)
    (hconfig : s.config = src.config) : Saw (s.copyState src) history := by
  have hwindow : (s.copyState src).window history = src.window history := by
    change history.rtake s.config.penaltyLastN = _
    rw [hconfig, window]
  refine ⟨h.capacity.trans (congrArg _ hconfig.symm), h.prev.trans hwindow.symm, ?_⟩
  rw [hwindow]
  exact h.counts

/-! ## Graph inputs -/

theorem CountsOf.pos {counts : AList fun _ : Fin nVocab => ℤ} {tokens : List (Fin nVocab)}
    (h : CountsOf counts tokens) {token : Fin nVocab} {count : ℤ}
    (hcount : counts.lookup token = some count) : 0 < count := by
  rw [h token] at hcount
  split_ifs at hcount
  cases hcount
  omega

theorem Saw.entries_le {history : List (Fin nVocab)} (h : Saw s history) :
    s.tokenCount.entries.length ≤ s.config.nMax := by
  have hkeys : s.tokenCount.entries.length = s.tokenCount.keys.length :=
    (List.length_map _).symm
  rw [hkeys]
  refine le_min ?_ ?_
  · have hsubset : s.tokenCount.keys ⊆ s.window history := by
      intro token htoken
      have hsome := AList.lookup_isSome.mpr htoken
      rw [h.counts token] at hsome
      split_ifs at hsome with hzero
      · cases hsome
      · exact List.count_pos_iff.mp (Nat.pos_of_ne_zero hzero)
    refine (List.subperm_of_subset s.tokenCount.keys_nodup hsubset).length_le.trans ?_
    rw [window, List.rtake, List.length_drop]
    omega
  · have hsubset : s.tokenCount.keys ⊆ List.finRange nVocab := fun _ _ => List.mem_finRange _
    have hle := (List.subperm_of_subset s.tokenCount.keys_nodup hsubset).length_le
    rwa [List.length_finRange] at hle

/-- What the graph needs of its inputs: each listed token has its count, and every token with an
entry is listed. -/
structure InputsOf (s : Penalties nVocab) (inputs : Inputs nVocab s.config.nMax) : Prop where
  counts : ∀ k, inputs.counts k = s.countOf (inputs.tokenIds k)
  listed : ∀ token, (s.tokenCount.lookup token).isSome → ∃ k, inputs.tokenIds k = token

theorem exists_filler (h : s.tokenCount.entries.length < nVocab) :
    ((List.finRange nVocab).find? fun token => (s.tokenCount.lookup token).isNone).isSome := by
  rw [List.find?_isSome]
  by_contra hall
  have hsubset : List.finRange nVocab ⊆ s.tokenCount.keys := by
    intro token _
    refine AList.mem_keys.mp (AList.lookup_isSome.mp ?_)
    by_contra hnone
    exact hall ⟨token, List.mem_finRange token, by simpa using hnone⟩
  have hle := (List.subperm_of_subset (List.nodup_finRange nVocab) hsubset).length_le
  rw [List.length_finRange] at hle
  have hkeys : s.tokenCount.keys.length = s.tokenCount.entries.length := List.length_map _
  omega

theorem backendSetInput_spec {history : List (Fin nVocab)} (h : Saw s history) :
    ∃ inputs, s.backendSetInput = some inputs ∧ InputsOf s inputs := by
  have hle := h.entries_le
  simp only [backendSetInput, if_neg (Nat.not_lt.mpr hle)]
  generalize hsorted : s.tokenCount.entries.mergeSort (fun a b => decide (a.1 ≤ b.1)) = entries
  have hperm : entries.Perm s.tokenCount.entries := hsorted ▸ List.mergeSort_perm _ _
  have hlookup : ∀ entry ∈ entries, s.tokenCount.lookup entry.1 = some entry.2 :=
    fun entry hentry => AList.mem_lookup_iff.mpr (hperm.mem_iff.mp hentry)
  have hlisted : ∀ filler : Fin nVocab, ∀ token, (s.tokenCount.lookup token).isSome →
      ∃ k : Fin s.config.nMax, (entries[k.val]?.map (·.1)).getD filler = token := by
    intro filler token htoken
    obtain ⟨count, hcount⟩ := Option.isSome_iff_exists.mp htoken
    obtain ⟨k, hk, hentry⟩ := List.mem_iff_getElem.mp
      (hperm.mem_iff.mpr (AList.mem_lookup_iff.mp hcount))
    refine ⟨⟨k, hk.trans_le (hperm.length_eq ▸ hle)⟩, ?_⟩
    rw [List.getElem?_eq_getElem hk, hentry]
    rfl
  have hcounts : ∀ (filler : Fin nVocab) (k : Fin s.config.nMax),
      (entries.length ≤ k.val → s.tokenCount.lookup filler = none) →
      (entries[k.val]?.map (·.2)).getD 0 =
        s.countOf ((entries[k.val]?.map (·.1)).getD filler) := by
    intro filler k hnone
    cases hentry : entries[k.val]? with
    | some entry =>
      have hcount := hlookup entry (List.mem_of_getElem? hentry)
      simp only [countOf, Option.map_some, Option.getD_some, hcount]
    | none =>
      have hfree := hnone (List.getElem?_eq_none_iff.mp hentry)
      simp only [countOf, Option.map_none, Option.getD_none, hfree]
  by_cases hroom : entries.length < s.config.nMax
  · have hsome := exists_filler (s := s)
      (hperm.length_eq ▸ hroom.trans_le (Nat.min_le_right _ _))
    obtain ⟨filler, hfiller⟩ := Option.isSome_iff_exists.mp hsome
    rw [if_pos hroom, hfiller]
    have hnone := List.find?_some hfiller
    exact ⟨_, rfl, fun k => hcounts filler k fun _ => Option.isNone_iff_eq_none.mp hnone,
      hlisted filler⟩
  · rw [if_neg hroom]
    exact ⟨_, rfl, fun k => hcounts _ k fun hk => absurd k.isLt (by omega), hlisted _⟩

/-! ## Logits -/

/-- A logit after the penalties for a count of its token. -/
def penalizedLogit (config : PenaltiesConfig nVocab) (logit count : ℚ) : ℚ :=
  if 0 < count then
    (if logit ≤ 0 then logit * config.penaltyRepeat else logit / config.penaltyRepeat) -
      (count * config.penaltyFreq + config.penaltyPresent)
  else logit

theorem penalize_logit {tokens : List (Fin nVocab)} (h : CountsOf s.tokenCount tokens)
    (data : TokenData nVocab) :
    (s.penalize data).logit = penalizedLogit s.config data.logit (s.countOf data.id) := by
  rw [penalize, countOf]
  cases hcount : s.tokenCount.lookup data.id with
  | none => rfl
  | some count =>
    have hpos : 0 < count := h.pos hcount
    have hcast : (0 : ℚ) < count := Int.cast_pos.mpr hpos
    simp only [penalizedLogit, Option.getD_some, gt_iff_lt, hpos, hcast, if_true, one_mul]

theorem ite_sub_scale {m : ℕ} (p a : Fin m → ℚ) (c : ℚ) (k : Fin m) :
    (if c ≠ 0 then sub p (scale a c) else p) k = p k - a k * c := by
  by_cases hc : c = 0
  · rw [if_neg (not_not.mpr hc), hc, mul_zero, sub_zero]
  · rw [if_pos hc]
    rfl

theorem ite_mul_masks {m : ℕ} (r : ℚ) (gathered active : Fin m → ℚ) (k : Fin m) :
    (if r ≠ 1 then
      mul gathered
        (add
          (mul
            (add (scale (TensorRows.step gathered) (1 / r))
              (scale (sub (fill 1) (TensorRows.step gathered)) r))
            (TensorRows.step active))
          (sub (fill 1) (TensorRows.step active)))
      else gathered) k =
      if 0 < active k then (if gathered k ≤ 0 then gathered k * r else gathered k / r)
      else gathered k := by
  by_cases hr : r = 1
  · rw [if_neg (not_not.mpr hr), hr, mul_one, div_one, ite_self, ite_self]
  · rw [if_pos hr]
    simp only [mul, add, scale, sub, fill, TensorRows.step]
    rcases lt_or_ge 0 (active k) with hactive | hactive
    · rw [if_pos hactive, if_pos hactive]
      rcases lt_or_ge 0 (gathered k) with hpos | hneg
      · rw [if_pos hpos, if_neg (not_le.mpr hpos)]
        ring
      · rw [if_neg (not_lt.mpr hneg), if_pos hneg]
        ring
    · rw [if_neg (not_lt.mpr hactive), if_neg (not_lt.mpr hactive)]
      ring

theorem penalized_apply (config : PenaltiesConfig nVocab) {m : ℕ} (gathered : Fin m → ℚ)
    {counts : Fin m → ℚ} (hcounts : ∀ k, 0 ≤ counts k) (k : Fin m) :
    penalized config gathered counts k = penalizedLogit config (gathered k) (counts k) := by
  rw [penalized, ite_sub_scale, ite_sub_scale, ite_mul_masks, penalizedLogit, TensorRows.step]
  rcases (hcounts k).lt_or_eq with hpos | hzero
  · rw [if_pos hpos, if_pos hpos, if_pos hpos]
    ring
  · rw [← hzero, if_neg (lt_irrefl _), if_neg (lt_irrefl _), if_neg (lt_irrefl _)]
    ring

theorem penalizedLogit_zero (config : PenaltiesConfig nVocab) (logit : ℚ) :
    penalizedLogit config logit 0 = logit := if_neg (lt_irrefl 0)

theorem apply_logits {tokens : List (Fin nVocab)} (h : CountsOf s.tokenCount tokens) {m : ℕ}
    (candidates : Fin m → Fin nVocab) (logits : Fin m → ℚ) :
    (s.apply (candidatesOf candidates logits)).data.map TokenData.logit =
      List.ofFn fun k => penalizedLogit s.config (logits k) (s.countOf (candidates k)) := by
  rw [apply, s.config.enabled]
  simp only [Bool.false_eq_true, if_false, candidatesOf, List.map_ofFn]
  congr 1
  funext k
  exact penalize_logit h _

theorem CountsOf.cast_nonneg {tokens : List (Fin nVocab)} (h : CountsOf s.tokenCount tokens)
    (token : Fin nVocab) : (0 : ℚ) ≤ s.countOf token := by
  rw [countOf, h.getD]
  exact Int.cast_nonneg (Int.natCast_nonneg _)

variable {inputs : Inputs nVocab s.config.nMax}

theorem InputsOf.countOf_eq_zero (h : InputsOf s inputs) {token : Fin nVocab}
    (hfree : ¬∃ k, inputs.tokenIds k = token) : s.countOf token = 0 := by
  have hnone : ¬(s.tokenCount.lookup token).isSome := fun hsome => hfree (h.listed token hsome)
  rw [countOf, Option.not_isSome_iff_eq_none.mp hnone]
  rfl

theorem backendApply_apply (h : InputsOf s inputs) {tokens : List (Fin nVocab)}
    (hcounts : CountsOf s.tokenCount tokens) (order : Equiv.Perm (Fin s.config.nMax))
    (logits : Fin nVocab → ℚ) (token : Fin nVocab) :
    backendApply s.config order inputs logits token =
      penalizedLogit s.config (logits token) (s.countOf token) := by
  have hnonneg : ∀ k, (0 : ℚ) ≤ inputs.counts k := fun k => by
    rw [h.counts k]
    exact hcounts.cast_nonneg _
  have hrows : ∀ k, penalized s.config (getRows logits inputs.tokenIds)
      (fun k => (inputs.counts k : ℚ)) k =
      penalizedLogit s.config (logits (inputs.tokenIds k)) (s.countOf (inputs.tokenIds k)) :=
    fun k => by rw [penalized_apply s.config _ hnonneg, h.counts k, getRows]
  rw [backendApply, s.config.enabled]
  simp only [Bool.false_eq_true, if_false]
  rw [setRows_eq order logits
    (f := fun token => penalizedLogit s.config (logits token) (s.countOf token)) hrows]
  split_ifs with hlisted
  · rfl
  · rw [h.countOf_eq_zero hlisted, Int.cast_zero, penalizedLogit_zero]

theorem backendApplyCandidates_apply (h : InputsOf s inputs) {tokens : List (Fin nVocab)}
    (hcounts : CountsOf s.tokenCount tokens) (order : Equiv.Perm (Fin s.config.nMax)) {m : ℕ}
    (candidates : Fin m → Fin nVocab) (logits : Fin m → ℚ) (k : Fin m) :
    backendApplyCandidates s.config order inputs candidates logits k =
      penalizedLogit s.config (logits k) (s.countOf (candidates k)) := by
  have hrows : ∀ token, setRows order (fill 0) (fun k => (inputs.counts k : ℚ)) inputs.tokenIds
      token = s.countOf token := by
    intro token
    rw [setRows_eq order (fill 0) (f := fun token => (s.countOf token : ℚ))
      fun k => congrArg Int.cast (h.counts k)]
    split_ifs with hlisted
    · rfl
    · rw [h.countOf_eq_zero hlisted, Int.cast_zero, fill]
  have hgathered : ∀ k, getRows (setRows order (fill 0) (fun k => (inputs.counts k : ℚ))
      inputs.tokenIds) candidates k = s.countOf (candidates k) := fun k => hrows (candidates k)
  rw [backendApplyCandidates, s.config.enabled]
  simp only [Bool.false_eq_true, if_false]
  rw [penalized_apply s.config, hgathered]
  intro k
  rw [hgathered]
  exact hcounts.cast_nonneg _

/-- The graph on the inputs of the sampler gives the logits of the CPU, for the full vocabulary
and for candidates. -/
def Agrees (s : Penalties nVocab) : Prop :=
  ∃ inputs, s.backendSetInput = some inputs ∧
    ∀ order : Equiv.Perm (Fin s.config.nMax),
      (∀ logits : Fin nVocab → ℚ,
        (s.apply (candidatesOf id logits)).data.map TokenData.logit =
          List.ofFn (backendApply s.config order inputs logits)) ∧
      ∀ (m : ℕ) (candidates : Fin m → Fin nVocab) (logits : Fin m → ℚ),
        (s.apply (candidatesOf candidates logits)).data.map TokenData.logit =
          List.ofFn (backendApplyCandidates s.config order inputs candidates logits)

theorem Saw.agrees {history : List (Fin nVocab)} (h : Saw s history) : Agrees s := by
  obtain ⟨inputs, hinputs, hspec⟩ := backendSetInput_spec h
  refine ⟨inputs, hinputs, fun order => ⟨fun logits => ?_, fun m candidates logits => ?_⟩⟩
  · rw [apply_logits h.counts]
    congr 1
    funext token
    exact (backendApply_apply hspec h.counts order logits token).symm
  · rw [apply_logits h.counts]
    congr 1
    funext k
    exact (backendApplyCandidates_apply hspec h.counts order candidates logits k).symm

/-! ## Runs -/

/-- A sampler with the tokens it accepted since its reset, the copied ones included. -/
structure Tracked (nVocab : ℕ) where
  sampler : Penalties nVocab
  history : List (Fin nVocab)

inductive SamplerAction (ι : Type) (nVocab : ℕ)
  | init (i : ι) (config : PenaltiesConfig nVocab)
  | accept (i : ι) (token : Fin nVocab)
  | reset (i : ι)
  | clone (i dst : ι)
  | copyState (src dst : ι)

variable {ι : Type} [DecidableEq ι]

/-- A call on one of several samplers. A state is copied between samplers of one configuration. -/
def samplerStep (σ : ι → Option (Tracked nVocab)) :
    SamplerAction ι nVocab → Option (ι → Option (Tracked nVocab))
  | .init i config => some (Function.update σ i (some ⟨init config, []⟩))
  | .accept i token =>
    (σ i).bind fun x => (x.sampler.accept token).map fun s =>
      Function.update σ i (some ⟨s, x.history ++ [token]⟩)
  | .reset i => (σ i).map fun x => Function.update σ i (some ⟨x.sampler.reset, []⟩)
  | .clone i dst => (σ i).map fun x => Function.update σ dst (some ⟨x.sampler.clone, x.history⟩)
  | .copyState src dst =>
    (σ src).bind fun x => (σ dst).bind fun y =>
      if y.sampler.config = x.sampler.config then
        some (Function.update σ dst (some ⟨y.sampler.copyState x.sampler, x.history⟩))
      else none

def AllSaw (σ : ι → Option (Tracked nVocab)) : Prop :=
  ∀ i x, σ i = some x → Saw x.sampler x.history

theorem AllSaw.update {σ : ι → Option (Tracked nVocab)} (h : AllSaw σ) (i : ι)
    {x : Tracked nVocab} (hx : Saw x.sampler x.history) :
    AllSaw (Function.update σ i (some x)) := by
  intro j y hy
  rw [Function.update_apply] at hy
  split_ifs at hy
  · cases hy
    exact hx
  · exact h j y hy

theorem samplerStep_allSaw (σ : ι → Option (Tracked nVocab)) (a : SamplerAction ι nVocab)
    (σ' : ι → Option (Tracked nVocab)) (h : AllSaw σ) (hstep : samplerStep σ a = some σ') :
    AllSaw σ' := by
  cases a with
  | init i config =>
    cases hstep
    exact h.update i (init_saw config)
  | accept i token =>
    obtain ⟨x, hx, hmap⟩ := Option.bind_eq_some_iff.mp hstep
    obtain ⟨s, haccept, rfl⟩ := Option.map_eq_some_iff.mp hmap
    obtain ⟨s', hs', -, hsaw⟩ := accept_saw (h i x hx) token
    cases haccept.symm.trans hs'
    exact h.update i hsaw
  | reset i =>
    obtain ⟨x, hx, rfl⟩ := Option.map_eq_some_iff.mp hstep
    exact h.update i (reset_saw (h i x hx))
  | clone i dst =>
    obtain ⟨x, hx, rfl⟩ := Option.map_eq_some_iff.mp hstep
    exact h.update dst (clone_saw (h i x hx))
  | copyState src dst =>
    obtain ⟨x, hx, hbind⟩ := Option.bind_eq_some_iff.mp hstep
    obtain ⟨y, hy, hif⟩ := Option.bind_eq_some_iff.mp hbind
    split_ifs at hif with hconfig
    cases hif
    have hsaw := copyState_saw (s := y.sampler) (h src x hx) hconfig
    exact h.update dst hsaw

/-- In every run each sampler holds the counts of its window, can accept any token, and produces
the same logits on the CPU and on a backend. -/
theorem run_exact (actions : List (SamplerAction ι nVocab)) :
    Along samplerStep
      (fun σ => ∀ i x, σ i = some x →
        CountsOf x.sampler.tokenCount (x.sampler.window x.history) ∧
          (∀ token, (x.sampler.accept token).isSome) ∧ Agrees x.sampler)
      (fun _ => none) actions := by
  have hstart : AllSaw (fun _ : ι => (none : Option (Tracked nVocab))) := by
    intro i x hnone
    cases hnone
  refine (along_of_step samplerStep_allSaw actions hstart).mono ?_
  intro σ h i x hx
  have hsaw := h i x hx
  refine ⟨hsaw.counts, fun token => ?_, hsaw.agrees⟩
  obtain ⟨s, hs, -⟩ := accept_saw hsaw token
  rw [hs]
  rfl

end Penalties
end RocmFpx
