import Mathlib.Algebra.Order.BigOperators.Group.List
import Mathlib.Algebra.Order.Ring.Nat
import RocmFpx.GuardedRuns
import RocmFpx.PromptCache
import RocmFpx.ServerTokensState

/-!
What every operation of the cache of prompts keeps: the stored size stays within the limit, no
cached prompt is a prefix of another, and entries go only because a new prompt contains them or
because they are the oldest and the limit demands it.
-/

namespace RocmFpx
namespace PromptCache

open Fallible

variable {C F : Type} {api : Mtmd C} {ops : FloatOps F}

/-- `a` is a prefix of `b` in the sense of `get_common_prefix`. -/
def isPrefix (api : Mtmd C) (a b : ServerTokens C) : Bool :=
  match ServerTokens.getCommonPrefix api a b with
  | .ok n => n == a.tokens.length
  | .error _ => false

/-! ## Removing from the front -/

theorem popWhile_eq_drop (full : List (PromptCacheState C) → Bool)
    (states : List (PromptCacheState C)) :
    ∃ k, popWhile full states = states.drop k ∧ (∀ j < k, full (states.drop j) = true) ∧
      (states.drop k = [] ∨ full (states.drop k) = false) := by
  induction states with
  | nil => exact ⟨0, rfl, fun j hj => absurd hj (Nat.not_lt_zero j), .inl rfl⟩
  | cons state states ih =>
    by_cases hover : full (state :: states) = true
    · obtain ⟨k, heq, hall, hlast⟩ := ih
      refine ⟨k + 1, ?_, fun j hj => ?_, hlast⟩
      · rw [popWhile, if_pos hover, heq, List.drop_succ_cons]
      · cases j with
        | zero => exact hover
        | succ j => exact hall j (Nat.lt_of_succ_lt_succ hj)
    · exact ⟨0, if_neg hover, fun j hj => absurd hj (Nat.not_lt_zero j),
        .inr (Bool.eq_false_iff.mpr hover)⟩

theorem sizeOf_sublist {as bs : List (PromptCacheState C)} (h : as.Sublist bs) :
    sizeOf as ≤ sizeOf bs := (h.map _).sum_le_sum fun _ _ => Nat.zero_le _

theorem sizeOf_append (as bs : List (PromptCacheState C)) :
    sizeOf (as ++ bs) = sizeOf as + sizeOf bs := by
  rw [sizeOf, List.map_append, List.sum_append, sizeOf, sizeOf]

/-! ## The searches of `alloc` -/

section
variable {tokens : ServerTokens C} {states : List (PromptCacheState C)}

theorem isPrefix_eq {a b : ServerTokens C} {n : ℕ}
    (h : ServerTokens.getCommonPrefix api a b = .ok n) :
    isPrefix api a b = (n == a.tokens.length) := by
  unfold isPrefix
  rw [h]

theorem exists_commonPrefix {a b : ServerTokens C} (ha : a.WellFormed api) (hb : b.WellFormed api) :
    ∃ n, ServerTokens.getCommonPrefix api a b = .ok n ∧
      ServerTokens.getCommonPrefix api b a = .ok n := by
  have hcomm := ServerTokens.getCommonPrefix_comm ha hb
  obtain ⟨xs, ha⟩ := ha
  obtain ⟨ys, hb⟩ := hb
  have heq := ServerTokens.getCommonPrefix_eq ha hb
  exact ⟨_, heq, hcomm.symm.trans heq⟩

theorem isCovered_eq (htokens : tokens.WellFormed api)
    (hstates : ∀ it ∈ states, it.prompt.tokens.WellFormed api) :
    isCovered api tokens states =
      .ok (states.any fun it => isPrefix api tokens it.prompt.tokens) := by
  induction states with
  | nil => rfl
  | cons it its ih =>
    obtain ⟨hit, hits⟩ := List.forall_mem_cons.mp hstates
    obtain ⟨n, hn, hn'⟩ := exists_commonPrefix hit htokens
    rw [isCovered, hn, List.any_cons, isPrefix_eq hn']
    change (if n = tokens.tokens.length then pure true else isCovered api tokens its) = _
    rw [ih hits]
    by_cases heq : n = tokens.tokens.length
    · rw [if_pos heq, beq_iff_eq.mpr heq]
      rfl
    · rw [if_neg heq, beq_eq_false_iff_ne.mpr heq, Bool.false_or]

theorem removeObsolete_eq (htokens : tokens.WellFormed api)
    (hstates : ∀ it ∈ states, it.prompt.tokens.WellFormed api) :
    removeObsolete api tokens states =
      .ok (states.filter fun it => !isPrefix api it.prompt.tokens tokens) := by
  induction states with
  | nil => rfl
  | cons it its ih =>
    obtain ⟨hit, hits⟩ := List.forall_mem_cons.mp hstates
    obtain ⟨n, hn, -⟩ := exists_commonPrefix hit htokens
    rw [removeObsolete, hn, ih hits, List.filter_cons, isPrefix_eq hn]
    change Except.ok (if n = it.prompt.tokens.tokens.length then _ else _) = _
    by_cases heq : n = it.prompt.tokens.tokens.length
    · rw [if_pos heq, beq_iff_eq.mpr heq]
      rfl
    · rw [if_neg heq, beq_eq_false_iff_ne.mpr heq]
      rfl

end

/-! ## A copy in the place of a prompt -/

section
open ServerTokens
variable {a b : ServerTokens C} {xs ys : List (Item C)}

theorem agrees_copy (hapi : api.Faithful) (x y : Item C) :
    (x.copy api).Agrees api y ↔ x.Agrees api y := by
  cases x with
  | text tok => rfl
  | media chunk =>
    cases y with
    | text tok => rfl
    | media chunk' =>
      rw [Item.copy, agrees_media, agrees_media, (hapi.copy chunk).getId,
        (hapi.copy chunk).getNTokens]

theorem agreeing_copy (hapi : api.Faithful) (xs ys : List (Item C)) :
    agreeing api (xs.map (Item.copy api)) ys = agreeing api xs ys := by
  induction xs generalizing ys with
  | nil => cases ys <;> rfl
  | cons x xs ih =>
    cases ys with
    | nil => rfl
    | cons y ys =>
      have hwidth : (x.copy api).tokens api = x.tokens api := by
        have hflat := flat_copy hapi [x]
        rwa [List.map_singleton, flat, flat, List.flatMap_singleton, List.flatMap_singleton] at hflat
      rw [List.map_cons]
      by_cases h : x.Agrees api y
      · rw [agreeing_cons h, agreeing_cons ((agrees_copy hapi x y).mpr h), ih, hwidth]
      · rw [agreeing_stop h, agreeing_stop fun h' => h ((agrees_copy hapi x y).mp h')]

theorem getCommonPrefix_clone (hapi : api.Faithful) (ha : a.WellFormed api)
    (hb : b.WellFormed api) :
    getCommonPrefix api (a.clone api) b = getCommonPrefix api a b := by
  obtain ⟨xs, ha⟩ := ha
  obtain ⟨ys, hb⟩ := hb
  rw [getCommonPrefix_eq ha hb, getCommonPrefix_eq (ha.clone hapi) hb, agreeing_copy hapi]

theorem clone_wellFormed (hapi : api.Faithful) (ha : a.WellFormed api) :
    (a.clone api).WellFormed api := by
  obtain ⟨xs, ha⟩ := ha
  exact ⟨_, ha.clone hapi⟩

theorem isPrefix_clone (hapi : api.Faithful) (ha : a.WellFormed api) (hb : b.WellFormed api) :
    isPrefix api (a.clone api) b = isPrefix api a b := by
  unfold isPrefix
  rw [getCommonPrefix_clone hapi ha hb]
  rfl

theorem isPrefix_clone_right (hapi : api.Faithful) (ha : a.WellFormed api)
    (hb : b.WellFormed api) : isPrefix api b (a.clone api) = isPrefix api b a := by
  unfold isPrefix
  rw [getCommonPrefix_comm hb (clone_wellFormed hapi ha), getCommonPrefix_clone hapi ha hb,
    getCommonPrefix_comm ha hb]

end
/-! ## The invariant -/

def Apart (api : Mtmd C) (a b : PromptCacheState C) : Prop :=
  isPrefix api a.prompt.tokens b.prompt.tokens = false ∧
    isPrefix api b.prompt.tokens a.prompt.tokens = false

/-- What holds of a cache with a limit after each operation. -/
structure Kept (api : Mtmd C) (cache : PromptCache C) : Prop where
  limited : 0 < cache.limitSize
  bounded : cache.size ≤ cache.limitSize
  apart : cache.states.Pairwise (Apart api)
  wellFormed : ∀ it ∈ cache.states, it.prompt.tokens.WellFormed api

section
variable {cache : PromptCache C}

theorem Kept.sublist (h : Kept api cache) {states : List (PromptCacheState C)} {limitSize : ℕ}
    (hsub : states.Sublist cache.states) (hpos : 0 < limitSize) (hle : sizeOf states ≤ limitSize) :
    Kept api { cache with states := states, limitSize := limitSize } :=
  ⟨hpos, hle, h.apart.sublist hsub, fun it hit => h.wellFormed it (hsub.subset hit)⟩

theorem update_spec (cache : PromptCache C) (hpos : 0 < cache.limitSize) :
    ∃ m₁ m₂, update ops cache = { cache with states := cache.states.drop (m₁ + m₂) } ∧
      sizeOf (cache.states.drop (m₁ + m₂)) ≤ cache.limitSize ∧
      (∀ j < m₁, cache.limitSize < sizeOf (cache.states.drop j)) ∧
      ∀ j < m₂, 0 < cache.limitTokens ∧
        limitTokensCur ops cache.limitSize cache.limitTokens (cache.states.drop m₁) <
          nTokensOf (cache.states.drop (m₁ + j)) := by
  obtain ⟨m₁, heq₁, hall₁, hlast₁⟩ :=
    popWhile_eq_drop (fun st => decide (cache.limitSize < sizeOf st)) cache.states
  have hfit : sizeOf (cache.states.drop m₁) ≤ cache.limitSize := by
    rcases hlast₁ with hnil | hfit
    · rw [hnil]
      exact Nat.zero_le _
    · exact Nat.le_of_not_lt (of_decide_eq_false hfit)
  unfold update
  rw [if_pos hpos, heq₁]
  by_cases htokens : 0 < cache.limitTokens
  · obtain ⟨m₂, heq₂, hall₂, -⟩ := popWhile_eq_drop
      (fun st => decide (limitTokensCur ops cache.limitSize cache.limitTokens
        (cache.states.drop m₁) < nTokensOf st)) (cache.states.drop m₁)
    refine ⟨m₁, m₂, ?_, ?_, fun j hj => of_decide_eq_true (hall₁ j hj), fun j hj => ⟨htokens, ?_⟩⟩
    · dsimp only
      rw [if_pos htokens, heq₂, List.drop_drop]
    · refine (sizeOf_sublist ?_).trans hfit
      rw [← List.drop_drop]
      exact List.drop_sublist _ _
    · rw [← List.drop_drop]
      exact of_decide_eq_true (hall₂ j hj)
  · refine ⟨m₁, 0, ?_, hfit, fun j hj => of_decide_eq_true (hall₁ j hj),
      fun j hj => absurd hj (Nat.not_lt_zero j)⟩
    dsimp only
    rw [if_neg htokens]
    rfl

theorem Kept.update (h : Kept api cache) : Kept api (update ops cache) := by
  obtain ⟨m₁, m₂, heq, hfit, -⟩ := update_spec cache h.limited
  rw [heq]
  exact h.sublist (List.drop_sublist _ _) h.limited hfit

/-- The entries that the new prompt does not contain. -/
def others (api : Mtmd C) (prompt : ServerPrompt C) (cache : PromptCache C) :
    List (PromptCacheState C) :=
  cache.states.filter fun it => !isPrefix api it.prompt.tokens prompt.tokens

def Covered (api : Mtmd C) (prompt : ServerPrompt C) (cache : PromptCache C) : Prop :=
  ∃ it ∈ cache.states, isPrefix api prompt.tokens it.prompt.tokens = true

/-- What `alloc` does to a cache with a limit: a prompt that is covered or too large changes
nothing; else the entries it contains go, then the oldest ones as long as the new entry does not
fit, then, if nothing can be allocated, the oldest ones as long as they exceed the new limits. -/
def AllocEffect (api : Mtmd C) (ops : FloatOps F) (prompt : ServerPrompt C) (tgt dft : ℕ)
    (allocates : Bool) (cache cache' : PromptCache C) : Prop :=
  let new := tgt + dft + prompt.checkpointsSize
  let rest := others api prompt cache
  let refused := Covered api prompt cache ∨ cache.limitSize < new
  (refused → cache' = cache) ∧
  (¬ refused → ∃ k, (∀ j < k, cache.limitSize < sizeOf (rest.drop j) + new) ∧
    sizeOf (rest.drop k) + new ≤ cache.limitSize ∧
    (allocates = true → cache' = { cache with states := rest.drop k ++
      [⟨prompt.clone api, ⟨List.replicate tgt 0, List.replicate dft 0⟩⟩] }) ∧
    (allocates = false → ∃ m₁ m₂, cache' = { cache with
        states := rest.drop (k + (m₁ + m₂))
        limitSize := max 1 (ops.fourTenths (sizeOf (rest.drop k))) } ∧
      (∀ j < m₁, cache'.limitSize < sizeOf (rest.drop (k + j))) ∧
      ∀ j < m₂, 0 < cache.limitTokens ∧
        limitTokensCur ops cache'.limitSize cache.limitTokens (rest.drop (k + m₁)) <
          nTokensOf (rest.drop (k + (m₁ + j)))))

/-- `alloc` makes an entry. -/
def Admits (api : Mtmd C) (prompt : ServerPrompt C) (tgt dft : ℕ) (allocates : Bool)
    (cache : PromptCache C) : Prop :=
  ¬ Covered api prompt cache ∧ tgt + dft + prompt.checkpointsSize ≤ cache.limitSize ∧
    allocates = true

theorem covered_iff (prompt : ServerPrompt C) (cache : PromptCache C) :
    (cache.states.any fun it => isPrefix api prompt.tokens it.prompt.tokens) = true ↔
      Covered api prompt cache := List.any_eq_true

theorem Kept.push (hapi : api.Faithful) (h : Kept api cache) {prompt : ServerPrompt C}
    (hprompt : prompt.tokens.WellFormed api) (hnew : ¬ Covered api prompt cache)
    {states : List (PromptCacheState C)} (hsub : states.Sublist (others api prompt cache))
    {data : PromptData} (hfit : sizeOf states +
      (data.main.length + data.drft.length + prompt.checkpointsSize) ≤ cache.limitSize) :
    Kept api { cache with states := states ++ [⟨prompt.clone api, data⟩] } where
  limited := h.limited
  bounded := by
    refine Eq.trans_le (sizeOf_append _ _) (hfit.trans' (Nat.add_le_add_left (Nat.le_of_eq ?_) _))
    exact Nat.add_zero _
  apart := by
    refine List.pairwise_append.mpr ⟨h.apart.sublist (hsub.trans List.filter_sublist),
      List.pairwise_singleton _ _, fun it hit state hstate => ?_⟩
    obtain rfl := List.mem_singleton.mp hstate
    obtain ⟨hmem, hother⟩ := List.mem_filter.mp (hsub.subset hit)
    have hwf := h.wellFormed it hmem
    constructor
    · change isPrefix api it.prompt.tokens (prompt.tokens.clone api) = false
      rw [isPrefix_clone_right hapi hprompt hwf]
      simpa using hother
    · change isPrefix api (prompt.tokens.clone api) it.prompt.tokens = false
      rw [isPrefix_clone hapi hprompt hwf]
      exact Bool.eq_false_iff.mpr fun hpre => hnew ⟨it, hmem, hpre⟩
  wellFormed := by
    refine List.forall_mem_append.mpr ⟨fun it hit => ?_, List.forall_mem_singleton.mpr ?_⟩
    · exact h.wellFormed it (List.mem_filter.mp (hsub.subset hit)).1
    · exact clone_wellFormed hapi hprompt

theorem alloc_spec (hapi : api.Faithful) (h : Kept api cache) {prompt : ServerPrompt C}
    (hprompt : prompt.tokens.WellFormed api) (tgt dft : ℕ) (allocates : Bool) :
    ∃ cache' stored, alloc api ops prompt tgt dft allocates cache = .ok (cache', stored) ∧
      (stored = true ↔ Admits api prompt tgt dft allocates cache) ∧
      AllocEffect api ops prompt tgt dft allocates cache cache' ∧ Kept api cache' := by
  unfold alloc
  rw [isCovered_eq hprompt h.wellFormed, ok_bind]
  unfold AllocEffect Admits
  by_cases hcovered : Covered api prompt cache
  · rw [(covered_iff prompt cache).mpr hcovered, if_pos rfl]
    exact ⟨cache, false, rfl, iff_of_false nofun fun hadmits => hadmits.1 hcovered,
      ⟨fun _ => rfl, fun hnot => absurd (.inl hcovered) hnot⟩, h⟩
  rw [if_neg fun hany => hcovered ((covered_iff prompt cache).mp hany)]
  by_cases hlarge : cache.limitSize < tgt + dft + prompt.checkpointsSize
  · rw [if_pos ⟨h.limited, hlarge⟩]
    exact ⟨cache, false, rfl,
      iff_of_false nofun fun hadmits => absurd hadmits.2.1 (Nat.not_le_of_lt hlarge),
      ⟨fun _ => rfl, fun hnot => absurd (.inr hlarge) hnot⟩, h⟩
  rw [if_neg fun hlarge' => hlarge hlarge'.2, removeObsolete_eq hprompt h.wellFormed,
    ok_bind]
  have hfits := Nat.le_of_not_lt hlarge
  have hsub : (others api prompt cache).Sublist cache.states := List.filter_sublist
  obtain ⟨k, heq, hall, hlast⟩ := popWhile_eq_drop (fun st => decide
    (cache.limitSize < sizeOf st + (tgt + dft + prompt.checkpointsSize))) (others api prompt cache)
  have hroom : sizeOf ((others api prompt cache).drop k) + (tgt + dft + prompt.checkpointsSize) ≤
      cache.limitSize := by
    rcases hlast with hnil | hfit
    · rw [hnil]
      exact (Nat.zero_add _).trans_le hfits
    · exact Nat.le_of_not_lt (of_decide_eq_false hfit)
  have hneither : ¬ (Covered api prompt cache ∨
      cache.limitSize < tgt + dft + prompt.checkpointsSize) := not_or.mpr ⟨hcovered, hlarge⟩
  have hdrop := (List.drop_sublist k (others api prompt cache)).trans hsub
  have hkept : popWhile (fun st => decide
      (cache.limitSize < sizeOf st + (tgt + dft + prompt.checkpointsSize)))
      (cache.states.filter fun it => !isPrefix api it.prompt.tokens prompt.tokens) =
        (others api prompt cache).drop k := heq
  dsimp only
  rw [if_pos h.limited, hkept]
  cases allocates with
  | true =>
    rw [if_pos rfl]
    refine ⟨_, true, rfl, iff_of_true rfl ⟨hcovered, hfits, rfl⟩,
      ⟨fun href => absurd href hneither, fun _ => ⟨k, fun j hj => of_decide_eq_true (hall j hj),
        hroom, fun _ => rfl, nofun⟩⟩,
      h.push hapi hprompt hcovered (List.drop_sublist _ _) ?_⟩
    rwa [List.length_replicate, List.length_replicate]
  | false =>
    have hpos : 0 < max 1 (ops.fourTenths (sizeOf ((others api prompt cache).drop k))) :=
      Nat.lt_of_lt_of_le Nat.one_pos (le_max_left _ _)
    obtain ⟨m₁, m₂, hupdate, hfit, hsize, htokens⟩ := update_spec
      { cache with
        states := (others api prompt cache).drop k
        limitSize := max 1 (ops.fourTenths (sizeOf ((others api prompt cache).drop k))) } hpos
    simp only [List.drop_drop] at hupdate hfit hsize htokens
    rw [if_neg Bool.false_ne_true, hupdate]
    exact ⟨_, false, rfl, iff_of_false Bool.false_ne_true (fun hadmits => Bool.false_ne_true hadmits.2.2),
      ⟨fun href => absurd href hneither, fun _ => ⟨k, fun j hj => of_decide_eq_true (hall j hj),
        hroom, nofun, fun _ => ⟨m₁, m₂, rfl, hsize, htokens⟩⟩⟩,
      h.sublist ((List.drop_sublist _ _).trans hsub) hpos hfit⟩

theorem allocFilled_spec (hapi : api.Faithful) (h : Kept api cache) {prompt : ServerPrompt C}
    (hprompt : prompt.tokens.WellFormed api) (data : PromptData) (allocates : Bool) :
    ∃ cache' stored, allocFilled api ops prompt data allocates cache = .ok (cache', stored) ∧
      Kept api cache' ∧
      ∃ states, states.Sublist cache.states ∧
        cache'.states = if stored then states ++ [⟨prompt.clone api, data⟩] else states := by
  obtain ⟨cache', stored, hrun, hstored, ⟨hrefused, heffect⟩, hkept⟩ :=
    alloc_spec hapi h hprompt data.main.length data.drft.length allocates
  unfold allocFilled
  rw [hrun, ok_bind]
  have hsub : (others api prompt cache).Sublist cache.states := List.filter_sublist
  cases stored with
  | true =>
    obtain ⟨hnew, hfits, rfl⟩ := hstored.mp rfl
    obtain ⟨k, -, hroom, hfull, -⟩ := heffect
      (not_or.mpr ⟨hnew, Nat.not_lt_of_le hfits⟩)
    obtain rfl := hfull rfl
    have hmodify := List.modifyLast_concat (fun state => { state with data })
      (⟨prompt.clone api, ⟨List.replicate data.main.length 0, List.replicate data.drft.length 0⟩⟩ :
        PromptCacheState C) ((others api prompt cache).drop k)
    refine ⟨_, true, rfl, ?_, _, (List.drop_sublist k _).trans hsub, hmodify⟩
    dsimp only
    rw [hmodify]
    exact h.push hapi hprompt hnew (List.drop_sublist k _) hroom
  | false =>
    refine ⟨cache', false, rfl, hkept, cache'.states, ?_, rfl⟩
    by_cases href : Covered api prompt cache ∨
        cache.limitSize < data.main.length + data.drft.length + prompt.checkpointsSize
    · rw [hrefused href]
    · obtain ⟨hnew, hfits⟩ := not_or.mp href
      obtain ⟨k, -, -, -, hfailed⟩ := heffect href
      obtain ⟨m₁, m₂, rfl, -⟩ := hfailed (Bool.eq_false_iff.mpr fun hall =>
        Bool.false_ne_true (hstored.mpr ⟨hnew, Nat.le_of_not_lt hfits, hall⟩))
      exact (List.drop_sublist _ _).trans hsub

end

/-! ## What a load does -/

section
variable {cache : PromptCache C} {tokensNew : ServerTokens C}

theorem findBest_getElem? {i : ℕ} {its : List (PromptCacheState C)} {fKeep fSim : F}
    {itBest : Option (ℕ × PromptCacheState C)} {j : ℕ} {best : PromptCacheState C}
    (h : findBest api ops tokensNew i its fKeep fSim itBest = .ok (some (j, best))) :
    itBest = some (j, best) ∨ i ≤ j ∧ its[j - i]? = some best := by
  induction its generalizing i fKeep fSim itBest with
  | nil => exact .inl (Except.ok.inj h)
  | cons it its ih =>
    have hlater : i + 1 ≤ j ∧ its[j - (i + 1)]? = some best →
        i ≤ j ∧ (it :: its)[j - i]? = some best := by
      rintro ⟨hle, hget⟩
      refine ⟨Nat.le_of_succ_le hle, ?_⟩
      rwa [show j - i = j - (i + 1) + 1 by omega, List.getElem?_cons_succ]
    obtain ⟨lcpCur, -, h⟩ := bind_eq_ok.1 h
    dsimp only at h
    split_ifs at h
    · exact (ih h).imp_right hlater
    · rcases ih h with hthis | hrest
      · obtain ⟨rfl, rfl⟩ := Prod.mk.inj (Option.some.inj hthis)
        exact .inr ⟨le_rfl, by rw [Nat.sub_self, List.getElem?_cons_zero]⟩
      · exact .inr (hlater hrest)
    · exact (ih h).imp_right hlater

theorem findBetter_getElem? {prompt : ServerPrompt C} {i : ℕ} {best : PromptCacheState C}
    (h : findBetter api ops prompt tokensNew cache = .ok (some (i, best))) :
    cache.states[i]? = some best := by
  obtain ⟨lcpBest, -, h⟩ := bind_eq_ok.1 h
  obtain hnone | ⟨-, hget⟩ := findBest_getElem? h
  · exact nomatch hnone
  · rwa [Nat.sub_zero] at hget

/-- The cache when the main buffer of an entry has been released. -/
def released (cache : PromptCache C) (i : ℕ) (best : PromptCacheState C) : PromptCache C :=
  { cache with
    states := cache.states.set i { best with data := { best.data with main := [] } } }

def erased (cache : PromptCache C) (i : ℕ) : PromptCache C :=
  { cache with states := cache.states.eraseIdx i }

theorem ok_triple {α β γ : Type} {a a' : α} {b b' : β} {c c' : γ}
    (h : (Except.ok (a, b, c) : Except ServerTokensError (α × β × γ)) = .ok (a', b', c')) :
    a' = a ∧ b' = b ∧ c' = c := by
  obtain ⟨ha, hbc⟩ := Prod.mk.inj (Except.ok.inj h)
  obtain ⟨hb, hc⟩ := Prod.mk.inj hbc
  exact ⟨ha.symm, hb.symm, hc.symm⟩

theorem load_cases {ctxDft : Bool} {slot slot' : PromptSlot C} {restore : Restore} {result : Bool}
    {cache' : PromptCache C}
    (h : load api ops ctxDft slot tokensNew restore cache = .ok (result, slot', cache')) :
    findBetter api ops slot.prompt tokensNew cache = .ok none ∧ result = true ∧ slot' = slot ∧
      cache' = cache ∨
    ∃ i best, findBetter api ops slot.prompt tokensNew cache = .ok (some (i, best)) ∧
      cache.states[i]? = some best ∧
      (restore.tgt best.data.main ≠ best.data.main.length ∧ result = false ∧ cache' = cache ∨
      restore.tgt best.data.main = best.data.main.length ∧
        (best.data.drft ≠ [] ∧ restore.dft best.data.drft ≠ best.data.drft.length ∧
          result = false ∧ cache' = released cache i best ∨
        (best.data.drft = [] ∨ restore.dft best.data.drft = best.data.drft.length) ∧
          result = true ∧ cache' = erased cache i ∧ slot'.prompt = best.prompt ∧
          slot'.tgt = some best.data.main ∧
          (best.data.drft ≠ [] → slot'.dft = some best.data.drft))) := by
  obtain ⟨itBest, hbest, h⟩ := bind_eq_ok.1 h
  cases itBest with
  | none =>
    obtain ⟨rfl, rfl, rfl⟩ := ok_triple h
    exact .inl ⟨hbest, rfl, rfl, rfl⟩
  | some found =>
    obtain ⟨i, best⟩ := found
    refine .inr ⟨i, best, hbest, findBetter_getElem? hbest, ?_⟩
    dsimp only at h
    split_ifs at h with hmain hdrft hctx hdft
    · obtain ⟨rfl, rfl, rfl⟩ := ok_triple h
      exact .inl ⟨hmain, rfl, rfl⟩
    · obtain ⟨rfl, rfl, rfl⟩ := ok_triple h
      exact .inr ⟨not_not.mp hmain, .inr ⟨.inl hdrft, rfl, rfl, rfl, rfl,
        fun hne => absurd hdrft hne⟩⟩
    · obtain ⟨rfl, rfl, rfl⟩ := ok_triple h
      exact .inr ⟨not_not.mp hmain, .inl ⟨hdrft, hdft, rfl, rfl⟩⟩
    · obtain ⟨rfl, rfl, rfl⟩ := ok_triple h
      exact .inr ⟨not_not.mp hmain, .inr ⟨.inr (not_not.mp hdft), rfl, rfl, rfl, rfl,
        fun _ => rfl⟩⟩

end

section
variable {cache : PromptCache C}

theorem sizeOf_set_le {states : List (PromptCacheState C)} {i : ℕ} {old new : PromptCacheState C}
    (hold : states[i]? = some old) (hle : new.size ≤ old.size) :
    sizeOf (states.set i new) ≤ sizeOf states := by
  induction states generalizing i with
  | nil => exact nomatch hold
  | cons state states ih =>
    cases i with
    | zero =>
      obtain rfl := Option.some.inj hold
      exact Nat.add_le_add_right hle _
    | succ i => exact Nat.add_le_add_left (ih hold) _

theorem Kept.released (h : Kept api cache) {i : ℕ} {best : PromptCacheState C}
    (hbest : cache.states[i]? = some best) : Kept api (released cache i best) := by
  have hprompts : (cache.states.set i { best with data := { best.data with main := [] } }).map
      PromptCacheState.prompt = cache.states.map PromptCacheState.prompt := by
    obtain ⟨hlt, hget⟩ := List.getElem?_eq_some_iff.mp hbest
    have hlen : i < (cache.states.map PromptCacheState.prompt).length := by
      rwa [List.length_map]
    have hthis : best.prompt = (cache.states.map PromptCacheState.prompt)[i] := by
      rw [List.getElem_map, hget]
    rw [List.map_set, hthis, List.set_getElem_self]
  refine ⟨h.limited, (sizeOf_set_le hbest ?_).trans h.bounded, ?_, fun it hit => ?_⟩
  · exact Nat.add_le_add_right (Nat.add_le_add_right (Nat.zero_le _) _) _
  · let R (p q : ServerPrompt C) : Prop :=
      isPrefix api p.tokens q.tokens = false ∧ isPrefix api q.tokens p.tokens = false
    have hpairs := List.pairwise_map (R := R) (f := PromptCacheState.prompt) (l := cache.states)
    refine (List.pairwise_map (R := R) (f := PromptCacheState.prompt)).mp ?_
    change ((cache.states.set i _).map PromptCacheState.prompt).Pairwise R
    rw [hprompts]
    exact hpairs.mpr h.apart
  · have hmem : it.prompt ∈ cache.states.map PromptCacheState.prompt :=
      hprompts ▸ List.mem_map_of_mem hit
    obtain ⟨it', hit', heq⟩ := List.mem_map.mp hmem
    exact heq ▸ h.wellFormed it' hit'

theorem Kept.load (h : Kept api cache) {ctxDft result : Bool} {slot slot' : PromptSlot C}
    {tokensNew : ServerTokens C} {restore : Restore} {cache' : PromptCache C}
    (hload : load api ops ctxDft slot tokensNew restore cache = .ok (result, slot', cache')) :
    Kept api cache' := by
  obtain ⟨-, -, -, rfl⟩ | ⟨i, best, -, hbest, hcases⟩ := load_cases hload
  · exact h
  · obtain ⟨-, -, rfl⟩ | ⟨-, ⟨-, -, -, rfl⟩ | ⟨-, -, rfl, -⟩⟩ := hcases
    · exact h
    · exact h.released hbest
    · exact h.sublist (List.eraseIdx_sublist _ i) h.limited
        ((sizeOf_sublist (List.eraseIdx_sublist _ i)).trans h.bounded)

end

/-! ## Every run -/

/-- The prompts of the slots are well-formed lists of tokens. -/
def Action.WellFormed (api : Mtmd C) : Action C → Prop
  | .alloc prompt _ _ => prompt.tokens.WellFormed api
  | _ => True

open GuardedRuns

theorem step_kept (hapi : api.Faithful) {ctxDft : Bool} {h h' : History C} {action : Action C}
    (hkept : Kept api h.cache) (haction : action.WellFormed api)
    (hstep : step api ops ctxDft h action = some h') : Kept api h'.cache := by
  cases action with
  | alloc prompt data allocates =>
    obtain ⟨cache', stored, hrun, hkept', -⟩ :=
      allocFilled_spec hapi hkept haction data allocates
    unfold step at hstep
    dsimp only at hstep
    rw [hrun] at hstep
    cases stored <;> exact Option.some.inj hstep ▸ hkept'
  | load slot tokensNew restore =>
    unfold step at hstep
    dsimp only at hstep
    cases hrun : load api ops ctxDft slot tokensNew restore h.cache with
    | error e =>
      rw [hrun] at hstep
      exact nomatch hstep
    | ok r =>
      obtain ⟨result, slot', cache'⟩ := r
      rw [hrun] at hstep
      exact Option.some.inj hstep ▸ hkept.load hrun
  | update => exact Option.some.inj hstep ▸ hkept.update

theorem empty_kept {limitSize : ℕ} (hpos : 0 < limitSize) (limitTokens : ℕ) :
    Kept api { limitSize := limitSize, limitTokens := limitTokens } :=
  ⟨hpos, Nat.zero_le _, .nil, fun _ h => absurd h List.not_mem_nil⟩

/-- The cache stays within its limit and free of prefixes in every run, and in every state that is
reached `alloc` refuses and removes exactly what it should. -/
theorem cache_invariants (hapi : api.Faithful) (ctxDft : Bool) {limitSize : ℕ}
    (hpos : 0 < limitSize) (limitTokens : ℕ) (actions : List (Action C))
    (hactions : ∀ action ∈ actions, action.WellFormed api) :
    Along (step api ops ctxDft) (fun h => Kept api h.cache ∧
      ∀ (prompt : ServerPrompt C) (tgt dft : ℕ) (allocates : Bool),
        prompt.tokens.WellFormed api →
        ∃ cache' stored, alloc api ops prompt tgt dft allocates h.cache = .ok (cache', stored) ∧
          (stored = true ↔ Admits api prompt tgt dft allocates h.cache) ∧
          AllocEffect api ops prompt tgt dft allocates h.cache cache' ∧ Kept api cache')
      { cache := { limitSize := limitSize, limitTokens := limitTokens } } actions := by
  refine Along.mono (fun h hkept => ⟨hkept, fun prompt tgt dft allocates hprompt =>
    alloc_spec hapi hkept hprompt tgt dft allocates⟩) ?_
  exact along_of_meets (fun h action h' hkept haction hstep => step_kept hapi hkept haction hstep)
    (empty_kept hpos limitTokens) (meets_of_forall hactions _)

/-! ## Exact arithmetic -/

/-- Fractions; those over zero compare with nothing. -/
def exactOps : FloatOps (ℤ × ℕ) where
  ratio a b := (a, b)
  lt x y := decide (x.2 ≠ 0 ∧ y.2 ≠ 0 ∧ x.1 * y.2 < y.1 * x.2)
  minusOne := (-1, 1)
  quarter := (1, 4)
  fourTenths size := size * 2 / 5
  tokensInLimit limit size nTokens :=
    if size ≤ max 1 nTokens then limit else limit * max 1 nTokens / size

/-- A prompt of text tokens in a server without media. -/
def textPrompt (tokens : List LlamaToken) : ServerPrompt ServerTokens.PlainChunk :=
  ⟨{ tokens := tokens }, []⟩

theorem textPrompt_wellFormed {tokens : List LlamaToken}
    (h : ∀ tok ∈ tokens, tok ≠ ServerTokens.llamaTokenNull) :
    (textPrompt tokens).tokens.WellFormed ServerTokens.plainMtmd := by
  refine ⟨tokens.map .text, ?_, ?_, fun item hitem => ?_, .inl rfl⟩
  · rw [ServerTokens.flat, List.flatMap_map]
    exact (List.flatMap_singleton' tokens).symm
  · generalize 0 = i
    change [] = _
    clear h
    induction tokens generalizing i with
    | nil => rfl
    | cons tok tokens ih => exact ih (i + 1)
  · obtain ⟨tok, htok, rfl⟩ := List.mem_map.mp hitem
    exact h tok htok

theorem cache_invariants_two_prompts :
    Along (step ServerTokens.plainMtmd exactOps true) (fun h => Kept ServerTokens.plainMtmd h.cache)
      { cache := { limitSize := 4, limitTokens := 8 } }
      [.alloc (textPrompt [1, 2]) ⟨[7], [8]⟩ true, .alloc (textPrompt [1, 3]) ⟨[7, 7], [8]⟩ true,
        .update] := by
  refine (cache_invariants ServerTokens.plainMtmd_faithful true (by decide) 8 _ ?_).mono
    fun h hh => hh.1
  refine List.forall_mem_cons.mpr ⟨textPrompt_wellFormed (by simp [ServerTokens.llamaTokenNull]),
    List.forall_mem_cons.mpr ⟨textPrompt_wellFormed (by simp [ServerTokens.llamaTokenNull]),
      List.forall_mem_cons.mpr ⟨trivial, fun _ h => absurd h List.not_mem_nil⟩⟩⟩

end PromptCache
end RocmFpx
