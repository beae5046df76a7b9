import RocmFpx.PromptCacheLaws

/-!
What loads leave in the cache of prompts: an entry stays as it was stored unless the draft state
is refused after the main state was taken and its buffer released.
-/

namespace RocmFpx
namespace PromptCache

open Fallible GuardedRuns

variable {C F : Type} {api : Mtmd C} {ops : FloatOps F}

/-! ## What `alloc` leaves -/

section
variable {cache cache' : PromptCache C}

theorem popWhile_sublist (full : List (PromptCacheState C) → Bool)
    (states : List (PromptCacheState C)) : (popWhile full states).Sublist states := by
  obtain ⟨k, heq, -⟩ := popWhile_eq_drop full states
  exact heq ▸ List.drop_sublist k states

theorem update_sublist (cache : PromptCache C) :
    (update ops cache).states.Sublist cache.states := by
  unfold update
  dsimp only
  split_ifs
  · exact (popWhile_sublist _ _).trans (popWhile_sublist _ _)
  · exact popWhile_sublist _ _
  · exact popWhile_sublist _ _
  · exact .refl _

theorem removeObsolete_sublist {tokens : ServerTokens C} {its rest : List (PromptCacheState C)}
    (h : removeObsolete api tokens its = .ok rest) : rest.Sublist its := by
  induction its generalizing rest with
  | nil => exact Except.ok.inj h ▸ .slnil
  | cons it its ih =>
    obtain ⟨len, -, h⟩ := bind_eq_ok.1 h
    obtain ⟨rest', hrest, h⟩ := bind_eq_ok.1 h
    obtain rfl := Except.ok.inj h
    split_ifs
    · exact (ih hrest).cons it
    · exact (ih hrest).cons_cons it

theorem alloc_states {prompt : ServerPrompt C} {tgt dft : ℕ} {allocates stored : Bool}
    (h : alloc api ops prompt tgt dft allocates cache = .ok (cache', stored)) :
    ∃ states, states.Sublist cache.states ∧ cache'.states = if stored then
      states ++ [⟨prompt.clone api, ⟨List.replicate tgt 0, List.replicate dft 0⟩⟩] else states := by
  obtain ⟨covered, -, h⟩ := bind_eq_ok.1 h
  dsimp only at h
  by_cases hcovered : covered = true
  · rw [if_pos hcovered] at h
    obtain ⟨rfl, rfl⟩ := Prod.mk.inj (Except.ok.inj h)
    exact ⟨_, .refl _, rfl⟩
  by_cases hlarge : 0 < cache.limitSize ∧ cache.limitSize < tgt + dft + prompt.checkpointsSize
  · rw [if_neg hcovered, if_pos hlarge] at h
    obtain ⟨rfl, rfl⟩ := Prod.mk.inj (Except.ok.inj h)
    exact ⟨_, .refl _, rfl⟩
  rw [if_neg hcovered, if_neg hlarge] at h
  obtain ⟨rest, hrest, h⟩ := bind_eq_ok.1 h
  have hrest := removeObsolete_sublist hrest
  have hkept : (if 0 < cache.limitSize then popWhile (fun st => decide
      (cache.limitSize < sizeOf st + (tgt + dft + prompt.checkpointsSize))) rest else rest).Sublist
      cache.states := by
    split_ifs
    · exact (popWhile_sublist _ _).trans hrest
    · exact hrest
  cases allocates with
  | true =>
    obtain ⟨rfl, rfl⟩ := Prod.mk.inj (Except.ok.inj h)
    exact ⟨_, hkept, rfl⟩
  | false =>
    obtain ⟨rfl, rfl⟩ := Prod.mk.inj (Except.ok.inj h)
    exact ⟨_, (update_sublist _).trans hkept, rfl⟩

theorem allocFilled_states {prompt : ServerPrompt C} {data : PromptData}
    {allocates stored : Bool}
    (h : allocFilled api ops prompt data allocates cache = .ok (cache', stored)) :
    ∃ states, states.Sublist cache.states ∧
      cache'.states = if stored then states ++ [⟨prompt.clone api, data⟩] else states := by
  obtain ⟨⟨cache₁, stored₁⟩, hrun, h⟩ := bind_eq_ok.1 h
  obtain ⟨states, hsub, hstates⟩ := alloc_states hrun
  cases stored₁ with
  | true =>
    obtain ⟨rfl, rfl⟩ := Prod.mk.inj (Except.ok.inj h)
    refine ⟨states, hsub, ?_⟩
    change cache₁.states.modifyLast _ = _
    rw [hstates]
    exact List.modifyLast_concat _ _ _
  | false =>
    obtain ⟨rfl, rfl⟩ := Prod.mk.inj (Except.ok.inj h)
    exact ⟨states, hsub, hstates⟩

end

/-! ## Complete entries -/

/-- Every entry is as it was stored, and every load that replaced the prompt of its slot has
restored the states that were stored for that prompt. -/
structure Complete (h : History C) : Prop where
  entries : ∀ it ∈ h.cache.states, it ∈ h.stored
  loads : ∀ r ∈ h.loads, r.result = true → r.after = r.before ∨
    ∃ it ∈ h.stored, r.after.prompt = it.prompt ∧ r.after.tgt = some it.data.main ∧
      (it.data.drft ≠ [] → r.after.dft = some it.data.drft)

/-- The load takes the main state of an entry and refuses its draft state. -/
def DraftLost (api : Mtmd C) (ops : FloatOps F) (h : History C) : Action C → Prop
  | .load slot tokensNew restore => ∃ i best,
    findBetter api ops slot.prompt tokensNew h.cache = .ok (some (i, best)) ∧
      best.data.main ≠ [] ∧ restore.tgt best.data.main = best.data.main.length ∧
      best.data.drft ≠ [] ∧ restore.dft best.data.drft ≠ best.data.drft.length
  | _ => False

/-- The main state that is saved is not empty. -/
def Action.Filled : Action C → Prop
  | .alloc _ data _ => data.main ≠ []
  | _ => True

section
variable {h h' : History C} {ctxDft : Bool}

theorem released_of_nil {cache : PromptCache C} {i : ℕ} {best : PromptCacheState C}
    (hbest : cache.states[i]? = some best) (hnil : best.data.main = []) :
    released cache i best = cache := by
  obtain ⟨hlt, hget⟩ := List.getElem?_eq_some_iff.mp hbest
  have hsame : ({ best with data := { best.data with main := [] } } : PromptCacheState C) =
      cache.states[i] := by
    rw [hget]
    obtain ⟨prompt, main, drft⟩ := best
    obtain rfl : main = [] := hnil
    rfl
  unfold released
  rw [hsame, List.set_getElem_self]

theorem Complete.alloc (hc : Complete h) {prompt : ServerPrompt C} {data : PromptData}
    {allocates : Bool} (hstep : step api ops ctxDft h (.alloc prompt data allocates) = some h') :
    Complete h' := by
  unfold step at hstep
  dsimp only at hstep
  cases hrun : allocFilled api ops prompt data allocates h.cache with
  | error e =>
    rw [hrun] at hstep
    exact nomatch hstep
  | ok r =>
    obtain ⟨cache', stored⟩ := r
    obtain ⟨states, hsub, hstates⟩ := allocFilled_states hrun
    rw [hrun] at hstep
    cases stored with
    | true =>
      obtain rfl := Option.some.inj hstep
      refine ⟨fun it hit => ?_, fun r hr hresult => ?_⟩
      · change it ∈ cache'.states at hit
        rw [hstates] at hit
        rcases List.mem_append.mp hit with hit | hit
        · exact List.mem_append_left _ (hc.entries it (hsub.subset hit))
        · exact List.mem_append_right _ hit
      · refine (hc.loads r hr hresult).imp_right ?_
        rintro ⟨it, hit, hrest⟩
        exact ⟨it, List.mem_append_left _ hit, hrest⟩
    | false =>
      obtain rfl := Option.some.inj hstep
      refine ⟨fun it hit => hc.entries it (hsub.subset ?_), hc.loads⟩
      rw [if_neg Bool.false_ne_true] at hstates
      exact hstates ▸ hit

theorem Complete.load (hc : Complete h) {slot : PromptSlot C} {tokensNew : ServerTokens C}
    {restore : Restore}
    (hstep : step api ops ctxDft h (.load slot tokensNew restore) = some h') :
    (¬ DraftLost api ops h (.load slot tokensNew restore) → Complete h') ∧
    (DraftLost api ops h (.load slot tokensNew restore) → (∀ it ∈ h.stored, it.data.main ≠ []) →
      ¬ Complete h') := by
  unfold step at hstep
  dsimp only at hstep
  cases hrun : PromptCache.load api ops ctxDft slot tokensNew restore h.cache with
  | error e =>
    rw [hrun] at hstep
    exact nomatch hstep
  | ok r =>
    obtain ⟨result, slot', cache'⟩ := r
    rw [hrun] at hstep
    obtain rfl := Option.some.inj hstep
    have hlast {P : LoadReport C → Prop} (hold : ∀ r ∈ h.loads, P r)
        (hnew : P ⟨slot, result, slot'⟩) : ∀ r ∈ h.loads ++ [⟨slot, result, slot'⟩], P r :=
      List.forall_mem_append.mpr ⟨hold, List.forall_mem_singleton.mpr hnew⟩
    obtain ⟨hnone, rfl, rfl, rfl⟩ | ⟨i, best, hfound, hbest, hcases⟩ := load_cases hrun
    · refine ⟨fun _ => ⟨hc.entries, hlast hc.loads fun _ => .inl rfl⟩, ?_⟩
      rintro ⟨i, best, hfound, -⟩
      exact nomatch hnone.symm.trans hfound
    have hthis {i' : ℕ} {best' : PromptCacheState C}
        (hfound' : findBetter api ops slot.prompt tokensNew h.cache = .ok (some (i', best'))) :
        best' = best := by
      have heq := Option.some.inj (Except.ok.inj (hfound'.symm.trans hfound))
      exact (Prod.mk.inj heq).2
    have hmem := hc.entries best (List.mem_of_getElem? hbest)
    obtain ⟨hmain, rfl, rfl⟩ | ⟨hmain, ⟨hne, hdft, rfl, rfl⟩ | ⟨hdft, rfl, rfl, hslot⟩⟩ := hcases
    · refine ⟨fun _ => ⟨hc.entries, hlast hc.loads nofun⟩, ?_⟩
      rintro ⟨i', best', hfound', -, hmain', -⟩
      exact absurd (hthis hfound' ▸ hmain') hmain
    · constructor
      · intro hlost
        have hnil : best.data.main = [] := by
          by_contra hne'
          exact hlost ⟨i, best, hfound, hne', hmain, hne, hdft⟩
        rw [released_of_nil hbest hnil]
        exact ⟨hc.entries, hlast hc.loads nofun⟩
      · intro _ hfilled hc'
        have hlt := (List.getElem?_eq_some_iff.mp hbest).1
        have hentry := hc'.entries _ (List.mem_set hlt _)
        exact hfilled _ hentry rfl
    · refine ⟨fun _ => ⟨fun it hit => hc.entries it ((List.eraseIdx_sublist _ _).subset hit),
        hlast hc.loads fun _ => .inr ⟨best, hmem, hslot⟩⟩, ?_⟩
      rintro ⟨i', best', hfound', -, -, hne', hdft'⟩
      obtain rfl := hthis hfound'
      rcases hdft with hnil | hdft
      · exact absurd hnil hne'
      · exact absurd hdft hdft'

theorem Complete.step (hc : Complete h) {action : Action C}
    (hstep : PromptCache.step api ops ctxDft h action = some h') :
    (¬ DraftLost api ops h action → Complete h') ∧
    (DraftLost api ops h action → (∀ it ∈ h.stored, it.data.main ≠ []) → ¬ Complete h') := by
  cases action with
  | alloc prompt data allocates => exact ⟨fun _ => hc.alloc hstep, fun hlost => hlost.elim⟩
  | load slot tokensNew restore => exact hc.load hstep
  | update =>
    obtain rfl := Option.some.inj hstep
    exact ⟨fun _ => ⟨fun it hit => hc.entries it ((update_sublist _).subset hit), hc.loads⟩,
      fun hlost => hlost.elim⟩

theorem step_filled {action : Action C} (haction : action.Filled)
    (hfilled : ∀ it ∈ h.stored, it.data.main ≠ [])
    (hstep : PromptCache.step api ops ctxDft h action = some h') :
    ∀ it ∈ h'.stored, it.data.main ≠ [] := by
  cases action with
  | alloc prompt data allocates =>
    unfold PromptCache.step at hstep
    dsimp only at hstep
    split at hstep
    · obtain rfl := Option.some.inj hstep
      exact List.forall_mem_append.mpr ⟨hfilled, List.forall_mem_singleton.mpr haction⟩
    · obtain rfl := Option.some.inj hstep
      exact hfilled
    · exact nomatch hstep
  | load slot tokensNew restore =>
    unfold PromptCache.step at hstep
    dsimp only at hstep
    split at hstep
    · obtain rfl := Option.some.inj hstep
      exact hfilled
    · exact nomatch hstep
  | update =>
    obtain rfl := Option.some.inj hstep
    exact hfilled

end

theorem empty_complete (limitSizeMib : ℤ) (limitTokens : ℕ) :
    Complete (C := C) { cache := ofLimits limitSizeMib limitTokens } :=
  ⟨fun _ h => absurd h List.not_mem_nil, fun _ h => absurd h List.not_mem_nil⟩

/-- Loads are all or nothing in every run in which no load loses a main state, and, where the main
states are not empty, in no other run. -/
theorem complete_iff (api : Mtmd C) (ops : FloatOps F) (ctxDft : Bool) (limitSizeMib : ℤ)
    (limitTokens : ℕ) (actions : List (Action C)) :
    (Meets (step api ops ctxDft) (fun h action => ¬ DraftLost api ops h action)
        { cache := ofLimits limitSizeMib limitTokens } actions →
      Along (step api ops ctxDft) Complete
        { cache := ofLimits limitSizeMib limitTokens } actions) ∧
    ((∀ action ∈ actions, action.Filled) →
      (Along (step api ops ctxDft) Complete
          { cache := ofLimits limitSizeMib limitTokens } actions ↔
        Meets (step api ops ctxDft) (fun h action => ¬ DraftLost api ops h action)
          { cache := ofLimits limitSizeMib limitTokens } actions)) := by
  refine ⟨along_of_meets (fun h action h' hc hnot hstep => (hc.step hstep).1 hnot)
    (empty_complete _ _), fun hfilled => ?_⟩
  refine along_iff_meets_among (A := Action.Filled) (I := fun h => ∀ it ∈ h.stored, it.data.main ≠ [])
    (fun h action h' haction hI hstep => step_filled haction hI hstep)
    (fun h action h' _ hI hc hstep => ?_) hfilled (fun _ h => absurd h List.not_mem_nil)
    (empty_complete _ _)
  obtain ⟨hkeep, hbreak⟩ := hc.step hstep
  exact ⟨fun hc' hlost => hbreak hlost hI hc', hkeep⟩

/-! ## A lost main state -/

def emptySlot : PromptSlot ServerTokens.PlainChunk := ⟨textPrompt [], none, none⟩

/-- A saved prompt is loaded by a slot whose draft context refuses, then by one where both contexts
take all they are given. -/
def lostActions : List (Action ServerTokens.PlainChunk) :=
  [.alloc (textPrompt [1, 2]) ⟨[7], [8]⟩ true,
    .load emptySlot { tokens := [1, 2] } ⟨List.length, fun _ => 0⟩,
    .load emptySlot { tokens := [1, 2] } ⟨List.length, List.length⟩]

theorem main_state_lost :
    (∃ h, run (step ServerTokens.plainMtmd exactOps true) { cache := ofLimits 1 0 } lostActions =
        some h ∧
      h.stored = [⟨textPrompt [1, 2], ⟨[7], [8]⟩⟩] ∧
      h.loads = [⟨emptySlot, false, ⟨textPrompt [], some [7], none⟩⟩,
        ⟨emptySlot, true, ⟨textPrompt [1, 2], some [], some [8]⟩⟩]) ∧
    ¬ Along (step ServerTokens.plainMtmd exactOps true) Complete { cache := ofLimits 1 0 }
      lostActions := by
  have hrun : run (step ServerTokens.plainMtmd exactOps true) { cache := ofLimits 1 0 }
      lostActions = some ⟨{ states := [], limitSize := 1024 * 1024, limitTokens := 0 },
        [⟨textPrompt [1, 2], ⟨[7], [8]⟩⟩],
        [⟨emptySlot, false, ⟨textPrompt [], some [7], none⟩⟩,
          ⟨emptySlot, true, ⟨textPrompt [1, 2], some [], some [8]⟩⟩]⟩ := rfl
  refine ⟨⟨_, hrun, rfl, rfl⟩, fun halong => ?_⟩
  have hloads := (halong.final hrun).loads _ (List.mem_cons_of_mem _ List.mem_cons_self) rfl
  rcases hloads with hsame | ⟨it, hit, -, htgt, -⟩
  · exact nomatch congrArg PromptSlot.tgt hsame
  · obtain rfl := List.mem_singleton.mp hit
    exact nomatch htgt

end PromptCache
end RocmFpx
