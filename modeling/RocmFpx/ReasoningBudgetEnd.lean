import RocmFpx.ReasoningBudget

/-!
The match that the sampler reports when a forced end is complete. The matcher starts anew after
every match, so it finds the longest end sequence exactly if that one begins after the last match
before the end.
-/

namespace RocmFpx.ReasoningBudget

namespace Ctx

/-- `common_reasoning_budget_reset`. -/
def reset (ctx : Ctx) : Ctx :=
  { ctx with
    state := .idle
    remaining := ctx.budget
    startMatcher := ctx.startMatcher.reset
    endMatcher := ctx.endMatcher.reset
    forcePos := 0
    endMatch := none }

/-- The states of a sampler over all its runs. -/
inductive Reached (vocab : Option Vocab) (starts ends : List (List Token)) (forced : List Token)
    (budget : ℤ) : Ctx → Prop
  | init (initialState : State) :
      Reached vocab starts ends forced budget (init vocab starts ends forced budget initialState)
  | accept {ctx : Ctx} (hctx : Reached vocab starts ends forced budget ctx) (t : Token) :
      Reached vocab starts ends forced budget (ctx.accept t)
  | reset {ctx : Ctx} (hctx : Reached vocab starts ends forced budget ctx) :
      Reached vocab starts ends forced budget ctx.reset

end Ctx

/-- The tokens since the last match of a matcher that starts anew after each one. -/
def sinceMatch (seqs : List (List Token)) (tokens : List Token) : List Token :=
  tokens.foldl (fun since t => if EndsWith seqs (since ++ [t]) then [] else since ++ [t]) []

theorem sinceMatch_concat (seqs : List (List Token)) (tokens : List Token) (t : Token) :
    sinceMatch seqs (tokens ++ [t]) =
      if EndsWith seqs (sinceMatch seqs tokens ++ [t]) then [] else sinceMatch seqs tokens ++ [t] := by
  rw [sinceMatch, List.foldl_append]
  rfl

theorem sinceMatch_suffix (seqs : List (List Token)) (tokens : List Token) :
    sinceMatch seqs tokens <:+ tokens := by
  induction tokens using List.reverseRecOn with
  | nil => exact List.suffix_rfl
  | append_singleton tokens t ih =>
    rw [sinceMatch_concat]
    split_ifs
    · exact List.nil_suffix
    · exact List.suffix_concat_iff.mpr (Or.inr ⟨_, rfl, ih⟩)

/-! ## The sequences of a matcher -/

namespace TokenMatcher

variable {m : TokenMatcher} {seqs : List (List Token)} {tokens : List Token}

theorem collect_nodup (seqs : List (List Token)) : (collect seqs).Nodup := by
  have hfold (l res : List (List Token)) (hres : res.Nodup) :
      (l.foldl (fun res seq => if seq ≠ [] ∧ seq ∉ res then res ++ [seq] else res) res).Nodup := by
    induction l generalizing res with
    | nil => exact hres
    | cons x l ih =>
      rw [List.foldl_cons]
      refine ih _ ?_
      split_ifs with hx
      · exact List.nodup_append.mpr ⟨hres, List.nodup_singleton x, fun y hy z hz hyz =>
          hx.2 (List.mem_singleton.mp hz ▸ hyz ▸ hy)⟩
      · exact hres
  exact hfold seqs [] List.nodup_nil

theorem foldl_addPattern_of_nodup {pats ws : List (List ℕ)} (h : (pats ++ ws).Nodup) :
    ws.foldl Trie.addPattern pats = pats ++ ws := by
  induction ws generalizing pats with
  | nil => exact (List.append_nil _).symm
  | cons w ws ih =>
    have hsplit : pats ++ w :: ws = pats ++ [w] ++ ws := by
      rw [List.append_assoc, List.singleton_append]
    have hnew : w ∉ pats := fun hw => List.disjoint_of_nodup_append h hw List.mem_cons_self
    rw [hsplit] at h ⊢
    rw [List.foldl_cons, Trie.addPattern, if_neg hnew, ih h]

theorem patterns_eq (seqs : List (List Token)) :
    (collect seqs).foldl Trie.addPattern [] = collect seqs :=
  foldl_addPattern_of_nodup (collect_nodup seqs)

theorem Tracks.advance_endsAt (h : m.Tracks seqs tokens) (t : Token) :
    Trie.EndsAt (collect seqs) (tokens ++ [t]) (m.advance t).1 := by
  have hnext := (AhoCorasick.Tracks.next h t).matchPattern
  rwa [patterns_eq] at hnext

theorem Tracks.advance_sinceMatch (h : m.Tracks seqs (sinceMatch seqs tokens)) (t : Token) :
    (m.advance t).2.Tracks seqs (sinceMatch seqs (tokens ++ [t])) := by
  obtain ⟨-, hmatch, hnone⟩ := h.advance t
  rw [sinceMatch_concat]
  split_ifs with hends
  · exact hmatch hends
  · exact hnone hends

end TokenMatcher

theorem endsAt_since_iff {seqs : List (List Token)} {tokens since : List Token} {r : Option ℕ}
    (hsuffix : since <:+ tokens) (hr : Trie.EndsAt (TokenMatcher.collect seqs) since r) :
    Trie.EndsAt (TokenMatcher.collect seqs) tokens r ↔
      ∀ q ∈ seqs, q <:+ tokens → q.length ≤ since.length := by
  constructor
  · intro hall q hq hqt
    by_cases hnil : q = []
    · rw [hnil, List.length_nil]
      exact Nat.zero_le _
    have hmem := TokenMatcher.mem_collect.2 ⟨hq, hnil⟩
    cases r with
    | none => exact absurd hqt (hall q hmem)
    | some i =>
      obtain ⟨p, hp, -, hlongest⟩ := hall
      obtain ⟨p', hp', hps, -⟩ := hr
      obtain rfl := Option.some.inj (hp.symm.trans hp')
      exact ((hlongest q hmem hqt).length_le).trans hps.length_le
  · intro hlen
    refine (Trie.endsAt_congr fun q hq => ⟨fun hqt => ?_, fun hqs => hqs.trans hsuffix⟩).mpr hr
    exact List.suffix_of_suffix_length_le hqt hsuffix (hlen q (TokenMatcher.mem_collect.1 hq).1 hqt)

/-! ## Runs of the sampler -/

namespace Ctx

variable {vocab : Option Vocab} {starts ends : List (List Token)} {forced : List Token}
  {budget : ℤ} {ctx : Ctx}

/-- The end matcher is at its start before the block and where forcing begins. -/
structure EndReady (ends : List (List Token)) (forced : List Token) (ctx : Ctx) : Prop where
  forced : ctx.forcedTokens = forced
  tracks : ∃ tokens, ctx.endMatcher.Tracks ends tokens
  idle : ctx.state = .idle → ctx.endMatcher.Tracks ends []
  forcing : ctx.state = .forcing → ctx.forcePos = 0 → ctx.endMatcher.Tracks ends []

theorem EndReady.of_reset {m : TokenMatcher} (hforced : ctx.forcedTokens = forced)
    (hm : ctx.endMatcher = m.reset) {tokens : List Token} (htracks : m.Tracks ends tokens) :
    EndReady ends forced ctx :=
  ⟨hforced, ⟨[], hm ▸ htracks.reset⟩, fun _ => hm ▸ htracks.reset, fun _ _ => hm ▸ htracks.reset⟩

theorem activate_endMatcher (ctx : Ctx) : ctx.activate.endMatcher = ctx.endMatcher := by
  simp only [activate]
  split_ifs <;> rfl

theorem activate_forcedTokens (ctx : Ctx) : ctx.activate.forcedTokens = ctx.forcedTokens := by
  simp only [activate]
  split_ifs <;> rfl

theorem EndReady.advance (h : EndReady ends forced ctx) (t : Token) :
    ∃ tokens, (ctx.endMatcher.advance t).2.Tracks ends tokens := by
  obtain ⟨tokens, htracks⟩ := h.tracks
  obtain ⟨-, hmatch, hnone⟩ := htracks.advance t
  by_cases hends : EndsWith ends (tokens ++ [t])
  · exact ⟨_, hmatch hends⟩
  · exact ⟨_, hnone hends⟩

theorem EndReady.accept (h : EndReady ends forced ctx) (t : Token) :
    EndReady ends forced (ctx.accept t) := by
  obtain ⟨tokens, hnext⟩ := h.advance t
  cases hstate : ctx.state with
  | idle =>
    have hidle := h.idle hstate
    simp only [Ctx.accept, hstate]
    split_ifs
    · refine ⟨(activate_forcedTokens _).trans h.forced, ?_, fun _ => ?_, fun _ _ => ?_⟩
      · exact ⟨[], by rw [activate_endMatcher]; exact hidle⟩
      · rw [activate_endMatcher]
        exact hidle
      · rw [activate_endMatcher]
        exact hidle
    · exact ⟨h.forced, ⟨[], hidle⟩, fun _ => hidle, fun _ _ => hidle⟩
  | counting =>
    simp only [Ctx.accept, hstate]
    split_ifs
    · exact ⟨h.forced, ⟨_, hnext⟩, fun hs => State.noConfusion hs, fun hs => State.noConfusion hs⟩
    · exact EndReady.of_reset h.forced rfl hnext
    · exact EndReady.of_reset h.forced rfl hnext
    · exact ⟨h.forced, ⟨_, hnext⟩, fun hs => by simp at hs, fun hs => by simp at hs⟩
  | waitingUtf8 =>
    simp only [Ctx.accept, hstate]
    split_ifs
    · exact ⟨h.forced, ⟨_, hnext⟩, fun hs => State.noConfusion hs, fun hs => State.noConfusion hs⟩
    · exact EndReady.of_reset h.forced rfl hnext
    · exact ⟨h.forced, ⟨_, hnext⟩, fun hs => by simp at hs, fun hs => by simp at hs⟩
  | forcing =>
    simp only [Ctx.accept, hstate]
    split_ifs
    · exact ⟨h.forced, ⟨_, hnext⟩, fun hs => State.noConfusion hs, fun hs => State.noConfusion hs⟩
    · exact ⟨h.forced, ⟨_, hnext⟩, fun hs => by simp at hs,
        fun _ hpos => absurd hpos (Nat.succ_ne_zero _)⟩
  | done =>
    obtain ⟨tokens', htracks⟩ := h.tracks
    simp only [Ctx.accept, hstate]
    split_ifs
    · exact EndReady.of_reset ((activate_forcedTokens _).trans h.forced)
        (activate_endMatcher _) htracks
    · exact ⟨h.forced, ⟨_, htracks⟩, fun hs => by simp at hs, fun hs => by simp at hs⟩

theorem Reached.endReady (h : Reached vocab starts ends forced budget ctx) :
    EndReady ends forced ctx := by
  induction h with
  | init initialState =>
    have htracks := TokenMatcher.tracks_ofSeqs ends
    exact ⟨rfl, ⟨_, htracks⟩, fun _ => htracks, fun _ _ => htracks⟩
  | accept _ t ih => exact ih.accept t
  | reset _ ih =>
    obtain ⟨tokens, htracks⟩ := ih.tracks
    exact EndReady.of_reset ih.forced rfl htracks

/-! ## Forcing -/

theorem accept_forcing (hstate : ctx.state = .forcing) (t : Token)
    (hmore : ctx.forcePos + 1 < ctx.forcedTokens.length) :
    ctx.accept t = { ctx with
      endMatcher := (ctx.endMatcher.advance t).2, forcePos := ctx.forcePos + 1 } := by
  simp only [accept, hstate]
  rw [if_neg (not_le.mpr hmore)]

theorem accept_forced_last (hstate : ctx.state = .forcing) (t : Token)
    (hlast : ctx.forcedTokens.length ≤ ctx.forcePos + 1) :
    (ctx.accept t).state = .done ∧ (ctx.accept t).endMatch = (ctx.endMatcher.advance t).1 := by
  simp only [accept, hstate]
  rw [if_pos hlast]
  exact ⟨rfl, rfl⟩

theorem acceptAll_forcing (h : EndReady ends forced ctx) (hstate : ctx.state = .forcing)
    (hpos : ctx.forcePos = 0) (tokens : List Token) (hmore : tokens.length < forced.length) :
    (ctx.acceptAll tokens).state = .forcing ∧ (ctx.acceptAll tokens).forcePos = tokens.length ∧
      (ctx.acceptAll tokens).forcedTokens = forced ∧
      (ctx.acceptAll tokens).endMatcher.Tracks ends (sinceMatch ends tokens) := by
  induction tokens using List.reverseRecOn with
  | nil => exact ⟨hstate, hpos, h.forced, h.forcing hstate hpos⟩
  | append_singleton tokens t ih =>
    rw [List.length_append, List.length_singleton] at hmore
    obtain ⟨hstate', hpos', hforced', htracks⟩ := ih (by omega)
    have hrun : ctx.acceptAll (tokens ++ [t]) = (ctx.acceptAll tokens).accept t := by
      rw [acceptAll, List.foldl_append]
      rfl
    rw [hrun, accept_forcing hstate' t (by rw [hpos', hforced']; exact hmore)]
    refine ⟨hstate', ?_, hforced', htracks.advance_sinceMatch t⟩
    rw [List.length_append, List.length_singleton, ← hpos']

/-- A forced end is reported as the longest end sequence of the forced tokens exactly if that
sequence begins after the last match before the end. -/
theorem forcedMatch_iff (h : Reached vocab starts ends forced budget ctx)
    (hstate : ctx.state = .forcing) (hpos : ctx.forcePos = 0) (hforced : forced ≠ []) :
    (ctx.acceptAll forced).state = .done ∧
      (Trie.EndsAt (TokenMatcher.collect ends) forced (ctx.acceptAll forced).endMatch ↔
        ∀ q ∈ ends, q <:+ forced → q.length ≤ (sinceMatch ends forced.dropLast).length + 1) := by
  obtain ⟨tokens, t, rfl⟩ := (List.eq_nil_or_concat' forced).resolve_left hforced
  have hlen : tokens.length < (tokens ++ [t]).length := by
    rw [List.length_append, List.length_singleton]
    exact Nat.lt_succ_self _
  obtain ⟨hstate', hpos', hforced', htracks⟩ :=
    acceptAll_forcing h.endReady hstate hpos tokens hlen
  have hrun : ctx.acceptAll (tokens ++ [t]) = (ctx.acceptAll tokens).accept t := by
    rw [acceptAll, List.foldl_append]
    rfl
  obtain ⟨hdone, hmatch⟩ := accept_forced_last hstate' t
    (by rw [hpos', hforced', List.length_append, List.length_singleton])
  have hsuffix : sinceMatch ends tokens ++ [t] <:+ tokens ++ [t] :=
    List.suffix_concat_iff.mpr (Or.inr ⟨_, rfl, sinceMatch_suffix ends tokens⟩)
  have hiff := endsAt_since_iff hsuffix (htracks.advance_endsAt t)
  rw [List.length_append, List.length_singleton] at hiff
  rw [hrun, hmatch, List.dropLast_concat]
  exact ⟨hdone, hiff⟩

/-! The end sequences `[1]` and `[1, 2]`. -/

theorem forcedMatch_inner :
    (((init none [] [[1], [1, 2]] [1, 2] 0 .counting).acceptAll [1, 2]).state = .done) ∧
      ¬ Trie.EndsAt (TokenMatcher.collect [[1], [1, 2]]) [1, 2]
        ((init none [] [[1], [1, 2]] [1, 2] 0 .counting).acceptAll [1, 2]).endMatch := by
  have hmatch : ((init none [] [[1], [1, 2]] [1, 2] 0 .counting).acceptAll [1, 2]).endMatch =
      none := by decide
  refine ⟨by decide, ?_⟩
  rw [hmatch]
  exact fun hnone => hnone [1, 2] (by decide) List.suffix_rfl

theorem forcedMatch_iff_single :
    ((init none [] [[2, 3]] [1, 2, 3] 0 .counting).acceptAll [1, 2, 3]).state = .done ∧
      Trie.EndsAt (TokenMatcher.collect [[2, 3]]) [1, 2, 3]
        ((init none [] [[2, 3]] [1, 2, 3] 0 .counting).acceptAll [1, 2, 3]).endMatch := by
  have h := forcedMatch_iff (.init .counting : Reached none [] [[2, 3]] [1, 2, 3] 0 _)
    (by decide) (by decide) (by decide)
  exact ⟨h.1, h.2.mpr (by decide)⟩

end Ctx
end RocmFpx.ReasoningBudget
