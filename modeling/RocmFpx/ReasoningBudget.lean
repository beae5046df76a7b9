import RocmFpx.AhoCorasick
import RocmFpx.Utf8Boundary

/-!
The reasoning budget sampler. From a start sequence on the tokens are counted; when the budget is
used up, the tokens that close the reasoning block are forced one after another. Forcing may begin
only where the text stands at a character boundary.
-/

namespace RocmFpx.ReasoningBudget

/-- `llama_token`, as its 32 bits. -/
abbrev Token := ℕ

/-- `common_token_to_piece(vocab, token, false)`. -/
abbrev Vocab := Token → List UInt8

/-- `token_matcher`. -/
structure TokenMatcher where
  seqs : List (List Token)
  ac : AhoCorasick
  state : ℕ

namespace TokenMatcher

def collect (seqs : List (List Token)) : List (List Token) :=
  seqs.foldl (fun res seq => if seq ≠ [] ∧ seq ∉ res then res ++ [seq] else res) []

def buildTrie (seqs : List (List Token)) : Trie := Trie.empty.insertAll seqs

def ofSeqs (seqs : List (List Token)) : TokenMatcher :=
  { seqs := collect seqs, ac := .ofTrie (buildTrie (collect seqs)), state := 0 }

/-- The index of the longest sequence that ends at this token; the search then starts anew. -/
def advance (m : TokenMatcher) (token : Token) : Option ℕ × TokenMatcher :=
  let s := m.ac.next m.state token
  let p := m.ac.matchPattern s
  (p, { m with state := if p.isSome then 0 else s })

def reset (m : TokenMatcher) : TokenMatcher := { m with state := 0 }

end TokenMatcher

/-- `common_reasoning_budget_state`. -/
inductive State
  | idle
  | counting
  | forcing
  | waitingUtf8
  | done
  deriving DecidableEq

/-- `common_reasoning_budget_ctx`. -/
structure Ctx where
  vocab : Option Vocab
  startMatcher : TokenMatcher
  endMatcher : TokenMatcher
  forcedTokens : List Token
  budget : ℤ
  remaining : ℤ
  state : State
  forcePos : ℕ
  endMatch : Option ℕ

/-- A candidate and its logit; `⊥` is `-INFINITY`. -/
structure TokenData where
  id : Token
  logit : WithBot ℚ

namespace Ctx

/-- `common_reasoning_budget_init`. -/
def init (vocab : Option Vocab) (startSeqs endSeqs : List (List Token)) (forcedTokens : List Token)
    (budget : ℤ) (initialState : State) : Ctx :=
  { vocab := vocab
    startMatcher := .ofSeqs startSeqs
    endMatcher := .ofSeqs endSeqs
    forcedTokens := forcedTokens
    budget := budget
    remaining := budget
    state := if initialState = .counting ∧ budget ≤ 0 then .forcing else initialState
    forcePos := 0
    endMatch := none }

/-- The start sequence has been seen: the budget begins, or is used up at once. -/
def activate (ctx : Ctx) : Ctx :=
  let ctx := { ctx with state := .counting, remaining := ctx.budget }
  if ctx.remaining ≤ 0 then { ctx with state := .forcing, forcePos := 0 } else ctx

/-- The budget is used up and the last token ends a character. -/
def force (ctx : Ctx) : Ctx :=
  { ctx with state := .forcing, forcePos := 0, endMatcher := ctx.endMatcher.reset }

def utf8Complete (ctx : Ctx) (token : Token) : Bool :=
  match ctx.vocab with
  | some vocab => utf8IsComplete (vocab token)
  | none => true

/-- `common_reasoning_budget_accept`. -/
def accept (ctx : Ctx) (token : Token) : Ctx :=
  match ctx.state with
  | .idle =>
    let r := ctx.startMatcher.advance token
    let ctx := { ctx with startMatcher := r.2 }
    if r.1.isSome then ctx.activate else ctx
  | .counting =>
    let r := ctx.endMatcher.advance token
    let ctx := { ctx with endMatcher := r.2 }
    if r.1.isSome then { ctx with state := .done, endMatch := r.1 }
    else
      let ctx := { ctx with remaining := ctx.remaining - 1 }
      if ctx.remaining ≤ 0 then
        if ctx.utf8Complete token then ctx.force
        else { ctx with state := .waitingUtf8, endMatcher := ctx.endMatcher.reset }
      else ctx
  | .waitingUtf8 =>
    let r := ctx.endMatcher.advance token
    let ctx := { ctx with endMatcher := r.2 }
    if r.1.isSome then { ctx with state := .done, endMatch := r.1 }
    else if ctx.utf8Complete token then ctx.force else ctx
  | .forcing =>
    let r := ctx.endMatcher.advance token
    let ctx := { ctx with endMatcher := r.2, forcePos := ctx.forcePos + 1 }
    if ctx.forcedTokens.length ≤ ctx.forcePos then { ctx with state := .done, endMatch := r.1 }
    else ctx
  | .done =>
    let r := ctx.startMatcher.advance token
    let ctx := { ctx with startMatcher := r.2 }
    if r.1.isSome then
      ({ ctx with endMatcher := ctx.endMatcher.reset, endMatch := none } : Ctx).activate
    else ctx

/-- `common_reasoning_budget_apply`. -/
def apply (ctx : Ctx) (cur : List TokenData) : List TokenData :=
  if ctx.state = .forcing then
    match ctx.forcedTokens[ctx.forcePos]? with
    | some forced => cur.map fun c => if c.id ≠ forced then { c with logit := ⊥ } else c
    | none => cur
  else cur

def acceptAll (ctx : Ctx) (tokens : List Token) : Ctx := tokens.foldl accept ctx

end Ctx

/-! ## Matching -/

/-- One of the sequences ends the tokens. -/
def EndsWith (seqs : List (List Token)) (tokens : List Token) : Prop :=
  ∃ q ∈ seqs, q ≠ [] ∧ q <:+ tokens

instance (seqs : List (List Token)) (tokens : List Token) : Decidable (EndsWith seqs tokens) :=
  inferInstanceAs (Decidable (∃ q ∈ seqs, q ≠ [] ∧ q <:+ tokens))

namespace TokenMatcher

theorem mem_collect {seqs : List (List Token)} {q : List Token} :
    q ∈ collect seqs ↔ q ∈ seqs ∧ q ≠ [] := by
  have hfold : ∀ (l res : List (List Token)),
      q ∈ l.foldl (fun res seq => if seq ≠ [] ∧ seq ∉ res then res ++ [seq] else res) res ↔
        q ∈ res ∨ (q ∈ l ∧ q ≠ []) := by
    intro l
    induction l with
    | nil => simp
    | cons x l ih =>
      intro res
      rw [List.foldl_cons, ih, List.mem_cons]
      split_ifs with h
      · rw [List.mem_append, List.mem_singleton]
        constructor
        · rintro ((h1 | rfl) | h2)
          · exact Or.inl h1
          · exact Or.inr ⟨Or.inl rfl, h.1⟩
          · exact Or.inr ⟨Or.inr h2.1, h2.2⟩
        · rintro (h1 | ⟨rfl | h2, hq⟩)
          · exact Or.inl (Or.inl h1)
          · exact Or.inl (Or.inr rfl)
          · exact Or.inr ⟨h2, hq⟩
      · refine ⟨Or.imp_right fun h2 => ⟨Or.inr h2.1, h2.2⟩, ?_⟩
        rintro (h1 | ⟨rfl | h2, hq⟩)
        · exact Or.inl h1
        · exact Or.inl (not_not.mp fun hn => h ⟨hq, hn⟩)
        · exact Or.inr ⟨h2, hq⟩
  rw [collect, hfold, or_iff_right List.not_mem_nil]

/-- The matcher searches for `seqs` and has seen `tokens` since it was reset. -/
def Tracks (m : TokenMatcher) (seqs : List (List Token)) (tokens : List Token) : Prop :=
  m.ac.Tracks ((collect seqs).foldl Trie.addPattern []) tokens m.state

variable {m : TokenMatcher} {seqs : List (List Token)} {tokens : List Token}

theorem tracks_ofSeqs (seqs : List (List Token)) : (ofSeqs seqs).Tracks seqs [] := by
  obtain ⟨path, hl, hp, -⟩ :=
    Trie.insertAll_spec (collect seqs) Trie.empty_labelled Trie.empty_holds
  exact AhoCorasick.tracks_ofTrie hl hp

theorem Tracks.reset (h : m.Tracks seqs tokens) : m.reset.Tracks seqs [] := h.start

/-- A matcher reports a match exactly when a sequence ends the tokens seen, and starts anew. -/
theorem Tracks.advance (h : m.Tracks seqs tokens) (t : Token) :
    ((m.advance t).1.isSome ↔ EndsWith seqs (tokens ++ [t])) ∧
      (EndsWith seqs (tokens ++ [t]) → (m.advance t).2.Tracks seqs []) ∧
      (¬ EndsWith seqs (tokens ++ [t]) → (m.advance t).2.Tracks seqs (tokens ++ [t])) := by
  have hnext := AhoCorasick.Tracks.next h t
  have hiff : (m.advance t).1.isSome ↔ EndsWith seqs (tokens ++ [t]) := by
    refine hnext.matchPattern.isSome_iff.trans (exists_congr fun q => ?_)
    rw [Trie.mem_foldl_addPattern, or_iff_right List.not_mem_nil, mem_collect, and_assoc]
  refine ⟨hiff, fun hm => ?_, fun hm => ?_⟩
  · have hsome : (m.ac.matchPattern (m.ac.next m.state t)).isSome := hiff.mpr hm
    rw [TokenMatcher.advance, Tracks]
    simp only [if_pos hsome]
    exact hnext.start
  · have hnone : ¬ (m.ac.matchPattern (m.ac.next m.state t)).isSome := mt hiff.mp hm
    rw [TokenMatcher.advance, Tracks]
    simp only [if_neg hnone]
    exact hnext

end TokenMatcher

end RocmFpx.ReasoningBudget

/-!
When forcing begins. The sampler should be told by the text: forcing begins at the first character
boundary at which the budget is used up. It is told by the last piece alone. The two agree as long
as the pieces that decide begin a character, or tell by their emptiness where the text stands.
-/

namespace RocmFpx.ReasoningBudget

/-- What a reasoning block is limited by. -/
structure Limits where
  piece : Vocab
  starts : List (List Token)
  ends : List (List Token)
  forced : List Token
  budget : ℕ

/-- Where a run of the sampler should be, by the tokens accepted since the phase began. -/
inductive Phase
  | idle (seen : List Token)
  | on (since : List Token)
  | forcing (pos : ℕ)
  | done (seen : List Token)

structure Ideal where
  phase : Phase
  text : List UInt8

namespace Limits

/-- Forcing begins once the budget is used up and the text is at a character boundary. -/
noncomputable def limit (lim : Limits) (since : List Token) (text : List UInt8) : Phase :=
  open Classical in
  if lim.budget ≤ since.length ∧ AtBoundary text then
    if lim.forced = [] then .done [] else .forcing 0
  else .on since

noncomputable def nextPhase (lim : Limits) (phase : Phase) (t : Token) (text : List UInt8) : Phase :=
  open Classical in
  match phase with
  | .idle seen =>
    if EndsWith lim.starts (seen ++ [t]) then lim.limit [] text else .idle (seen ++ [t])
  | .on since =>
    if EndsWith lim.ends (since ++ [t]) then .done [] else lim.limit (since ++ [t]) text
  | .forcing pos => if pos + 1 < lim.forced.length then .forcing (pos + 1) else .done []
  | .done seen =>
    if EndsWith lim.starts (seen ++ [t]) then lim.limit [] text else .done (seen ++ [t])

noncomputable def accept (lim : Limits) (s : Ideal) (t : Token) : Ideal :=
  ⟨lim.nextPhase s.phase t (s.text ++ lim.piece t), s.text ++ lim.piece t⟩

/-- The phase after some tokens. -/
noncomputable def run (lim : Limits) (tokens : List Token) : Ideal :=
  tokens.foldl lim.accept ⟨.idle [], []⟩

/-- The sampler these limits make. -/
def sampler (lim : Limits) : Ctx :=
  .init (some lim.piece) lim.starts lim.ends lim.forced lim.budget .idle

end Limits

/-- The sampler does what the phase says: it is in the state of that name, and it lets everything
pass but where it forces; there it admits the forced token alone. -/
def Agrees (lim : Limits) (ctx : Ctx) : Phase → Prop
  | .idle _ => ctx.state = .idle ∧ ∀ cur, ctx.apply cur = cur
  | .on _ => (ctx.state = .counting ∨ ctx.state = .waitingUtf8) ∧ ∀ cur, ctx.apply cur = cur
  | .forcing pos => ctx.state = .forcing ∧ ∃ f, lim.forced[pos]? = some f ∧
      ∀ cur, ctx.apply cur = cur.map fun c => if c.id ≠ f then { c with logit := ⊥ } else c
  | .done _ => ctx.state = .done ∧ ∀ cur, ctx.apply cur = cur

/-- The step at which the last piece tells what the text tells. -/
def Careful (lim : Limits) (s : Ideal) (t : Token) : Prop :=
  match s.phase with
  | .idle seen | .done seen =>
    EndsWith lim.starts (seen ++ [t]) → lim.budget = 0 →
      AtBoundary (s.text ++ lim.piece t) ∧ lim.forced ≠ []
  | .on since =>
    (lim.budget ≤ since.length → EndsWith lim.ends (since ++ [t]) →
      EndsWith lim.ends (since.drop lim.budget ++ [t])) ∧
    (¬ EndsWith lim.ends (since ++ [t]) → lim.budget ≤ since.length + 1 →
      ((∀ b ∈ lim.piece t, isContinuation b) →
        (lim.piece t = [] ↔ AtBoundary (s.text ++ lim.piece t))) ∧
      (AtBoundary (s.text ++ lim.piece t) → lim.forced ≠ []))
  | .forcing _ => True

/-! ## The invariant -/

/-- How the state of the sampler follows from the phase. -/
def Follows (lim : Limits) (ctx : Ctx) (text : List UInt8) : Phase → Prop
  | .idle seen => ctx.state = .idle ∧ ctx.startMatcher.Tracks lim.starts seen ∧
      ctx.endMatcher.Tracks lim.ends []
  | .on since => ctx.startMatcher.Tracks lim.starts [] ∧
      ((ctx.state = .counting ∧ since.length < lim.budget ∧
          ctx.remaining = lim.budget - since.length ∧ ctx.endMatcher.Tracks lim.ends since) ∨
        (ctx.state = .waitingUtf8 ∧ lim.budget ≤ since.length ∧ ¬ AtBoundary text ∧
          ctx.endMatcher.Tracks lim.ends (since.drop lim.budget)))
  | .forcing pos => ctx.state = .forcing ∧ ctx.forcePos = pos ∧ pos < lim.forced.length ∧
      ctx.startMatcher.Tracks lim.starts [] ∧ ∃ seen, ctx.endMatcher.Tracks lim.ends seen
  | .done seen => ctx.state = .done ∧ ctx.startMatcher.Tracks lim.starts seen ∧
      ∃ seen, ctx.endMatcher.Tracks lim.ends seen

structure Inv (lim : Limits) (ctx : Ctx) (s : Ideal) : Prop where
  vocab : ctx.vocab = some lim.piece
  forced : ctx.forcedTokens = lim.forced
  budget : ctx.budget = lim.budget
  follows : Follows lim ctx s.text s.phase

variable {lim : Limits} {ctx : Ctx} {s : Ideal} {t : Token} {text : List UInt8}

theorem Ctx.apply_of_ne {cur : List TokenData} (h : ctx.state ≠ .forcing) : ctx.apply cur = cur :=
  if_neg h

theorem Inv.agrees (h : Inv lim ctx s) : Agrees lim ctx s.phase := by
  obtain ⟨-, hforced, -, hf⟩ := h
  obtain ⟨phase, text⟩ := s
  cases phase with
  | idle seen =>
    exact ⟨hf.1, fun cur => Ctx.apply_of_ne (by rw [hf.1]; exact State.noConfusion)⟩
  | on since =>
    have hstate : ctx.state = .counting ∨ ctx.state = .waitingUtf8 :=
      hf.2.imp (fun h => h.1) fun h => h.1
    refine ⟨hstate, fun cur => Ctx.apply_of_ne ?_⟩
    rcases hstate with h | h <;> rw [h] <;> exact State.noConfusion
  | forcing pos =>
    obtain ⟨hstate, hpos, hlt, -⟩ := hf
    refine ⟨hstate, lim.forced[pos], List.getElem?_eq_getElem hlt, fun cur => ?_⟩
    rw [Ctx.apply, if_pos hstate, hforced, hpos, List.getElem?_eq_getElem hlt]
  | done seen =>
    exact ⟨hf.1, fun cur => Ctx.apply_of_ne (by rw [hf.1]; exact State.noConfusion)⟩

/-! ## One token -/

theorem Limits.limit_on {since : List Token} (h : ¬ (lim.budget ≤ since.length ∧ AtBoundary text)) :
    lim.limit since text = .on since := by
  rw [Limits.limit, if_neg h]

theorem Limits.limit_forcing {since : List Token} (hb : lim.budget ≤ since.length)
    (ht : AtBoundary text) (hf : lim.forced ≠ []) : lim.limit since text = .forcing 0 := by
  rw [Limits.limit, if_pos ⟨hb, ht⟩, if_neg hf]

theorem Limits.limit_done {since : List Token} (hb : lim.budget ≤ since.length)
    (ht : AtBoundary text) (hf : lim.forced = []) : lim.limit since text = .done [] := by
  rw [Limits.limit, if_pos ⟨hb, ht⟩, if_pos hf]

theorem agrees_forcing {since : List Token} (hb : lim.budget ≤ since.length)
    (hstate : ctx.state = .forcing) (h : Agrees lim ctx (lim.limit since text)) :
    AtBoundary text ∧ lim.forced ≠ [] := by
  by_cases ht : AtBoundary text
  · refine ⟨ht, fun hf => ?_⟩
    rw [Limits.limit_done hb ht hf] at h
    exact State.noConfusion (hstate.symm.trans h.1)
  · rw [Limits.limit_on fun hc => ht hc.2] at h
    rcases h.1 with hc | hc <;> exact State.noConfusion (hstate.symm.trans hc)

theorem agrees_waiting {since : List Token} (hb : lim.budget ≤ since.length)
    (hstate : ctx.state = .waitingUtf8) (h : Agrees lim ctx (lim.limit since text)) :
    ¬ AtBoundary text := by
  intro ht
  by_cases hf : lim.forced = []
  · rw [Limits.limit_done hb ht hf] at h
    exact State.noConfusion (hstate.symm.trans h.1)
  · rw [Limits.limit_forcing hb ht hf] at h
    exact State.noConfusion (hstate.symm.trans h.1)

/-- What does not change as long as the matchers and the state do. -/
structure Settings (lim : Limits) (ctx : Ctx) : Prop where
  vocab : ctx.vocab = some lim.piece
  forced : ctx.forcedTokens = lim.forced
  budget : ctx.budget = lim.budget

theorem forced_pos (h : lim.forced ≠ []) : 0 < lim.forced.length := List.length_pos_iff.mpr h

theorem activate_step (text : List UInt8) (hset : Settings lim ctx)
    (hstart : ctx.startMatcher.Tracks lim.starts [])
    (hend : ctx.endMatcher.Tracks lim.ends []) :
    ((lim.budget = 0 → AtBoundary text ∧ lim.forced ≠ []) →
        Inv lim ctx.activate ⟨lim.limit [] text, text⟩) ∧
      (Agrees lim ctx.activate (lim.limit [] text) →
        lim.budget = 0 → AtBoundary text ∧ lim.forced ≠ []) := by
  by_cases hb : lim.budget = 0
  · have hact : ctx.activate =
        { ctx with state := .forcing, remaining := ctx.budget, forcePos := 0 } := by
      rw [Ctx.activate, if_pos]
      rw [hset.budget, hb]
      exact le_rfl
    have hle : lim.budget ≤ ([] : List Token).length := hb.le
    rw [hact]
    refine ⟨fun h => ?_, fun h _ => agrees_forcing hle rfl h⟩
    obtain ⟨ht, hf⟩ := h hb
    rw [Limits.limit_forcing hle ht hf]
    exact ⟨hset.vocab, hset.forced, hset.budget, rfl, rfl, forced_pos hf, hstart, [], hend⟩
  · have hact : ctx.activate = { ctx with state := .counting, remaining := ctx.budget } := by
      have hlt : ¬ ctx.budget ≤ 0 := by
        rw [hset.budget]
        omega
      rw [Ctx.activate, if_neg hlt]
    have hpos : ¬ lim.budget ≤ ([] : List Token).length := fun h => hb (Nat.le_zero.mp h)
    refine ⟨fun _ => ?_, fun _ h0 => absurd h0 hb⟩
    rw [hact, Limits.limit_on fun h => hpos h.1]
    refine ⟨hset.vocab, hset.forced, hset.budget, hstart, Or.inl ⟨rfl, not_le.mp hpos, ?_, hend⟩⟩
    exact hset.budget.trans (sub_zero _).symm

theorem exhausted_step (hset : Settings lim ctx) (since : List Token) (waiting : Ctx)
    {rest : List UInt8} (hvalid : AtBoundary (text ++ lim.piece t ++ rest)) (hb : lim.budget ≤ since.length)
    (hstart : ctx.startMatcher.Tracks lim.starts [])
    (hwset : Settings lim waiting) (hwstate : waiting.state = .waitingUtf8)
    (hwstart : waiting.startMatcher.Tracks lim.starts [])
    (hwend : waiting.endMatcher.Tracks lim.ends (since.drop lim.budget))
    {seen : List Token} (hend : ctx.endMatcher.Tracks lim.ends seen) {next : Ctx}
    (hnext : next = if ctx.utf8Complete t then ctx.force else waiting) :
    (((∀ b ∈ lim.piece t, isContinuation b) →
          (lim.piece t = [] ↔ AtBoundary (text ++ lim.piece t))) ∧
        (AtBoundary (text ++ lim.piece t) → lim.forced ≠ []) →
        Inv lim next ⟨lim.limit since (text ++ lim.piece t), text ++ lim.piece t⟩) ∧
      (Agrees lim next (lim.limit since (text ++ lim.piece t)) →
        ((∀ b ∈ lim.piece t, isContinuation b) →
          (lim.piece t = [] ↔ AtBoundary (text ++ lim.piece t))) ∧
        (AtBoundary (text ++ lim.piece t) → lim.forced ≠ [])) := by
  have hcomplete : ctx.utf8Complete t = utf8IsComplete (lim.piece t) := by
    rw [Ctx.utf8Complete, hset.vocab]
  have hcont : (∀ b ∈ lim.piece t, isContinuation b) →
      (utf8IsComplete (lim.piece t) ↔ lim.piece t = []) := fun h => by
    rw [utf8IsComplete_continuation h, List.isEmpty_iff]
  by_cases hc : utf8IsComplete (lim.piece t)
  · rw [hcomplete, if_pos hc] at hnext
    rw [hnext]
    constructor
    · rintro ⟨hlead, hf⟩
      have ht : AtBoundary (text ++ lim.piece t) := by
        by_cases h : ∀ b ∈ lim.piece t, isContinuation b
        · exact (hlead h).mp ((hcont h).mp hc)
        · exact (utf8IsComplete_iff hvalid h).mp hc
      rw [Limits.limit_forcing hb ht (hf ht)]
      exact ⟨hset.vocab, hset.forced, hset.budget, rfl, rfl, forced_pos (hf ht), hstart, [],
        hend.reset⟩
    · intro h
      obtain ⟨ht, hf⟩ := agrees_forcing hb rfl h
      exact ⟨fun h => iff_of_true ((hcont h).mp hc) ht, fun _ => hf⟩
  · rw [hcomplete, if_neg hc] at hnext
    rw [hnext]
    constructor
    · rintro ⟨hlead, -⟩
      have ht : ¬ AtBoundary (text ++ lim.piece t) := by
        by_cases h : ∀ b ∈ lim.piece t, isContinuation b
        · exact fun ht => hc ((hcont h).mpr ((hlead h).mpr ht))
        · exact mt (utf8IsComplete_iff hvalid h).mpr hc
      rw [Limits.limit_on fun h => ht h.2]
      exact ⟨hwset.vocab, hwset.forced, hwset.budget, hwstart, Or.inr ⟨hwstate, hb, ht, hwend⟩⟩
    · intro h
      have ht := agrees_waiting hb hwstate h
      exact ⟨fun h => iff_of_false (fun h0 => hc ((hcont h).mpr h0)) ht, fun h => absurd h ht⟩

theorem start_step {m : TokenMatcher} {seen : List Token} (hm : m.Tracks lim.starts seen)
    {c : Ctx} (quiet : Ctx) (hset : Settings lim c) (hstart : c.startMatcher = (m.advance t).2)
    (hend : c.endMatcher.Tracks lim.ends []) {phase : Phase}
    (hquiet : (m.advance t).2.Tracks lim.starts (seen ++ [t]) → Inv lim quiet ⟨phase, text⟩)
    {next : Ctx} (hnext : next = if (m.advance t).1.isSome then c.activate else quiet)
    {phase' : Phase} (hphase : phase' = open Classical in
      if EndsWith lim.starts (seen ++ [t]) then lim.limit [] text else phase) :
    ((EndsWith lim.starts (seen ++ [t]) → lim.budget = 0 → AtBoundary text ∧ lim.forced ≠ []) →
        Inv lim next ⟨phase', text⟩) ∧
      (Agrees lim next phase' → EndsWith lim.starts (seen ++ [t]) → lim.budget = 0 →
        AtBoundary text ∧ lim.forced ≠ []) := by
  obtain ⟨hiff, hmatch, hmiss⟩ := hm.advance t
  by_cases h : EndsWith lim.starts (seen ++ [t])
  · rw [if_pos (hiff.mpr h)] at hnext
    rw [if_pos h] at hphase
    obtain ⟨h1, h2⟩ := activate_step text hset (hstart ▸ hmatch h) hend
    rw [hnext, hphase]
    exact ⟨fun hcond => h1 (hcond h), fun ha _ => h2 ha⟩
  · rw [if_neg (mt hiff.mp h)] at hnext
    rw [if_neg h] at hphase
    rw [hnext, hphase]
    exact ⟨fun _ => hquiet (hmiss h), fun _ h' => absurd h' h⟩

theorem idle_step {seen : List Token} (h : Inv lim ctx ⟨.idle seen, text⟩) (t : Token) :
    (Careful lim ⟨.idle seen, text⟩ t → Inv lim (ctx.accept t) (lim.accept ⟨.idle seen, text⟩ t)) ∧
      (Agrees lim (ctx.accept t) (lim.accept ⟨.idle seen, text⟩ t).phase →
        Careful lim ⟨.idle seen, text⟩ t) := by
  obtain ⟨hstate, hstart, hend⟩ := h.follows
  have hset : Settings lim { ctx with startMatcher := (ctx.startMatcher.advance t).2 } :=
    ⟨h.vocab, h.forced, h.budget⟩
  refine start_step hstart { ctx with startMatcher := (ctx.startMatcher.advance t).2 } hset rfl hend
    (fun hm => ?_) ?_ rfl
  · exact ⟨h.vocab, h.forced, h.budget, hstate, hm, hend⟩
  · rw [Ctx.accept, hstate]

theorem done_step {seen : List Token} (h : Inv lim ctx ⟨.done seen, text⟩) (t : Token) :
    (Careful lim ⟨.done seen, text⟩ t → Inv lim (ctx.accept t) (lim.accept ⟨.done seen, text⟩ t)) ∧
      (Agrees lim (ctx.accept t) (lim.accept ⟨.done seen, text⟩ t).phase →
        Careful lim ⟨.done seen, text⟩ t) := by
  obtain ⟨hstate, hstart, _, hend⟩ := h.follows
  have hset : Settings lim { ctx with
      startMatcher := (ctx.startMatcher.advance t).2
      endMatcher := ctx.endMatcher.reset
      endMatch := none } := ⟨h.vocab, h.forced, h.budget⟩
  refine start_step hstart { ctx with startMatcher := (ctx.startMatcher.advance t).2 } hset rfl
    hend.reset (fun hm => ?_) ?_ rfl
  · exact ⟨h.vocab, h.forced, h.budget, hstate, hm, _, hend⟩
  · rw [Ctx.accept, hstate]

theorem forcing_step {pos : ℕ} (h : Inv lim ctx ⟨.forcing pos, text⟩) (t : Token) :
    Inv lim (ctx.accept t) (lim.accept ⟨.forcing pos, text⟩ t) := by
  obtain ⟨hstate, hpos, hlt, hstart, seen, hend⟩ := h.follows
  have hend' : ∃ seen, (ctx.endMatcher.advance t).2.Tracks lim.ends seen := by
    obtain ⟨-, h1, h2⟩ := hend.advance t
    by_cases hm : EndsWith lim.ends (seen ++ [t])
    · exact ⟨_, h1 hm⟩
    · exact ⟨_, h2 hm⟩
  rw [Ctx.accept, hstate, Limits.accept, Limits.nextPhase]
  simp only [h.forced, hpos]
  split_ifs with h1 h2 h2
  · omega
  · exact ⟨h.vocab, rfl, h.budget, rfl, hstart, hend'⟩
  · exact ⟨h.vocab, rfl, h.budget, rfl, rfl, h2, hstart, hend'⟩
  · omega

theorem Ctx.accept_waiting (h : ctx.state = .waitingUtf8) :
    ctx.accept t =
      let c := { ctx with endMatcher := (ctx.endMatcher.advance t).2 }
      if (ctx.endMatcher.advance t).1.isSome then
        { c with state := .done, endMatch := (ctx.endMatcher.advance t).1 }
      else if c.utf8Complete t then c.force else c := by
  rw [Ctx.accept, h]

theorem on_step {since : List Token} (h : Inv lim ctx ⟨.on since, text⟩) (t : Token)
    {rest : List UInt8} (hvalid : AtBoundary (text ++ lim.piece t ++ rest)) :
    (Careful lim ⟨.on since, text⟩ t → Inv lim (ctx.accept t) (lim.accept ⟨.on since, text⟩ t)) ∧
      (Agrees lim (ctx.accept t) (lim.accept ⟨.on since, text⟩ t).phase →
        Careful lim ⟨.on since, text⟩ t) := by
  have hlen : (since ++ [t]).length = since.length + 1 := by
    rw [List.length_append, List.length_singleton]
  obtain ⟨hstart, ⟨hstate, hlt, hrem, hend⟩ | ⟨hstate, hle, hin, hend⟩⟩ := h.follows
  · obtain ⟨hiff, hmatch, hmiss⟩ := hend.advance t
    have hnot : ¬ lim.budget ≤ since.length := not_le.mpr hlt
    by_cases hm : EndsWith lim.ends (since ++ [t])
    · rw [Ctx.accept, hstate, Limits.accept, Limits.nextPhase]
      simp only [if_pos hm, if_pos (hiff.mpr hm)]
      refine ⟨fun _ => ?_, fun _ => ⟨fun hle => absurd hle hnot, fun hn => absurd hm hn⟩⟩
      exact ⟨h.vocab, h.forced, h.budget, rfl, hstart, _, hmatch hm⟩
    · rw [Ctx.accept, hstate, Limits.accept, Limits.nextPhase]
      simp only [if_neg hm, if_neg (mt hiff.mp hm), Careful]
      by_cases hb : lim.budget ≤ since.length + 1
      · have hrem0 : ctx.remaining - 1 ≤ 0 := by
          rw [hrem]
          omega
        have hdrop : (since ++ [t]).drop lim.budget = [] := by
          rw [List.drop_eq_nil_iff, hlen]
          omega
        rw [if_pos hrem0]
        have hset : Settings lim { ctx with
            endMatcher := (ctx.endMatcher.advance t).2
            remaining := ctx.remaining - 1 } := ⟨h.vocab, h.forced, h.budget⟩
        have hwait : (ctx.endMatcher.advance t).2.reset.Tracks lim.ends
            ((since ++ [t]).drop lim.budget) := by
          rw [hdrop]
          exact (hmiss hm).reset
        obtain ⟨h1, h2⟩ := exhausted_step hset (since ++ [t])
          { ctx with
            endMatcher := (ctx.endMatcher.advance t).2.reset
            remaining := ctx.remaining - 1
            state := .waitingUtf8 }
          hvalid (hlen ▸ hb) hstart ⟨h.vocab, h.forced, h.budget⟩ rfl hstart hwait (hmiss hm) rfl
        exact ⟨fun hcond => h1 (hcond.2 hm hb),
          fun ha => ⟨fun hle => absurd hle hnot, fun _ _ => h2 ha⟩⟩
      · have hrem0 : ¬ ctx.remaining - 1 ≤ 0 := by
          rw [hrem]
          omega
        rw [if_neg hrem0, Limits.limit_on fun hc => hb (hlen ▸ hc.1)]
        refine ⟨fun _ => ?_, fun _ => ⟨fun hle => absurd hle hnot, fun _ hb' => absurd hb' hb⟩⟩
        refine ⟨h.vocab, h.forced, h.budget, hstart, Or.inl ⟨rfl, ?_, ?_, hmiss hm⟩⟩
        · rw [hlen]
          omega
        · simp only [hrem, hlen, Nat.cast_add, Nat.cast_one]
          omega
  · obtain ⟨hiff, hmatch, hmiss⟩ := hend.advance t
    have hdrop : (since ++ [t]).drop lim.budget = since.drop lim.budget ++ [t] :=
      List.drop_append_of_le_length hle
    have hb : lim.budget ≤ since.length + 1 := hle.trans (Nat.le_succ _)
    have hsub : EndsWith lim.ends (since.drop lim.budget ++ [t]) →
        EndsWith lim.ends (since ++ [t]) := by
      rintro ⟨q, hq, hne, hsuf⟩
      exact ⟨q, hq, hne, hsuf.trans (hdrop ▸ List.drop_suffix _ _)⟩
    rw [Ctx.accept_waiting hstate, Limits.accept, Limits.nextPhase]
    simp only [Careful]
    by_cases hm : EndsWith lim.ends (since.drop lim.budget ++ [t])
    · simp only [if_pos (hsub hm), if_pos (hiff.mpr hm)]
      refine ⟨fun _ => ?_, fun _ => ⟨fun _ _ => hm, fun hn => absurd (hsub hm) hn⟩⟩
      exact ⟨h.vocab, h.forced, h.budget, rfl, hstart, _, hmatch hm⟩
    · simp only [if_neg (mt hiff.mp hm)]
      have hset : Settings lim { ctx with endMatcher := (ctx.endMatcher.advance t).2 } :=
        ⟨h.vocab, h.forced, h.budget⟩
      by_cases hm' : EndsWith lim.ends (since ++ [t])
      · -- the end sequence began before the budget was used up
        simp only [if_pos hm']
        refine ⟨fun hcond => absurd (hcond.1 hle hm') hm, fun ha => ?_⟩
        have hstate' : ∀ next : Ctx, (next = if ({ ctx with
            endMatcher := (ctx.endMatcher.advance t).2 } : Ctx).utf8Complete t then
              ({ ctx with endMatcher := (ctx.endMatcher.advance t).2 } : Ctx).force
            else { ctx with endMatcher := (ctx.endMatcher.advance t).2 }) →
            next.state ≠ .done := by
          intro next hnext
          rw [hnext]
          split_ifs
          · exact State.noConfusion
          · exact fun hd => State.noConfusion (hstate.symm.trans hd)
        exact absurd ha.1 (hstate' _ rfl)
      · simp only [if_neg hm']
        obtain ⟨h1, h2⟩ := exhausted_step hset (since ++ [t]) _ hvalid (hlen ▸ hb) hstart
          hset hstate hstart (hdrop ▸ hmiss hm) (hmiss hm) rfl
        exact ⟨fun hcond => h1 (hcond.2 hm' hb),
          fun ha => ⟨fun _ h' => absurd h' hm', fun _ _ => h2 ha⟩⟩

theorem accept_step (h : Inv lim ctx s) (t : Token) {rest : List UInt8}
    (hvalid : AtBoundary (s.text ++ lim.piece t ++ rest)) :
    (Careful lim s t → Inv lim (ctx.accept t) (lim.accept s t)) ∧
      (Agrees lim (ctx.accept t) (lim.accept s t).phase → Careful lim s t) := by
  obtain ⟨phase, text⟩ := s
  cases phase with
  | idle seen => exact idle_step h t
  | on since => exact on_step h t hvalid
  | forcing pos => exact ⟨fun _ => forcing_step h t, fun _ => trivial⟩
  | done seen => exact done_step h t

/-! ## Runs -/

theorem Limits.run_concat (lim : Limits) (pre : List Token) (t : Token) :
    lim.run (pre ++ [t]) = lim.accept (lim.run pre) t := by
  rw [Limits.run, List.foldl_append]
  rfl

theorem Ctx.acceptAll_concat (ctx : Ctx) (pre : List Token) (t : Token) :
    ctx.acceptAll (pre ++ [t]) = (ctx.acceptAll pre).accept t := by
  rw [Ctx.acceptAll, List.foldl_append]
  rfl

theorem Limits.run_text (lim : Limits) (pre : List Token) :
    (lim.run pre).text = pre.flatMap lim.piece := by
  induction pre using List.reverseRecOn with
  | nil => rfl
  | append_singleton pre t ih =>
    rw [Limits.run_concat, Limits.accept, ih, List.flatMap_append, List.flatMap_singleton]

theorem sampler_inv (lim : Limits) : Inv lim lim.sampler (lim.run []) := by
  have hstate : lim.sampler.state = .idle := by
    rw [Limits.sampler, Ctx.init, if_neg]
    exact fun h => State.noConfusion h.1
  exact ⟨rfl, rfl, rfl, hstate, TokenMatcher.tracks_ofSeqs _, TokenMatcher.tracks_ofSeqs _⟩

theorem valid_at {stream pre : List Token} {t : Token}
    (hvalid : AtBoundary (stream.flatMap lim.piece)) (hpre : pre ++ [t] <+: stream) :
    ∃ rest, AtBoundary ((lim.run pre).text ++ lim.piece t ++ rest) := by
  obtain ⟨rest, rfl⟩ := hpre
  refine ⟨rest.flatMap lim.piece, ?_⟩
  rw [Limits.run_text]
  rwa [List.flatMap_append, List.flatMap_append, List.flatMap_singleton] at hvalid

theorem run_inv {stream : List Token} (hvalid : AtBoundary (stream.flatMap lim.piece))
    {pre : List Token} (hpre : pre <+: stream)
    (hcareful : ∀ pre' t, pre' ++ [t] <+: pre → Careful lim (lim.run pre') t) :
    Inv lim (lim.sampler.acceptAll pre) (lim.run pre) := by
  induction pre using List.reverseRecOn with
  | nil => exact sampler_inv lim
  | append_singleton pre t ih =>
    have hstep := hcareful pre t List.prefix_rfl
    obtain ⟨rest, hrest⟩ := valid_at hvalid hpre
    have hpre' : pre <+: pre ++ [t] := List.prefix_append _ _
    rw [Ctx.acceptAll_concat, Limits.run_concat]
    exact (accept_step (ih (hpre'.trans hpre) fun p u h => hcareful p u (h.trans hpre')) t hrest).1
      hstep

/-- Forcing begins, goes on and ends where it should, throughout the stream, exactly if every step
is careful. -/
theorem agrees_iff_careful (lim : Limits) (stream : List Token)
    (hvalid : AtBoundary (stream.flatMap lim.piece)) :
    (∀ pre, pre <+: stream → Agrees lim (lim.sampler.acceptAll pre) (lim.run pre).phase) ↔
      ∀ pre t, pre ++ [t] <+: stream → Careful lim (lim.run pre) t := by
  constructor
  · intro hagree
    have hall : ∀ n, ∀ pre t, pre.length ≤ n → pre ++ [t] <+: stream →
        Careful lim (lim.run pre) t := by
      intro n
      induction n with
      | zero =>
        intro pre t hlen hpre
        obtain rfl := List.length_eq_zero_iff.mp (Nat.le_zero.mp hlen)
        obtain ⟨rest, hrest⟩ := valid_at hvalid hpre
        have h := hagree _ hpre
        rw [Ctx.acceptAll_concat, Limits.run_concat] at h
        exact (accept_step (sampler_inv lim) t hrest).2 h
      | succ n ih =>
        intro pre t hlen hpre
        have hpre' : pre <+: stream := (List.prefix_append pre [t]).trans hpre
        have hinv := run_inv hvalid hpre' fun p u hp => by
          have hle := hp.length_le
          rw [List.length_append, List.length_singleton] at hle
          exact ih p u (by omega) (hp.trans hpre')
        obtain ⟨rest, hrest⟩ := valid_at hvalid hpre
        have h := hagree _ hpre
        rw [Ctx.acceptAll_concat, Limits.run_concat] at h
        exact (accept_step hinv t hrest).2 h
    exact fun pre t hpre => hall pre.length pre t le_rfl hpre
  · intro hcareful pre hpre
    exact (run_inv hvalid hpre fun p u hp => hcareful p u (hp.trans hpre)).agrees

/-- Pieces `<`, the first two bytes of the euro sign and its last. -/
def euroLimits : Limits :=
  { piece := fun t => if t = 1 then [0x3C] else if t = 2 then [0xE2, 0x82] else if t = 3 then [0xAC]
      else [0x61]
    starts := [[1]]
    ends := [[9]]
    forced := [9]
    budget := 2 }

theorem euroLimits_run_start : euroLimits.run [1] = ⟨.on [], [0x3C]⟩ := by
  have hmatch : EndsWith euroLimits.starts ([] ++ [1]) := by decide
  have hlimit : ∀ text, euroLimits.limit [] text = .on [] :=
    fun text => Limits.limit_on fun h => absurd h.1 (by decide)
  rw [← List.nil_append [1], Limits.run_concat, Limits.accept, Limits.run, List.foldl_nil]
  simp only [Limits.nextPhase, if_pos hmatch, hlimit]
  rfl

theorem euroLimits_run_next {t : Token} (ht : ¬ EndsWith euroLimits.ends [t]) :
    euroLimits.run [1, t] = ⟨.on [t], 0x3C :: euroLimits.piece t⟩ := by
  have hlimit : ∀ text, euroLimits.limit [t] text = .on [t] :=
    fun text => Limits.limit_on fun h => absurd h.1 (Nat.not_succ_le_self 1)
  rw [← List.singleton_append, Limits.run_concat, euroLimits_run_start]
  simp only [Limits.accept, Limits.nextPhase, List.nil_append, if_neg ht, hlimit]
  rfl

/-- With letters the budget is used up at the second, and the sampler forces behind it. -/
theorem agrees_iff_careful_letters :
    AtBoundary ([1, 4, 4].flatMap euroLimits.piece) ∧
      ∀ pre, pre <+: [1, 4, 4] →
        Agrees euroLimits (euroLimits.sampler.acceptAll pre) (euroLimits.run pre).phase := by
  have hvalid : AtBoundary ([1, 4, 4].flatMap euroLimits.piece) := ⟨['<', 'a', 'a'], by decide⟩
  refine ⟨hvalid, (agrees_iff_careful euroLimits [1, 4, 4] hvalid).mpr fun pre t hpre => ?_⟩
  obtain ⟨rest, hrest⟩ := hpre
  match pre, hrest with
  | [], _ => exact fun _ h0 => absurd h0 (by decide)
  | [a], hrest =>
    obtain ⟨rfl, hrest⟩ := List.cons.inj hrest
    rw [euroLimits_run_start]
    exact ⟨fun h => absurd h (by decide), fun _ h => absurd h (by decide)⟩
  | [a, b], hrest =>
    simp only [List.cons_append, List.nil_append, List.cons.injEq] at hrest
    obtain ⟨rfl, rfl, rfl, -⟩ := hrest
    rw [euroLimits_run_next (by decide)]
    refine ⟨fun h => absurd h (by decide), fun _ _ => ⟨fun h => ?_, fun _ => by decide⟩⟩
    exact absurd (h 0x61 List.mem_cons_self) (by decide)
  | a :: b :: c :: pre, hrest =>
    have hlen := congrArg List.length hrest
    simp only [List.length_append, List.length_cons, List.length_nil] at hlen
    omega

/-- The euro sign in two tokens uses up the budget: at its end the text is at a boundary, but the
sampler waits. -/
theorem euroLimits_waits :
    AtBoundary ([1, 2, 3].flatMap euroLimits.piece) ∧
      (euroLimits.sampler.acceptAll [1, 2, 3]).state = .waitingUtf8 ∧
      ¬ ∀ pre, pre <+: [1, 2, 3] →
        Agrees euroLimits (euroLimits.sampler.acceptAll pre) (euroLimits.run pre).phase := by
  have hvalid : AtBoundary ([1, 2, 3].flatMap euroLimits.piece) := ⟨['<', '€'], by decide⟩
  have hstate : (euroLimits.sampler.acceptAll [1, 2, 3]).state = .waitingUtf8 := by decide
  refine ⟨hvalid, hstate, fun h => ?_⟩
  have hmiss : ¬ EndsWith euroLimits.ends ([2] ++ [3]) := by decide
  have hphase : (euroLimits.run ([1, 2] ++ [3])).phase = .forcing 0 := by
    have hbound : AtBoundary (0x3C :: euroLimits.piece 2 ++ euroLimits.piece 3) := hvalid
    rw [Limits.run_concat, euroLimits_run_next (by decide)]
    simp only [Limits.accept, Limits.nextPhase, if_neg hmiss]
    exact Limits.limit_forcing (by decide) hbound (by decide)
  have hagree := h ([1, 2] ++ [3]) List.prefix_rfl
  rw [hphase] at hagree
  exact State.noConfusion (hstate.symm.trans hagree.1)

end RocmFpx.ReasoningBudget
