import RocmFpx.GrammarTokens

/-!
Accepting the pieces of a text one by one and accepting the text at once leave the same stacks
and the same partial character, and so does the replay of the tokens that a lazy grammar has
buffered when one of its patterns is found.
-/

namespace RocmFpx

open GrammarRules GrammarElement Worklist PartialUtf8

namespace GrammarPiece

variable {rules : GrammarRules} {g g' : GrammarState} {st : PartialUtf8} {chrs : List ℕ}

/-- No rule has a token element. -/
def NoTokens (rules : GrammarRules) : Prop := ∀ r ∈ rules, ∀ e ∈ r, e.isToken = false

theorem NoTokens.elem (h : NoTokens rules) (pos : ElementPtr) :
    (elem rules pos).isToken = false := by
  cases hb : behind rules pos with
  | nil =>
    rw [GrammarRules.elem, hb]
    rfl
  | cons e es =>
    rw [elem_eq_of_behind hb]
    rw [behind] at hb
    cases hrule : rules[pos.rule]? with
    | none => simp [hrule] at hb
    | some body =>
      rw [hrule, Option.getD_some] at hb
      refine h body (List.mem_of_getElem? hrule) e (List.mem_of_mem_drop (i := pos.at_) ?_)
      rw [hb]
      exact List.mem_cons_self

/-- Only a string leaves the empty stack where it is. -/
def keepsEmpty : GrammarPiece → Prop
  | .str _ => True
  | .token _ _ => False

theorem finish_eq {stackList : List GrammarStack} (h : GrammarState.finish stackList st = .ok g) :
    g = ⟨stackList, st⟩ ∧ stackList ≠ [] := by
  rw [GrammarState.finish] at h
  split_ifs at h with hnil
  exact ⟨(Except.ok.inj h).symm, hnil⟩

theorem accept_spec (hw : Wellformed rules) (hno : NoTokens rules) (piece : GrammarPiece)
    {fuel : ℕ} {r : Except GrammarState GrammarState}
    (hdecode : decodeUtf8 piece.bytes g.partialUtf8 = (chrs ++ [0], st))
    (h : piece.accept rules fuel g = some r) :
    ∃ out, r = GrammarState.finish out st ∧
      (∀ t, t ∈ out ↔ ∃ s ∈ g.stackList, (s = [] → piece.keepsEmpty) ∧ Runs rules chrs s t) ∧
      ∀ s ∈ g.stackList, Safe rules chrs s := by
  cases piece with
  | str piece =>
    have hdecode : decodeUtf8 piece g.partialUtf8 = (chrs ++ [0], st) := hdecode
    rw [accept, GrammarState.acceptStr, hdecode] at h
    simp only [List.dropLast_concat] at h
    obtain ⟨out, hrun, hr⟩ := Option.bind_eq_some_iff.mp h
    refine ⟨out, (Option.some.inj hr).symm, fun t => ?_, ?_⟩
    · rw [(acceptFold_loop hw chrs).mem fuel _ out hrun t]
      simp [keepsEmpty]
    · exact (acceptFold_loop hw chrs).safe fuel _ out hrun
  | token id piece =>
    have hdecode : decodeUtf8 piece g.partialUtf8 = (chrs ++ [0], st) := hdecode
    rw [accept, GrammarState.acceptToken, hdecode] at h
    simp only [List.dropLast_concat] at h
    obtain ⟨out, hrun, hr⟩ := Option.bind_eq_some_iff.mp h
    refine ⟨out, (Option.some.inj hr).symm, fun t => ?_, fun s hs => ?_⟩
    · rw [tokenSteps_mem hw hrun t]
      refine exists_congr fun s => and_congr_right fun _ => ?_
      cases s with
      | nil => simp [not_tokenRuns_nil, keepsEmpty]
      | cons pos base => simp [tokenRuns_cons, hno.elem pos, keepsEmpty]
    · cases s with
      | nil => exact safe_nil
      | cons pos base =>
        obtain ⟨_, _, hstep⟩ := foldlM_step hrun hs
        exact ((tokenStep_safe hw hstep) pos base rfl).2 (hno.elem pos)

theorem accept_returns (hw : Wellformed rules) (hno : NoTokens rules) (piece : GrammarPiece)
    (hdecode : decodeUtf8 piece.bytes g.partialUtf8 = (chrs ++ [0], st))
    (hfit : ∀ s ∈ g.stackList, Fit rules s) (hsafe : ∀ s ∈ g.stackList, Safe rules chrs s) :
    ∃ fuel r, piece.accept rules fuel g = some r := by
  cases piece with
  | str piece =>
    have hdecode : decodeUtf8 piece g.partialUtf8 = (chrs ++ [0], st) := hdecode
    obtain ⟨fuel, out, hrun⟩ := (acceptFold_loop hw chrs).returns g.stackList hfit hsafe
    refine ⟨fuel, GrammarState.finish out st, ?_⟩
    rw [accept, GrammarState.acceptStr, hdecode]
    simp only [List.dropLast_concat]
    exact Option.bind_eq_some_iff.mpr ⟨out, hrun, rfl⟩
  | token id piece =>
    have hdecode : decodeUtf8 piece g.partialUtf8 = (chrs ++ [0], st) := hdecode
    obtain ⟨fuel, out, hrun⟩ := foldlM_returns (tokenStep_mono hw id chrs) g.stackList
      (fun s hs acc => tokenStep_returns hw (hfit s hs) (fun pos base hsplit =>
        ⟨fun htoken => absurd htoken (by rw [hno.elem pos]; decide), fun _ => hsafe s hs⟩) acc) []
    refine ⟨fuel, GrammarState.finish out st, ?_⟩
    rw [accept, GrammarState.acceptToken, hdecode]
    simp only [List.dropLast_concat]
    exact Option.bind_eq_some_iff.mpr ⟨out, hrun, rfl⟩

/-! ## Pieces in order -/

/-- Up to the empty stack, these are the stacks that a string leads to. -/
structure Reached (rules : GrammarRules) (before : List GrammarStack) (chrs : List ℕ)
    (after : List GrammarStack) : Prop where
  sound : ∀ t ∈ after, ∃ s ∈ before, Runs rules chrs s t
  complete : ∀ s ∈ before, ∀ t, t ≠ [] → Runs rules chrs s t → t ∈ after
  safe : ∀ s ∈ before, Safe rules chrs s

theorem Reached.refl (stackList : List GrammarStack) : Reached rules stackList [] stackList where
  sound t ht := ⟨t, ht, .nil⟩
  complete s hs t _ hr := by
    cases hr with
    | nil => exact hs
  safe _ _ := trivial

theorem runs_ne_nil {as : List ℕ} {s t : GrammarStack} (ht : t ≠ [] ∨ as ≠ [])
    (h : Runs rules as s t) : s ≠ [] := by
  rintro rfl
  by_cases has : as = []
  · rw [has] at h
    cases h with
    | nil => exact ht.elim (fun hn => hn rfl) fun hn => hn has
  · exact not_runs_nil has h

theorem Reached.accept (hw : Wellformed rules) (hno : NoTokens rules)
    {before : List GrammarStack} {as cs : List ℕ} (h : Reached rules before as g.stackList)
    (piece : GrammarPiece) {fuel : ℕ}
    (hdecode : decodeUtf8 piece.bytes g.partialUtf8 = (cs ++ [0], st))
    (hrun : piece.accept rules fuel g = some (.ok g')) :
    Reached rules before (as ++ cs) g'.stackList ∧ g'.partialUtf8 = st ∧ g'.stackList ≠ [] ∧
      (cs ≠ [] → ∀ s ∈ before, ∀ t, Runs rules (as ++ cs) s t → t ∈ g'.stackList) := by
  obtain ⟨out, hr, hmem, hsafe⟩ := accept_spec hw hno piece hdecode hrun
  obtain ⟨rfl, hne⟩ := finish_eq hr.symm
  have hcomplete : ∀ s ∈ before, ∀ t, t ≠ [] ∨ cs ≠ [] → Runs rules (as ++ cs) s t → t ∈ out := by
    intro s hs t ht hruns
    obtain ⟨u, hu, ht'⟩ := runs_append.1 hruns
    have hune := runs_ne_nil ht ht'
    exact (hmem t).mpr ⟨u, h.complete s hs u hune hu, fun hnil => absurd hnil hune, ht'⟩
  refine ⟨⟨fun t ht => ?_, fun s hs t ht => hcomplete s hs t (Or.inl ht), fun s hs => ?_⟩, rfl,
    hne, fun hcs s hs t => hcomplete s hs t (Or.inr hcs)⟩
  · obtain ⟨u, hu, -, ht'⟩ := (hmem t).mp ht
    obtain ⟨s, hs, hsu⟩ := h.sound u hu
    exact ⟨s, hs, runs_append.2 ⟨u, hsu, ht'⟩⟩
  · refine safe_append.2 ⟨h.safe s hs, fun u hu => ?_⟩
    by_cases hnil : u = []
    · rw [hnil]
      exact safe_nil
    · exact hsafe u (h.complete s hs u hnil hu)

theorem acceptAll_cons {fuel : ℕ} {piece : GrammarPiece} {pieces : List GrammarPiece}
    (h : acceptAll rules fuel (piece :: pieces) g = some (.ok g')) :
    ∃ mid, piece.accept rules fuel g = some (.ok mid) ∧
      acceptAll rules fuel pieces mid = some (.ok g') := by
  rw [acceptAll] at h
  obtain ⟨r, hr, h⟩ := Option.bind_eq_some_iff.mp h
  cases r with
  | error st => nomatch Option.some.inj h
  | ok mid => exact ⟨mid, hr, h⟩

theorem acceptAll_append {fuel : ℕ} {as bs : List GrammarPiece}
    (h : acceptAll rules fuel (as ++ bs) g = some (.ok g')) :
    ∃ mid, acceptAll rules fuel as g = some (.ok mid) ∧
      acceptAll rules fuel bs mid = some (.ok g') := by
  induction as generalizing g with
  | nil => exact ⟨g, rfl, h⟩
  | cons piece as ih =>
    obtain ⟨mid, hmid, hrest⟩ := acceptAll_cons h
    obtain ⟨mid', hmid', hbs⟩ := ih hrest
    refine ⟨mid', ?_, hbs⟩
    rw [acceptAll, hmid]
    exact hmid'

/-- The bytes of pieces put together. -/
def text (pieces : List GrammarPiece) : List UInt8 := pieces.flatMap bytes

theorem reached_acceptAll (hw : Wellformed rules) (hno : NoTokens rules) {fuel : ℕ}
    {pieces : List GrammarPiece} {before : List GrammarStack} {as cs : List ℕ}
    (h : Reached rules before as g.stackList) (hzero : ∀ b ∈ text pieces, b ≠ 0)
    (hfeed : feedAll (text pieces) g.partialUtf8 = some (cs, st))
    (hrun : acceptAll rules fuel pieces g = some (.ok g')) :
    Reached rules before (as ++ cs) g'.stackList ∧ g'.partialUtf8 = st := by
  induction pieces generalizing g as cs with
  | nil =>
    obtain ⟨rfl, rfl⟩ := Prod.mk.inj (Option.some.inj hfeed)
    obtain rfl := Except.ok.inj (Option.some.inj hrun)
    rw [List.append_nil]
    exact ⟨h, rfl⟩
  | cons piece pieces ih =>
    obtain ⟨mid, hmid, hrest⟩ := acceptAll_cons hrun
    rw [text, List.flatMap_cons] at hfeed hzero
    obtain ⟨ds, st', es, hpiece, hmore, rfl⟩ := feedAll_append.1 hfeed
    have hdecode := decodeUtf8_feed (fun b hb => hzero b (List.mem_append_left _ hb)) hpiece
    obtain ⟨hreached, hpart, -, -⟩ := h.accept hw hno piece hdecode hmid
    rw [← List.append_assoc]
    exact ih hreached (fun b hb => hzero b (List.mem_append_right _ hb)) (hpart ▸ hmore) hrest

/-- Two states with the same stacks and the same partial character. -/
def Same (g g' : GrammarState) : Prop :=
  (∀ t, t ∈ g.stackList ↔ t ∈ g'.stackList) ∧ g.partialUtf8 = g'.partialUtf8

theorem acceptAll_same (hw : Wellformed rules) (hno : NoTokens rules)
    (hfit : ∀ s ∈ g.stackList, Fit rules s) (hpart : g.partialUtf8.nRemain ≤ 0)
    {chars : List Char} (hchars : ∀ c ∈ chars, c.toNat ≠ 0) {pieces : List GrammarPiece}
    {last : GrammarPiece} (hlast : last.bytes ≠ []) (hcut : text (pieces ++ [last]) = encode chars)
    (whole : GrammarPiece) (hwhole : whole.bytes = encode chars) {fuel : ℕ}
    (hrun : acceptAll rules fuel (pieces ++ [last]) g = some (.ok g')) :
    ∃ fuel' g'', whole.accept rules fuel' g = some (.ok g'') ∧ Same g' g'' := by
  have hzero := encode_ne_zero hchars
  have hne : chars ≠ [] := by
    rintro rfl
    rw [text, List.flatMap_append] at hcut
    have hnil := (List.append_eq_nil_iff.mp hcut).2
    rw [List.flatMap_cons, List.flatMap_nil, List.append_nil] at hnil
    exact hlast hnil
  obtain ⟨st', hfeed, hend, -⟩ := feedAll_encode chars hpart
  -- the pieces
  obtain ⟨mid, hmid, hrest⟩ := acceptAll_append hrun
  obtain ⟨mid', hlastrun, hdone⟩ := acceptAll_cons hrest
  obtain rfl := Except.ok.inj (Option.some.inj hdone)
  have hcut' : encode chars = text pieces ++ last.bytes := by
    rw [← hcut, text, List.flatMap_append, List.flatMap_cons, List.flatMap_nil, List.append_nil,
      text]
  rw [hcut'] at hfeed hzero
  obtain ⟨as, mst, cs, hpieces, hlastfeed, hsplit⟩ := feedAll_append.1 hfeed
  obtain ⟨hreached, hmst⟩ := reached_acceptAll hw hno (Reached.refl g.stackList)
    (fun b hb => hzero b (List.mem_append_left _ hb)) hpieces hmid
  rw [List.nil_append] at hreached
  have hdecode := decodeUtf8_feed (fun b hb => hzero b (List.mem_append_right _ hb))
    (hmst ▸ hlastfeed)
  obtain ⟨hfinal, hst, hnonempty, hall⟩ := hreached.accept hw hno last hdecode hlastrun
  have hcs := feedAll_ne_nil hlast hlastfeed (hend hne)
  -- the text at once
  have hdecode' : decodeUtf8 whole.bytes g.partialUtf8 = (as ++ cs ++ [0], st') := by
    rw [hwhole, hcut', decodeUtf8_feed hzero hfeed, hsplit]
  obtain ⟨fuel', r, hr⟩ := accept_returns hw hno whole hdecode' hfit hfinal.safe
  obtain ⟨out, rfl, hmem, -⟩ := accept_spec hw hno whole hdecode' hr
  have hsame : ∀ t, t ∈ mid'.stackList ↔ t ∈ out := by
    intro t
    rw [hmem t]
    constructor
    · intro ht
      obtain ⟨s, hs, hruns⟩ := hfinal.sound t ht
      refine ⟨s, hs, fun hnil => absurd hnil (runs_ne_nil (Or.inr ?_) hruns), hruns⟩
      exact List.append_ne_nil_of_right_ne_nil _ hcs
    · rintro ⟨s, hs, -, hruns⟩
      exact hall hcs s hs t hruns
  have hout : out ≠ [] := by
    obtain ⟨t, ht⟩ := List.exists_mem_of_ne_nil _ hnonempty
    exact List.ne_nil_of_mem ((hsame t).mp ht)
  refine ⟨fuel', ⟨out, st'⟩, ?_, hsame, hst⟩
  rw [hr, GrammarState.finish, if_neg hout]

/-! ## Reachable states -/

/-- The state that a call leaves, also by an exception. -/
def stateOf : Except GrammarState GrammarState → GrammarState
  | .error g => g
  | .ok g => g

/-- The states of a grammar that is not lazy, or has been triggered. -/
inductive ReachableState (rules : GrammarRules) (startRule : ℕ) : GrammarState → Prop
  | init {fuel out} (h : initialStacks rules fuel startRule = some out) :
      ReachableState rules startRule ⟨out, ⟨0, 0⟩⟩
  | accept {g piece fuel r} (h : ReachableState rules startRule g)
      (hrun : GrammarPiece.accept rules fuel g piece = some r) :
      ReachableState rules startRule (stateOf r)

theorem initialStacks_fit (hw : Wellformed rules) {startRule fuel : ℕ} {out : List GrammarStack}
    (h : initialStacks rules fuel startRule = some out) : ∀ s ∈ out, Fit rules s := by
  intro s hs
  obtain ⟨hset, b, hb, hr⟩ := (initialStacks_mem h s).mp hs
  exact ⟨(hb.proper hw).reaches hw hr, hset⟩

theorem tokenRuns_fit (hw : Wellformed rules) {token : ℕ} {s t : GrammarStack}
    (hs : Fit rules s) (h : TokenRuns rules token chrs s t) : Fit rules t := by
  obtain ⟨pos, base, rfl, ⟨htoken, -, hr, hset⟩ | ⟨-, hr⟩⟩ := h
  · exact ⟨(tokenMove_proper hw htoken hs.1).reaches hw hr, hset⟩
  · exact hr.fit hw hs

theorem stateOf_finish (out : List GrammarStack) (st : PartialUtf8) :
    stateOf (GrammarState.finish out st) = ⟨out, st⟩ := by
  rw [GrammarState.finish]
  split_ifs <;> rfl

theorem accept_fit (hw : Wellformed rules) (hfit : ∀ s ∈ g.stackList, Fit rules s)
    {piece : GrammarPiece} {fuel : ℕ} {r : Except GrammarState GrammarState}
    (h : piece.accept rules fuel g = some r) : ∀ s ∈ (stateOf r).stackList, Fit rules s := by
  intro t ht
  cases piece with
  | str piece =>
    obtain ⟨out, hrun, hr⟩ := Option.bind_eq_some_iff.mp h
    rw [← Option.some.inj hr, stateOf_finish] at ht
    obtain ⟨s, hs, hruns⟩ := ((acceptFold_loop hw _).mem fuel _ out hrun t).mp ht
    exact hruns.fit hw (hfit s hs)
  | token id piece =>
    obtain ⟨out, hrun, hr⟩ := Option.bind_eq_some_iff.mp h
    rw [← Option.some.inj hr, stateOf_finish] at ht
    obtain ⟨s, hs, hruns⟩ := (tokenSteps_mem hw hrun t).mp ht
    exact tokenRuns_fit hw (hfit s hs) hruns

theorem ReachableState.fit (hw : Wellformed rules) {startRule : ℕ}
    (h : ReachableState rules startRule g) : ∀ s ∈ g.stackList, Fit rules s := by
  induction h with
  | init h => exact initialStacks_fit hw h
  | accept _ hrun ih => exact accept_fit hw ih hrun

end GrammarPiece

namespace LazyGrammar

open GrammarPiece

variable {rules : GrammarRules} {startRule : ℕ} {vocab : GrammarVocab} {triggerTokens : List ℕ}
  {triggerPatterns : List TriggerPattern} {g g' : LazyGrammar}

/-! ## The buffer of a lazy grammar -/

/-- The position of the first pattern that is found. -/
def triggered (triggerPatterns : List TriggerPattern) (buffer : List UInt8) : Option ℕ :=
  triggerPatterns.findSome? fun p => p.find buffer

/-- The states of a lazy grammar that still awaits its trigger. -/
inductive Awaiting (rules : GrammarRules) (startRule : ℕ) (vocab : GrammarVocab)
    (triggerTokens : List ℕ) (triggerPatterns : List TriggerPattern) : LazyGrammar → Prop
  | init {fuel out} (h : initialStacks rules fuel startRule = some out) :
      Awaiting rules startRule vocab triggerTokens triggerPatterns ⟨⟨out, ⟨0, 0⟩⟩, true, [], []⟩
  | step {g g' fuel token} (h : Awaiting rules startRule vocab triggerTokens triggerPatterns g)
      (hrun : acceptImpl rules vocab triggerTokens triggerPatterns fuel g token = some (.ok g'))
      (hstill : g'.awaitingTrigger = true) :
      Awaiting rules startRule vocab triggerTokens triggerPatterns g'

/-- Positions that cover a stretch of the buffer without gaps. -/
def Covers : ℕ → List (ℕ × ℕ × ℕ) → ℕ → Prop
  | a, [], b => a = b
  | a, pos :: more, b => pos.2.1 = a ∧ a ≤ pos.2.2 ∧ Covers pos.2.2 more b

/-- What holds while the buffer is filled. -/
structure BufferInv (rules : GrammarRules) (triggerPatterns : List TriggerPattern)
    (g : LazyGrammar) : Prop where
  awaiting : g.awaitingTrigger = true
  fit : ∀ s ∈ g.stackList, Fit rules s
  fresh : g.partialUtf8 = ⟨0, 0⟩
  covers : Covers 0 g.triggerBufferPositions g.triggerBuffer.length
  silent : g.triggerBufferPositions ≠ [] → triggered triggerPatterns g.triggerBuffer = none

theorem covers_le {a b : ℕ} {positions : List (ℕ × ℕ × ℕ)} (h : Covers a positions b) : a ≤ b := by
  induction positions generalizing a with
  | nil => exact Nat.le_of_eq h
  | cons pos positions ih => exact h.2.1.trans (ih h.2.2)

theorem covers_end_le {a b : ℕ} {positions : List (ℕ × ℕ × ℕ)} (h : Covers a positions b) :
    ∀ pos ∈ positions, pos.2.2 ≤ b := by
  induction positions generalizing a with
  | nil => exact fun _ hpos => nomatch hpos
  | cons pos positions ih =>
    intro q hq
    rcases List.mem_cons.mp hq with rfl | hq
    · exact covers_le h.2.2
    · exact ih h.2.2 q hq

theorem covers_append {a b e token : ℕ} {positions : List (ℕ × ℕ × ℕ)} (h : Covers a positions b)
    (hle : b ≤ e) : Covers a (positions ++ [(token, b, e)]) e := by
  induction positions generalizing a with
  | nil =>
    obtain rfl : a = b := h
    exact ⟨rfl, hle, rfl⟩
  | cons pos positions ih => exact ⟨h.1, h.2.1, ih h.2.2⟩

theorem text_slices (buffer : List UInt8) (start : ℕ) {a b : ℕ} {positions : List (ℕ × ℕ × ℕ)}
    (h : Covers a positions b) :
    text ((positions.filter fun pos => start < pos.2.2).map (slice buffer start)) =
      (buffer.drop (max a start)).take (b - max a start) := by
  induction positions generalizing a with
  | nil =>
    obtain rfl : a = b := h
    rw [Nat.sub_eq_zero_of_le (le_max_left a start), List.take_zero]
    rfl
  | cons pos positions ih =>
    obtain ⟨ha, hle, hmore⟩ := h
    have hb := covers_le hmore
    rw [List.filter_cons]
    split_ifs with hpast
    · have hpast : start < pos.2.2 := by simpa using hpast
      rw [List.map_cons, text, List.flatMap_cons, ← text, ih hmore, max_eq_left hpast.le]
      have hm : max a start ≤ pos.2.2 := max_le hle hpast.le
      have hsplit : b - max a start = (pos.2.2 - max a start) + (b - pos.2.2) := by omega
      rw [hsplit, List.take_add, List.drop_drop, Nat.add_sub_cancel' hm]
      congr 1
      rw [slice, bytes, ha]
    · have hpast : pos.2.2 ≤ start := by simpa using hpast
      rw [ih hmore, max_eq_right hpast, max_eq_right (hle.trans hpast)]

theorem withState_ok {h : LazyGrammar} {st : Except GrammarState GrammarState}
    (hok : withState h st = .ok g') :
    ∃ s, st = .ok s ∧ g' = { h with toGrammarState := s } := by
  cases st with
  | error s => nomatch hok
  | ok s => exact ⟨s, rfl, (Except.ok.inj hok).symm⟩

theorem acceptImpl_awaiting {fuel token : ℕ} (hg : g.awaitingTrigger = true)
    (hrun : acceptImpl rules vocab triggerTokens triggerPatterns fuel g token = some (.ok g'))
    (hstill : g'.awaitingTrigger = true) :
    g' = g.buffered token (vocab.tokenToPiece token) ∧
      triggered triggerPatterns g'.triggerBuffer = none := by
  rw [acceptImpl, if_pos hg] at hrun
  split_ifs at hrun with htoken
  · obtain ⟨st, -, hst⟩ := Option.bind_eq_some_iff.mp hrun
    obtain ⟨s, -, rfl⟩ := withState_ok (Option.some.inj hst)
    exact absurd hstill (by simp)
  · simp only at hrun
    cases hfound : triggered triggerPatterns
        (g.buffered token (vocab.tokenToPiece token)).triggerBuffer with
    | none =>
      rw [triggered] at hfound
      rw [hfound] at hrun
      obtain rfl := Except.ok.inj (Option.some.inj hrun)
      exact ⟨rfl, hfound⟩
    | some start =>
      rw [triggered] at hfound
      rw [hfound] at hrun
      obtain ⟨st, -, hst⟩ := Option.bind_eq_some_iff.mp hrun
      cases st with
      | error s => nomatch hst
      | ok s =>
        obtain rfl := Except.ok.inj (Option.some.inj hst)
        exact absurd hstill (by simp)

theorem Awaiting.inv (hw : Wellformed rules)
    (h : Awaiting rules startRule vocab triggerTokens triggerPatterns g) :
    BufferInv rules triggerPatterns g := by
  induction h with
  | init h =>
    exact ⟨rfl, initialStacks_fit hw h, rfl, rfl, fun hne => absurd rfl hne⟩
  | step _ hrun hstill ih =>
    obtain ⟨rfl, hnone⟩ := acceptImpl_awaiting ih.awaiting hrun hstill
    refine ⟨ih.awaiting, ih.fit, ih.fresh, ?_, fun _ => hnone⟩
    rw [buffered, List.length_append]
    exact covers_append ih.covers (Nat.le_add_right _ _)

theorem BufferInv.replayed_last (hinv : BufferInv rules triggerPatterns g) {token start : ℕ}
    {piece : List UInt8}
    (hfound : triggered triggerPatterns (g.buffered token piece).triggerBuffer = some start)
    (hdrop : (g.buffered token piece).triggerBuffer.drop start ≠ []) :
    ∃ before last, (g.buffered token piece).replayed start = before ++ [last] ∧
      last.bytes ≠ [] := by
  have hlen : (g.buffered token piece).triggerBuffer.length =
      g.triggerBuffer.length + piece.length := List.length_append
  have hstart : start < g.triggerBuffer.length + piece.length := by
    rw [← hlen]
    exact lt_of_not_ge fun hle => hdrop (List.drop_eq_nil_of_le hle)
  have hpiece : piece ≠ [] := by
    rintro rfl
    have hsame : (g.buffered token []).triggerBuffer = g.triggerBuffer := List.append_nil _
    rw [hsame] at hfound
    by_cases hnone : g.triggerBufferPositions = []
    · have hzero := hinv.covers
      rw [hnone] at hzero
      have hzero : 0 = g.triggerBuffer.length := hzero
      rw [List.length_nil] at hstart
      omega
    · rw [hinv.silent hnone] at hfound
      nomatch hfound
  have hpos : 0 < piece.length := List.length_pos_of_ne_nil hpiece
  refine ⟨(g.triggerBufferPositions.filter fun pos => start < pos.2.2).map
    (slice (g.buffered token piece).triggerBuffer start),
    slice (g.buffered token piece).triggerBuffer start
      (token, g.triggerBuffer.length, g.triggerBuffer.length + piece.length), ?_, ?_⟩
  · rw [replayed, buffered, List.filter_append, List.map_append]
    congr 1
    rw [List.filter_cons_of_pos (by simpa using hstart)]
    rfl
  · refine List.ne_nil_of_length_pos ?_
    rw [slice, bytes, List.length_take, List.length_drop, hlen]
    simp only
    omega

theorem acceptImpl_triggered {fuel token start : ℕ} (hg : g.awaitingTrigger = true)
    (htoken : token ∉ triggerTokens)
    (hfound : triggered triggerPatterns
      (g.buffered token (vocab.tokenToPiece token)).triggerBuffer = some start)
    (hrun : acceptImpl rules vocab triggerTokens triggerPatterns fuel g token = some (.ok g')) :
    acceptAll rules fuel ((g.buffered token (vocab.tokenToPiece token)).replayed start)
      g.toGrammarState = some (.ok g'.toGrammarState) := by
  rw [acceptImpl, if_pos hg, if_neg htoken] at hrun
  rw [triggered] at hfound
  simp only [hfound] at hrun
  obtain ⟨st, hst, hdone⟩ := Option.bind_eq_some_iff.mp hrun
  cases st with
  | error s => nomatch hdone
  | ok s =>
    obtain rfl := Except.ok.inj (Option.some.inj hdone)
    exact hst

theorem replay_same (hw : Wellformed rules) (hno : NoTokens rules)
    (hinv : BufferInv rules triggerPatterns g) {token start fuel : ℕ}
    (htoken : token ∉ triggerTokens)
    (hfound : triggered triggerPatterns
      (g.buffered token (vocab.tokenToPiece token)).triggerBuffer = some start)
    (hrun : acceptImpl rules vocab triggerTokens triggerPatterns fuel g token = some (.ok g'))
    {chars : List Char} (hchars : ∀ c ∈ chars, c.toNat ≠ 0)
    (htext : (g.buffered token (vocab.tokenToPiece token)).triggerBuffer.drop start =
      encode chars) :
    ∃ fuel' r, g.toGrammarState.acceptStr rules fuel'
        ((g.buffered token (vocab.tokenToPiece token)).triggerBuffer.drop start) = some r ∧
      Same g'.toGrammarState (stateOf r) := by
  have hreplay := acceptImpl_triggered hinv.awaiting htoken hfound hrun
  generalize hpiece : vocab.tokenToPiece token = piece at hfound htext hreplay ⊢
  have hcovers : Covers 0 (g.buffered token piece).triggerBufferPositions
      (g.buffered token piece).triggerBuffer.length := by
    rw [buffered, List.length_append]
    exact covers_append hinv.covers (Nat.le_add_right _ _)
  have hslices := text_slices (g.buffered token piece).triggerBuffer start hcovers
  rw [Nat.max_eq_right (Nat.zero_le start), List.take_of_length_le
    (by rw [List.length_drop]), htext] at hslices
  have hpart : g.partialUtf8.nRemain ≤ 0 := by rw [hinv.fresh]
  rw [htext]
  by_cases hnil : chars = []
  · -- the trigger is the end of the buffer, and no token is replayed
    subst hnil
    have hend : (g.buffered token piece).triggerBuffer.length ≤ start :=
      List.drop_eq_nil_iff.mp htext
    have hnone : (g.buffered token piece).replayed start = [] := by
      rw [replayed, List.filter_eq_nil_iff.mpr, List.map_nil]
      intro pos hpos
      simpa using (covers_end_le hcovers pos hpos).trans hend
    rw [hnone] at hreplay
    have hsame : g.toGrammarState = g'.toGrammarState := Except.ok.inj (Option.some.inj hreplay)
    refine ⟨0, GrammarState.finish g.stackList ⟨0, 0⟩, ?_, ?_⟩
    · rw [GrammarState.acceptStr, hinv.fresh]
      rfl
    · rw [stateOf_finish, ← hsame]
      exact ⟨fun t => Iff.rfl, hinv.fresh⟩
  · obtain ⟨before, last, hsplit, hlast⟩ := hinv.replayed_last hfound
      (fun hdrop => hnil (encode_eq_nil (htext.symm.trans hdrop)))
    rw [hsplit] at hreplay
    obtain ⟨fuel', g'', hwhole, hsame⟩ := acceptAll_same hw hno hinv.fit hpart hchars hlast
      (by rw [← hsplit]; exact hslices) (.str (encode chars)) rfl hreplay
    exact ⟨fuel', .ok g'', hwhole, hsame⟩

end LazyGrammar

namespace RuleArrays

open GrammarPiece LazyGrammar

theorem tokenization_independent (a : RuleArrays) (haccepted : a.Accepted)
    (hno : NoTokens a.copied) :
    (∀ g g' fuel pieces chars (whole : GrammarPiece), ReachableState a.copied a.startRule g →
      g.partialUtf8.nRemain ≤ 0 → (∀ c ∈ chars, c.toNat ≠ 0) → pieces ≠ [] →
      (∀ piece ∈ pieces, piece.bytes ≠ []) → text pieces = encode chars →
      whole.bytes = encode chars → acceptAll a.copied fuel pieces g = some (.ok g') →
      ∃ fuel' g'', whole.accept a.copied fuel' g = some (.ok g'') ∧ Same g' g'') ∧
    ∀ (vocab : GrammarVocab) triggerTokens triggerPatterns (g g' : LazyGrammar) fuel token start
      chars, Awaiting a.copied a.startRule vocab triggerTokens triggerPatterns g →
      token ∉ triggerTokens → (∀ c ∈ chars, c.toNat ≠ 0) →
      triggered triggerPatterns
        (g.buffered token (vocab.tokenToPiece token)).triggerBuffer = some start →
      (g.buffered token (vocab.tokenToPiece token)).triggerBuffer.drop start = encode chars →
      acceptImpl a.copied vocab triggerTokens triggerPatterns fuel g token = some (.ok g') →
      ∃ fuel' r, g.toGrammarState.acceptStr a.copied fuel'
        ((g.buffered token (vocab.tokenToPiece token)).triggerBuffer.drop start) = some r ∧
        Same g'.toGrammarState (stateOf r) := by
  have hw := wellformed haccepted.1
  constructor
  · intro g g' fuel pieces chars whole hg hpart hchars hne hpieces hcut hwhole hrun
    rw [← List.dropLast_append_getLast hne] at hcut hrun
    exact acceptAll_same hw hno (hg.fit hw) hpart hchars (hpieces _ (List.getLast_mem hne)) hcut
      whole hwhole hrun
  · intro vocab triggerTokens triggerPatterns g g' fuel token start chars hg htoken hchars hfound
      htext hrun
    exact replay_same hw hno (hg.inv hw) htoken hfound hrun hchars htext

/-- `root ::= "é"`. -/
def accent : RuleArrays where
  rules := [[⟨.char, 233⟩, endRule]]
  startRule := 0
  formed := by decide
  startRule_lt := by decide

/-- The vocabulary cuts the character in two. -/
def accentVocab : GrammarVocab where
  tokenToPiece token := if token = 0 then [120, 0xC3] else [0xA9]
  isEog _ := false

def accentPattern : TriggerPattern where
  find input := if input = [120, 0xC3, 0xA9] then some 1 else none
  find_le input start h := by
    split_ifs at h with hin
    obtain rfl := Option.some.inj h
    rw [hin]
    decide

theorem tokenization_independent_accent :
    (∃ fuel g, GrammarPiece.accept accent.copied fuel ⟨[[⟨0, 0⟩]], ⟨0, 0⟩⟩
      (.token 5 [0xC3, 0xA9]) = some (.ok g) ∧ Same ⟨[[]], ⟨233, 0⟩⟩ g) ∧
    ∃ fuel r, GrammarState.acceptStr accent.copied fuel ⟨[[⟨0, 0⟩]], ⟨0, 0⟩⟩ [0xC3, 0xA9] =
      some r ∧ Same ⟨[[]], ⟨233, 0⟩⟩ (stateOf r) := by
  have h := tokenization_independent accent (by decide) (by unfold NoTokens; decide)
  have hinit : initialStacks accent.copied 3 0 = some [[⟨0, 0⟩]] := rfl
  constructor
  · exact h.1 ⟨[[⟨0, 0⟩]], ⟨0, 0⟩⟩ _ 3 [.token 7 [0xC3], .str [0xA9]] [Char.ofNat 233] _
      (.init hinit) le_rfl (List.forall_mem_singleton.mpr (by decide)) (by decide) (by decide)
      (by decide) (by decide) rfl
  · have hstart : Awaiting accent.copied 0 accentVocab [9] [accentPattern]
        ⟨⟨[[⟨0, 0⟩]], ⟨0, 0⟩⟩, true, [], []⟩ := .init hinit
    have hnext : Awaiting accent.copied 0 accentVocab [9] [accentPattern]
        ⟨⟨[[⟨0, 0⟩]], ⟨0, 0⟩⟩, true, [120, 0xC3], [(0, 0, 2)]⟩ :=
      @Awaiting.step _ _ _ _ _ _ _ 3 0 hstart rfl rfl
    exact h.2 accentVocab [9] [accentPattern] _ ⟨⟨[[]], ⟨233, 0⟩⟩, false, [], []⟩ 3 1 1
      [Char.ofNat 233] hnext (by decide) (List.forall_mem_singleton.mpr (by decide)) rfl
      (by decide) rfl

end RuleArrays
end RocmFpx
