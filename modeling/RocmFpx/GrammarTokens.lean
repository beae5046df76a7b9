import RocmFpx.GrammarConfigurations
import RocmFpx.GrammarRecognition
import RocmFpx.PartialUtf8

/-!
Accepting pieces of text: a token's piece or a string is decoded from where the last piece ended,
and its characters are run through the stacks. A lazy grammar buffers the pieces until one of its
patterns is found and then accepts what stands from there on, token by token.
-/

namespace RocmFpx

open GrammarRules GrammarElement Worklist PartialUtf8

/-- What accepting changes of `llama_grammar`. -/
structure GrammarState where
  stackList : List GrammarStack
  partialUtf8 : PartialUtf8

namespace GrammarState

/-- The state at the end of a call, thrown where no stack is left. -/
def finish (stackList : List GrammarStack) (partialUtf8 : PartialUtf8) :
    Except GrammarState GrammarState :=
  if stackList = [] then .error ⟨stackList, partialUtf8⟩ else .ok ⟨stackList, partialUtf8⟩

variable (rules : GrammarRules) (fuel : ℕ)

/-- `llama_grammar_accept_str`. -/
def acceptStr (g : GrammarState) (piece : List UInt8) :
    Option (Except GrammarState GrammarState) := do
  let stacksNew ← (decodeUtf8 piece g.partialUtf8).1.dropLast.foldlM (accept rules fuel) g.stackList
  some (finish stacksNew (decodeUtf8 piece g.partialUtf8).2)

/-- The characters of a piece run through one stack, until none is left. -/
def currentStacks : List ℕ → List GrammarStack → Option (List GrammarStack)
  | [], current => some current
  | chr :: chrs, current => do
    let next ← accept rules fuel current chr
    if next = [] then some [] else currentStacks chrs next

/-- What `llama_grammar_accept_token` does with one stack. -/
def tokenStep (token : ℕ) (chrs : List ℕ) (stacksNew : List GrammarStack) (stack : GrammarStack) :
    Option (List GrammarStack) :=
  match stack with
  | [] => some stacksNew
  | pos :: base =>
    if (elem rules pos).isToken then
      if matchToken rules pos token then
        advanceStack rules fuel (push rules (pos.add 1) base) stacksNew
      else some stacksNew
    else do
      let current ← currentStacks rules fuel chrs [pos :: base]
      some (current.foldl (fun acc s => kept s acc) stacksNew)

/-- `llama_grammar_accept_token`. -/
def acceptToken (g : GrammarState) (token : ℕ) (piece : List UInt8) :
    Option (Except GrammarState GrammarState) := do
  let stacksNew ← g.stackList.foldlM
    (tokenStep rules fuel token (decodeUtf8 piece g.partialUtf8).1.dropLast) []
  some (finish stacksNew (decodeUtf8 piece g.partialUtf8).2)

end GrammarState

/-- A piece of text to accept, with or without its token. -/
inductive GrammarPiece where
  | str (piece : List UInt8)
  | token (id : ℕ) (piece : List UInt8)

namespace GrammarPiece

def bytes : GrammarPiece → List UInt8
  | .str piece => piece
  | .token _ piece => piece

variable (rules : GrammarRules) (fuel : ℕ)

def accept (g : GrammarState) : GrammarPiece → Option (Except GrammarState GrammarState)
  | .str piece => g.acceptStr rules fuel piece
  | .token id piece => g.acceptToken rules fuel id piece

/-- Pieces accepted in order, up to the first exception. -/
def acceptAll : List GrammarPiece → GrammarState → Option (Except GrammarState GrammarState)
  | [], g => some (.ok g)
  | piece :: pieces, g => do
    match ← piece.accept rules fuel g with
    | .error g => some (.error g)
    | .ok g => acceptAll pieces g

end GrammarPiece

/-! ## Lazy grammars -/

/-- `llama_grammar_trigger_pattern::find`, which finds a position in the text. -/
structure TriggerPattern where
  find : List UInt8 → Option ℕ
  find_le : ∀ input start, find input = some start → start ≤ input.length

/-- What accepting needs of `llama_vocab`. -/
structure GrammarVocab where
  tokenToPiece : ℕ → List UInt8
  isEog : ℕ → Bool

/-- `llama_grammar`, less what never changes. -/
structure LazyGrammar extends GrammarState where
  awaitingTrigger : Bool
  triggerBuffer : List UInt8
  triggerBufferPositions : List (ℕ × ℕ × ℕ)

namespace LazyGrammar

/-- The part of a buffered token from the trigger on. -/
def slice (buffer : List UInt8) (start : ℕ) (pos : ℕ × ℕ × ℕ) : GrammarPiece :=
  .token pos.1 ((buffer.drop (max pos.2.1 start)).take (pos.2.2 - max pos.2.1 start))

/-- The pieces replayed: of the tokens that overlap with what stands from `start` on. -/
def replayed (g : LazyGrammar) (start : ℕ) : List GrammarPiece :=
  (g.triggerBufferPositions.filter fun pos => start < pos.2.2).map (slice g.triggerBuffer start)

/-- A token is appended to the buffer. -/
def buffered (g : LazyGrammar) (token : ℕ) (piece : List UInt8) : LazyGrammar :=
  { g with
    triggerBufferPositions := g.triggerBufferPositions ++
      [(token, g.triggerBuffer.length, g.triggerBuffer.length + piece.length)]
    triggerBuffer := g.triggerBuffer ++ piece }

variable (rules : GrammarRules) (vocab : GrammarVocab) (triggerTokens : List ℕ)
  (triggerPatterns : List TriggerPattern) (fuel : ℕ)

/-- The state in a grammar, or in one that an exception leaves. -/
def withState (g : LazyGrammar) : Except GrammarState GrammarState → Except LazyGrammar LazyGrammar
  | .error st => .error { g with toGrammarState := st }
  | .ok st => .ok { g with toGrammarState := st }

/-- `llama_grammar_accept_impl`. -/
def acceptImpl (g : LazyGrammar) (token : ℕ) : Option (Except LazyGrammar LazyGrammar) :=
  if g.awaitingTrigger then
    if token ∈ triggerTokens then do
      let st ← g.toGrammarState.acceptToken rules fuel token (vocab.tokenToPiece token)
      some (withState { g with awaitingTrigger := false, triggerBuffer := [] } st)
    else
      let g := g.buffered token (vocab.tokenToPiece token)
      match triggerPatterns.findSome? fun p => p.find g.triggerBuffer with
      | none => some (.ok g)
      | some start => do
        match ← GrammarPiece.acceptAll rules fuel (g.replayed start) g.toGrammarState with
        | .error st => some (withState { g with awaitingTrigger := false } (.error st))
        | .ok st => some (withState { g with
            awaitingTrigger := false, triggerBuffer := [], triggerBufferPositions := [] } (.ok st))
  else if vocab.isEog token then
    if [] ∈ g.stackList then some (.ok g) else none
  else do
    let st ← g.toGrammarState.acceptToken rules fuel token (vocab.tokenToPiece token)
    some (withState g st)

end LazyGrammar
end RocmFpx

/-!
How a text is cut into pieces does not matter. The stacks after a piece are those that its
characters lead to, one after the other; a token that completes no character only drops the empty
stack, which the next character would have dropped.
-/

namespace RocmFpx
namespace GrammarRules

open GrammarElement Worklist PartialUtf8

/-- A string leads from one settled stack to another. -/
inductive Runs (rules : GrammarRules) : List ℕ → GrammarStack → GrammarStack → Prop
  | nil {s} : Runs rules [] s s
  | cons {chr chrs s s' t u} (hc : Consumes rules chr s s') (hr : Reaches (visit rules) s' t)
      (hs : Settled rules t) (h : Runs rules chrs t u) : Runs rules (chr :: chrs) s u

/-- Every advance on the way of a string from a stack reaches finitely many stacks. -/
def Safe (rules : GrammarRules) : List ℕ → GrammarStack → Prop
  | [], _ => True
  | chr :: chrs, s => ∀ s', Consumes rules chr s s' →
      Bounded rules s' ∧ ∀ t, Reaches (visit rules) s' t → Settled rules t → Safe rules chrs t

/-- A stack that a parse may hold. -/
def Fit (rules : GrammarRules) (s : GrammarStack) : Prop := Proper rules s ∧ Settled rules s

variable {rules : GrammarRules} {s t u : GrammarStack} {chr : ℕ} {chrs : List ℕ}

theorem runs_append {as bs : List ℕ} :
    Runs rules (as ++ bs) s u ↔ ∃ t, Runs rules as s t ∧ Runs rules bs t u := by
  induction as generalizing s with
  | nil =>
    constructor
    · intro h
      exact ⟨s, .nil, h⟩
    · rintro ⟨t, ht, h⟩
      cases ht with
      | nil => exact h
  | cons a as ih =>
    constructor
    · intro h
      cases h with
      | cons hc hr hs h =>
        obtain ⟨t, ht, hu⟩ := ih.mp h
        exact ⟨t, .cons hc hr hs ht, hu⟩
    · rintro ⟨t, ht, hu⟩
      cases ht with
      | cons hc hr hs ht => exact .cons hc hr hs (ih.mpr ⟨t, ht, hu⟩)

theorem safe_append {as bs : List ℕ} :
    Safe rules (as ++ bs) s ↔ Safe rules as s ∧ ∀ t, Runs rules as s t → Safe rules bs t := by
  induction as generalizing s with
  | nil =>
    constructor
    · intro h
      refine ⟨trivial, fun t ht => ?_⟩
      cases ht with
      | nil => exact h
    · exact fun h => h.2 s .nil
  | cons a as ih =>
    constructor
    · intro h
      refine ⟨fun s' hc => ⟨(h s' hc).1, fun t hr hs => (ih.mp ((h s' hc).2 t hr hs)).1⟩, ?_⟩
      rintro u hu
      cases hu with
      | cons hc hr hs hu => exact (ih.mp ((h _ hc).2 _ hr hs)).2 u hu
    · rintro ⟨h, hrest⟩ s' hc
      refine ⟨(h s' hc).1, fun t hr hs => ih.mpr ⟨(h s' hc).2 t hr hs, fun u hu => ?_⟩⟩
      exact hrest u (.cons hc hr hs hu)

theorem not_consumes_nil : ¬ Consumes rules chr [] t := by
  rintro ⟨pos, base, h, -⟩
  nomatch h

theorem not_runs_nil (h : chrs ≠ []) : ¬ Runs rules chrs [] t := by
  intro hr
  cases hr with
  | nil => exact h rfl
  | cons hc => exact not_consumes_nil hc

theorem safe_nil : Safe rules chrs [] := by
  cases chrs with
  | nil => trivial
  | cons => exact fun s' hc => absurd hc not_consumes_nil

theorem Consumes.proper (h : Consumes rules chr s t) (hp : Proper rules s) : Proper rules t := by
  obtain ⟨pos, base, rfl, -, -, rfl⟩ := h
  exact Proper.push (fun p hm => hp p (List.mem_cons_of_mem _ hm)) (pastClass_not_modifier _)

theorem Runs.fit (hw : Wellformed rules) (h : Runs rules chrs s t) (hs : Fit rules s) :
    Fit rules t := by
  induction h with
  | nil => exact hs
  | cons hc hr hset _ ih => exact ih ⟨(hc.proper hs.1).reaches hw hr, hset⟩

/-! ## One character -/

theorem acceptChr_returns (hw : Wellformed rules) (hs : Fit rules s)
    (h : ∀ s', Consumes rules chr s s' → Bounded rules s') (newStacks : List GrammarStack) :
    ∃ fuel out, acceptChr rules fuel s chr newStacks = some out := by
  cases s with
  | nil => exact ⟨0, newStacks, rfl⟩
  | cons pos base =>
    rcases settled_cons_iff.1 hs.2 with hchar | htoken
    · by_cases hin : chr ∈ matchSet rules pos
      · have hc : Consumes rules chr (pos :: base) (push rules (pastClass rules pos) base) :=
          ⟨pos, base, rfl, hchar, hin, rfl⟩
        obtain ⟨fuel, out, hadv⟩ := advanceStack_returns hw (hc.proper hs.1) (h _ hc) newStacks
        refine ⟨fuel, out, ?_⟩
        rcases acceptChr_char hw hchar fuel chr base newStacks with ⟨-, hrun⟩ | ⟨hnot, -⟩
        · exact hrun.trans hadv
        · exact absurd hin hnot
      · refine ⟨0, newStacks, ?_⟩
        rcases acceptChr_char hw hchar 0 chr base newStacks with ⟨hyes, -⟩ | ⟨-, hrun⟩
        · exact absurd hyes hin
        · exact hrun
    · exact ⟨0, newStacks, acceptChr_token htoken⟩

theorem acceptChr_bounded (hw : Wellformed rules) {fuel : ℕ} {newStacks out : List GrammarStack}
    (h : acceptChr rules fuel s chr newStacks = some out) (hc : Consumes rules chr s t) :
    Bounded rules t := by
  obtain ⟨pos, base, rfl, hchar, hchr, rfl⟩ := hc
  rcases acceptChr_char hw hchar fuel chr base newStacks with ⟨-, hrun⟩ | ⟨hnot, -⟩
  · exact advanceStack_bounded (hrun.symm.trans h)
  · exact absurd hchr hnot

theorem accept_returns (hw : Wellformed rules) {stackList : List GrammarStack}
    (hfit : ∀ s ∈ stackList, Fit rules s)
    (h : ∀ s ∈ stackList, ∀ s', Consumes rules chr s s' → Bounded rules s') :
    ∃ fuel out, accept rules fuel stackList chr = some out :=
  foldlM_returns (acceptChr_mono hw chr) stackList
    (fun s hs acc => acceptChr_returns hw (hfit s hs) (h s hs) acc) []

theorem accept_bounded (hw : Wellformed rules) {fuel : ℕ} {stackList out : List GrammarStack}
    (h : accept rules fuel stackList chr = some out) (hs : s ∈ stackList)
    (hc : Consumes rules chr s t) : Bounded rules t := by
  obtain ⟨_, _, hrun⟩ := foldlM_step h hs
  exact acceptChr_bounded hw hrun hc

theorem accept_fit (hw : Wellformed rules) {fuel : ℕ} {stackList out : List GrammarStack}
    (h : accept rules fuel stackList chr = some out) (hfit : ∀ s ∈ stackList, Fit rules s) :
    ∀ t ∈ out, Fit rules t := by
  intro t ht
  obtain ⟨s, hs, s', hc, hr, hset⟩ := (accept_mem hw h t).mp ht
  exact ⟨(hc.proper (hfit s hs).1).reaches hw hr, hset⟩

/-! ## The characters of a piece -/

/-- What a loop over the characters of a piece does with a list of stacks. -/
structure PieceLoop (rules : GrammarRules)
    (loop : ℕ → List GrammarStack → Option (List GrammarStack)) (chrs : List ℕ) : Prop where
  mono : ∀ fuel more cur out, fuel ≤ more → loop fuel cur = some out → loop more cur = some out
  mem : ∀ fuel cur out, loop fuel cur = some out →
    ∀ t, t ∈ out ↔ ∃ s ∈ cur, Runs rules chrs s t
  safe : ∀ fuel cur out, loop fuel cur = some out → ∀ s ∈ cur, Safe rules chrs s
  returns : ∀ cur, (∀ s ∈ cur, Fit rules s) → (∀ s ∈ cur, Safe rules chrs s) →
    ∃ fuel out, loop fuel cur = some out

theorem pieceLoop_nil {loop : ℕ → List GrammarStack → Option (List GrammarStack)}
    (h : ∀ fuel cur, loop fuel cur = some cur) : PieceLoop rules loop [] where
  mono fuel more cur out _ hrun := by rwa [h] at hrun ⊢
  mem fuel cur out hrun t := by
    obtain rfl : cur = out := Option.some.inj ((h fuel cur).symm.trans hrun)
    refine ⟨fun ht => ⟨t, ht, .nil⟩, ?_⟩
    rintro ⟨s, hs, hr⟩
    cases hr with
    | nil => exact hs
  safe _ _ _ _ _ _ := trivial
  returns cur _ _ := ⟨0, cur, h 0 cur⟩

theorem pieceLoop_cons (hw : Wellformed rules)
    {loop rest : ℕ → List GrammarStack → Option (List GrammarStack)}
    (hrest : PieceLoop rules rest chrs)
    (h : ∀ fuel cur out, loop fuel cur = some out ↔
      ∃ mid, accept rules fuel cur chr = some mid ∧
        ((mid = [] ∧ out = []) ∨ rest fuel mid = some out)) :
    PieceLoop rules loop (chr :: chrs) where
  mono fuel more cur out hle hrun := by
    obtain ⟨mid, hmid, hor⟩ := (h fuel cur out).mp hrun
    refine (h more cur out).mpr ⟨mid, accept_mono hw _ _ _ _ _ hle hmid, ?_⟩
    exact hor.imp id (hrest.mono fuel more mid out hle)
  mem fuel cur out hrun t := by
    obtain ⟨mid, hmid, hor⟩ := (h fuel cur out).mp hrun
    have hout : t ∈ out ↔ ∃ m ∈ mid, Runs rules chrs m t := by
      rcases hor with ⟨rfl, rfl⟩ | hor
      · simp
      · exact hrest.mem fuel mid out hor t
    rw [hout]
    constructor
    · rintro ⟨m, hm, hr⟩
      obtain ⟨s, hs, s', hc, hreach, hset⟩ := (accept_mem hw hmid m).mp hm
      exact ⟨s, hs, .cons hc hreach hset hr⟩
    · rintro ⟨s, hs, hr⟩
      cases hr with
      | cons hc hreach hset hr =>
        exact ⟨_, (accept_mem hw hmid _).mpr ⟨s, hs, _, hc, hreach, hset⟩, hr⟩
  safe fuel cur out hrun s hs s' hc := by
    obtain ⟨mid, hmid, hor⟩ := (h fuel cur out).mp hrun
    refine ⟨accept_bounded hw hmid hs hc, fun t hr hset => ?_⟩
    have ht := (accept_mem hw hmid t).mpr ⟨s, hs, s', hc, hr, hset⟩
    rcases hor with ⟨rfl, -⟩ | hor
    · exact absurd ht List.not_mem_nil
    · exact hrest.safe fuel mid out hor t ht
  returns cur hfit hsafe := by
    obtain ⟨n, mid, hmid⟩ := accept_returns hw hfit fun s hs s' hc => (hsafe s hs s' hc).1
    obtain ⟨m, out, hout⟩ := hrest.returns mid (accept_fit hw hmid hfit) fun t ht => by
      obtain ⟨s, hs, s', hc, hr, hset⟩ := (accept_mem hw hmid t).mp ht
      exact (hsafe s hs s' hc).2 t hr hset
    refine ⟨max n m, out, (h _ _ _).mpr ⟨mid, ?_, Or.inr ?_⟩⟩
    · exact accept_mono hw _ _ _ _ _ (le_max_left n m) hmid
    · exact hrest.mono m _ mid out (le_max_right n m) hout

theorem acceptFold_nil (fuel : ℕ) (chrs : List ℕ) :
    chrs.foldlM (accept rules fuel) [] = some [] := by
  induction chrs with
  | nil => rfl
  | cons chr chrs ih => rwa [List.foldlM_cons]

theorem acceptFold_loop (hw : Wellformed rules) (chrs : List ℕ) :
    PieceLoop rules (fun fuel cur => chrs.foldlM (accept rules fuel) cur) chrs := by
  induction chrs with
  | nil => exact pieceLoop_nil fun _ _ => rfl
  | cons chr chrs ih =>
    refine pieceLoop_cons hw ih fun fuel cur out => ?_
    rw [List.foldlM_cons, Option.bind_eq_bind, Option.bind_eq_some_iff]
    refine exists_congr fun mid => and_congr_right fun _ => ⟨Or.inr, ?_⟩
    rintro (⟨rfl, rfl⟩ | h)
    · exact acceptFold_nil fuel chrs
    · exact h

theorem currentStacks_nil (fuel : ℕ) (chrs : List ℕ) :
    GrammarState.currentStacks rules fuel chrs [] = some [] := by
  cases chrs with
  | nil => rfl
  | cons chr chrs => rfl

theorem currentStacks_loop (hw : Wellformed rules) (chrs : List ℕ) :
    PieceLoop rules (fun fuel cur => GrammarState.currentStacks rules fuel chrs cur) chrs := by
  induction chrs with
  | nil => exact pieceLoop_nil fun _ _ => rfl
  | cons chr chrs ih =>
    refine pieceLoop_cons hw ih fun fuel cur out => ?_
    rw [GrammarState.currentStacks, Option.bind_eq_bind, Option.bind_eq_some_iff]
    refine exists_congr fun mid => and_congr_right fun _ => ?_
    by_cases hmid : mid = []
    · rw [if_pos hmid, hmid, currentStacks_nil]
      simp [eq_comm]
    · simp [hmid]

/-! ## A token and one stack -/

/-- What a token with these characters makes of a stack. -/
def TokenRuns (rules : GrammarRules) (token : ℕ) (chrs : List ℕ) (s t : GrammarStack) : Prop :=
  ∃ pos base, s = pos :: base ∧
    (((elem rules pos).isToken = true ∧ matchToken rules pos token = true ∧
        Reaches (visit rules) (push rules (pos.add 1) base) t ∧ Settled rules t) ∨
      ((elem rules pos).isToken = false ∧ Runs rules chrs s t))

/-- The advances a token makes from a stack reach finitely many stacks. -/
def TokenSafe (rules : GrammarRules) (token : ℕ) (chrs : List ℕ) (s : GrammarStack) : Prop :=
  ∀ pos base, s = pos :: base →
    ((elem rules pos).isToken = true → matchToken rules pos token = true →
        Bounded rules (push rules (pos.add 1) base)) ∧
      ((elem rules pos).isToken = false → Safe rules chrs s)

theorem mem_keptAll {current acc : List GrammarStack} :
    t ∈ current.foldl (fun acc s => kept s acc) acc ↔ t ∈ acc ∨ t ∈ current := by
  induction current generalizing acc with
  | nil => simp
  | cons s current ih => rw [List.foldl_cons, ih, mem_kept, List.mem_cons, or_assoc]

theorem tokenStep_char {fuel token : ℕ} {pos : ElementPtr} {base : GrammarStack}
    {newStacks : List GrammarStack} (h : (elem rules pos).isToken = false) :
    GrammarState.tokenStep rules fuel token chrs newStacks (pos :: base) =
      (GrammarState.currentStacks rules fuel chrs [pos :: base]).bind fun current =>
        some (current.foldl (fun acc s => kept s acc) newStacks) := by
  rw [GrammarState.tokenStep, if_neg (by rw [h]; decide)]
  rfl

theorem tokenStep_token {fuel token : ℕ} {pos : ElementPtr} {base : GrammarStack}
    {newStacks : List GrammarStack} (h : (elem rules pos).isToken = true) :
    GrammarState.tokenStep rules fuel token chrs newStacks (pos :: base) =
      if matchToken rules pos token then
        advanceStack rules fuel (push rules (pos.add 1) base) newStacks
      else some newStacks := by
  rw [GrammarState.tokenStep, if_pos h]

theorem not_tokenRuns_nil {token : ℕ} : ¬ TokenRuns rules token chrs [] t := by
  rintro ⟨pos, base, h, -⟩
  nomatch h

theorem tokenRuns_cons {token : ℕ} {pos : ElementPtr} {base : GrammarStack} :
    TokenRuns rules token chrs (pos :: base) t ↔
      ((elem rules pos).isToken = true ∧ matchToken rules pos token = true ∧
        Reaches (visit rules) (push rules (pos.add 1) base) t ∧ Settled rules t) ∨
      ((elem rules pos).isToken = false ∧ Runs rules chrs (pos :: base) t) := by
  constructor
  · rintro ⟨pos', base', h, hor⟩
    obtain ⟨rfl, rfl⟩ := List.cons.inj h
    exact hor
  · exact fun h => ⟨pos, base, rfl, h⟩

theorem tokenStep_mem (hw : Wellformed rules) {fuel token : ℕ} {acc out : List GrammarStack}
    (h : GrammarState.tokenStep rules fuel token chrs acc s = some out) (t : GrammarStack) :
    t ∈ out ↔ t ∈ acc ∨ TokenRuns rules token chrs s t := by
  cases s with
  | nil =>
    obtain rfl : acc = out := Option.some.inj h
    exact ⟨Or.inl, fun ht => ht.resolve_right not_tokenRuns_nil⟩
  | cons pos base =>
    rw [tokenRuns_cons]
    cases htoken : (elem rules pos).isToken with
    | true =>
      rw [tokenStep_token htoken] at h
      cases hmatch : matchToken rules pos token with
      | true =>
        rw [hmatch, if_pos rfl] at h
        rw [advanceStack_mem h t]
        simp
      | false =>
        rw [hmatch] at h
        obtain rfl : acc = out := by simpa using h
        simp
    | false =>
      rw [tokenStep_char htoken] at h
      obtain ⟨current, hcur, hout⟩ := Option.bind_eq_some_iff.mp h
      obtain rfl := Option.some.inj hout
      rw [mem_keptAll, (currentStacks_loop hw chrs).mem fuel _ current hcur t]
      simp

theorem tokenSteps_mem (hw : Wellformed rules) {fuel token : ℕ}
    {stackList out : List GrammarStack}
    (h : stackList.foldlM (GrammarState.tokenStep rules fuel token chrs) [] = some out)
    (t : GrammarStack) : t ∈ out ↔ ∃ s ∈ stackList, TokenRuns rules token chrs s t := by
  rw [mem_foldlM (f := GrammarState.tokenStep rules fuel token chrs)
    (fun _ _ _ hx y => tokenStep_mem hw hx y) h t]
  exact ⟨fun ht => ht.resolve_left List.not_mem_nil, Or.inr⟩

theorem tokenStep_safe (hw : Wellformed rules) {fuel token : ℕ} {acc out : List GrammarStack}
    (h : GrammarState.tokenStep rules fuel token chrs acc s = some out) :
    TokenSafe rules token chrs s := by
  rintro pos base rfl
  refine ⟨fun htoken hmatch => ?_, fun htoken => ?_⟩
  · rw [tokenStep_token htoken, hmatch, if_pos rfl] at h
    exact advanceStack_bounded h
  · rw [tokenStep_char htoken] at h
    obtain ⟨current, hcur, -⟩ := Option.bind_eq_some_iff.mp h
    exact (currentStacks_loop hw chrs).safe fuel _ current hcur _ (List.mem_singleton_self _)

theorem tokenStep_mono (hw : Wellformed rules) (token : ℕ) (chrs : List ℕ) :
    Mono fun fuel acc s => GrammarState.tokenStep rules fuel token chrs acc s := by
  intro fuel more acc s out hle h
  have h : GrammarState.tokenStep rules fuel token chrs acc s = some out := h
  show GrammarState.tokenStep rules more token chrs acc s = some out
  cases s with
  | nil => exact h
  | cons pos base =>
    cases htoken : (elem rules pos).isToken with
    | true =>
      rw [tokenStep_token htoken] at h ⊢
      split_ifs at h ⊢
      · exact advanceStack_mono rules _ _ _ _ _ hle h
      · exact h
    | false =>
      rw [tokenStep_char htoken] at h ⊢
      obtain ⟨current, hcur, hout⟩ := Option.bind_eq_some_iff.mp h
      exact Option.bind_eq_some_iff.mpr
        ⟨current, (currentStacks_loop hw chrs).mono fuel more _ current hle hcur, hout⟩

theorem tokenMove_proper (hw : Wellformed rules) {pos : ElementPtr} {base : GrammarStack}
    (htoken : (elem rules pos).isToken = true) (hp : Proper rules (pos :: base)) :
    Proper rules (push rules (pos.add 1) base) := by
  refine Proper.push (fun p hm => hp p (List.mem_cons_of_mem _ hm))
    (next_not_modifier hw fun next hnext => ?_)
  exact mayFollow_eq_false hnext (isToken_ne_isChar htoken) (hp pos List.mem_cons_self).2

theorem tokenStep_returns (hw : Wellformed rules) {token : ℕ} (hs : Fit rules s)
    (h : TokenSafe rules token chrs s) (acc : List GrammarStack) :
    ∃ fuel out, GrammarState.tokenStep rules fuel token chrs acc s = some out := by
  cases s with
  | nil => exact ⟨0, acc, rfl⟩
  | cons pos base =>
    obtain ⟨hmove, hsafe⟩ := h pos base rfl
    cases htoken : (elem rules pos).isToken with
    | true =>
      simp only [tokenStep_token htoken]
      cases hmatch : matchToken rules pos token with
      | true =>
        exact advanceStack_returns hw (tokenMove_proper hw htoken hs.1) (hmove htoken hmatch) acc
      | false => exact ⟨0, acc, rfl⟩
    | false =>
      have hone : ∀ x ∈ [pos :: base], Fit rules x ∧ Safe rules chrs x := by
        intro x hx
        obtain rfl := List.mem_singleton.mp hx
        exact ⟨hs, hsafe htoken⟩
      obtain ⟨fuel, current, hcur⟩ := (currentStacks_loop hw chrs).returns [pos :: base]
        (fun x hx => (hone x hx).1) fun x hx => (hone x hx).2
      simp only [tokenStep_char htoken]
      exact ⟨fuel, _, Option.bind_eq_some_iff.mpr ⟨current, hcur, rfl⟩⟩

end GrammarRules
end RocmFpx
