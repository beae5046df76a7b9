import RocmFpx.GrammarTokenization

/-!
The filter that takes the tokens a grammar forbids out of the candidates. It peels the characters
of all candidates off together, stack by stack, while accepting runs one token through each stack;
a token element met in the middle of a piece is where the two part.
-/

namespace RocmFpx

open GrammarElement Worklist PartialUtf8

/-- `llama_grammar_candidate`; `at_` is where in the decoded piece `code_points` points. -/
structure GrammarCandidate where
  index : ℕ
  codePoints : List ℕ
  at_ : ℕ
  partialUtf8 : PartialUtf8
  id : ℕ
  deriving DecidableEq

namespace GrammarCandidate

/-- `*code_points`. -/
def head (tok : GrammarCandidate) : ℕ := tok.codePoints.getD tok.at_ 0

/-- `code_points + 1` and `code_points - 1`. -/
def next (tok : GrammarCandidate) : GrammarCandidate := { tok with at_ := tok.at_ + 1 }

def prev (tok : GrammarCandidate) : GrammarCandidate := { tok with at_ := tok.at_ - 1 }

@[simp] theorem partialUtf8_next (tok : GrammarCandidate) :
    tok.next.partialUtf8 = tok.partialUtf8 := rfl

@[simp] theorem id_next (tok : GrammarCandidate) : tok.next.id = tok.id := rfl

@[simp] theorem prev_next (tok : GrammarCandidate) : tok.next.prev = tok := rfl

/-- What is left of the decoded piece. -/
def rest (tok : GrammarCandidate) : List ℕ := tok.codePoints.drop tok.at_

@[simp] theorem rest_next (tok : GrammarCandidate) : tok.next.rest = tok.rest.tail := by
  rw [rest, rest, List.tail_drop]
  rfl

theorem head_eq (tok : GrammarCandidate) : tok.head = tok.rest.headD 0 := by
  rw [head, rest, List.headD_eq_head?_getD, List.head?_drop, List.getD_eq_getElem?_getD]

end GrammarCandidate

namespace GrammarRules

variable (rules : GrammarRules)

/-! ## Matching a partial character -/

/-- The code points that a partial character can be completed to, from the lowest to the highest. -/
def partialRange (st : PartialUtf8) : ℕ × ℕ :=
  let low := st.value * 2 ^ (st.nRemain.toNat * 6) % 2 ^ 32
  let high := low ||| (2 ^ (st.nRemain.toNat * 6) - 1)
  if low = 0 then
    (if st.nRemain = 2 then 2 ^ 11 else if st.nRemain = 3 then 2 ^ 16 else low, high)
  else (low, high)

/-- The loop of `llama_grammar_match_partial_char`; `fuel` bounds its iterations. -/
def partialLoop (low high : ℕ) (isPositiveChar : Bool) : ℕ → ElementPtr → Bool
  | 0, _ => !isPositiveChar
  | fuel + 1, pos =>
    let e := elem rules pos
    let next := elem rules (pos.add 1)
    if next.type ≠ .charRngUpper ∧ e.type = .charAny then true
    else if e.value ≤ high ∧ low ≤ (if next.type = .charRngUpper then next.value else e.value) then
      isPositiveChar
    else if (elem rules (pos.add (rangeSize next))).type = .charAlt then
      partialLoop low high isPositiveChar fuel (pos.add (rangeSize next))
    else !isPositiveChar

/-- `llama_grammar_match_partial_char`, at a character element. -/
def matchPartialChar (pos : ElementPtr) (st : PartialUtf8) : Bool :=
  if st.nRemain < 0 ∨ (st.nRemain = 1 ∧ st.value < 2) then false
  else
    partialLoop rules (partialRange st).1 (partialRange st).2
      ((elem rules pos).type ≠ .charNot) (behind rules pos).length pos

/-! ## Rejecting candidates -/

/-- The first component of `llama_grammar_match_char`. -/
def charMatches (pos : ElementPtr) (chr : ℕ) : Bool := (matchChar rules pos chr).any (·.1)

/-- `llama_grammar_reject_candidates`, with the function for one stack; without stacks it aborts. -/
def rejectWith (forStack : GrammarStack → List GrammarCandidate → Option (List GrammarCandidate))
    (stackList : List GrammarStack) (candidates : List GrammarCandidate) :
    Option (List GrammarCandidate) :=
  if stackList = [] then none
  else if candidates = [] then some []
  else stackList.foldlM (fun rejects stack => forStack stack rejects) candidates

/-- Whether the empty stack rejects a candidate. -/
def emptyRejects (tok : GrammarCandidate) : Bool := tok.head ≠ 0 || tok.partialUtf8.nRemain ≠ 0

/-- Whether a stack with a token element on top rejects a candidate. -/
def tokenRejects (pos : ElementPtr) (tok : GrammarCandidate) : Bool :=
  if tok.head = 0 then tok.partialUtf8.nRemain ≠ 0 else !matchToken rules pos tok.id

/-- Whether a stack with a character element on top rejects a candidate. -/
def charRejects (pos : ElementPtr) (tok : GrammarCandidate) : Bool :=
  if tok.head = 0 then
    tok.partialUtf8.nRemain ≠ 0 && !matchPartialChar rules pos tok.partialUtf8
  else !charMatches rules pos tok.head

/-- Whether a candidate goes on behind a character element. -/
def goesOn (pos : ElementPtr) (tok : GrammarCandidate) : Bool :=
  tok.head ≠ 0 && charMatches rules pos tok.head

/-- `llama_grammar_reject_candidates_for_stack`. -/
def rejectCandidatesForStack :
    ℕ → GrammarStack → List GrammarCandidate → Option (List GrammarCandidate)
  | 0, _, _ => none
  | _ + 1, [], candidates => some (candidates.filter emptyRejects)
  | fuel + 1, pos :: base, candidates =>
    if (elem rules pos).isToken then some (candidates.filter (tokenRejects rules pos))
    else do
      let m ← matchChar rules pos 0
      let nextStacks ← advanceStack rules fuel (push rules m.2 base) []
      let nextRejects ← rejectWith (rejectCandidatesForStack fuel) nextStacks
        ((candidates.filter (goesOn rules pos)).map GrammarCandidate.next)
      some (candidates.filter (charRejects rules pos) ++ nextRejects.map GrammarCandidate.prev)

/-- `llama_grammar_reject_candidates`. -/
def rejectCandidates (fuel : ℕ) : List GrammarStack → List GrammarCandidate →
    Option (List GrammarCandidate) := rejectWith (rejectCandidatesForStack rules fuel)

/-! ## What the filter keeps -/

/-- A stack keeps a candidate whose whole characters have been matched. -/
def KeepsEnd (st : PartialUtf8) (s : GrammarStack) : Prop :=
  st.nRemain = 0 ∨ ∃ pos base, s = pos :: base ∧ (elem rules pos).isToken = false ∧
    matchPartialChar rules pos st = true

/-- A stack keeps a candidate with these code points left. -/
def Keeps (st : PartialUtf8) (id : ℕ) : List ℕ → GrammarStack → Prop
  | [], s => KeepsEnd rules st s
  | chr :: chrs, s =>
    if chr = 0 then KeepsEnd rules st s
    else
      (∃ pos base, s = pos :: base ∧ matchToken rules pos id = true) ∨
        ∃ s' t, Consumes rules chr s s' ∧ Reaches (visit rules) s' t ∧ Settled rules t ∧
          Keeps st id chrs t

variable {rules} {st : PartialUtf8} {id : ℕ} {chrs : List ℕ} {s t : GrammarStack}
  {pos : ElementPtr} {base : GrammarStack}

theorem keepsEnd_nil : KeepsEnd rules st [] ↔ st.nRemain = 0 := by
  refine ⟨fun h => h.resolve_right ?_, Or.inl⟩
  rintro ⟨pos, base, hs, -⟩
  nomatch hs

theorem keepsEnd_cons : KeepsEnd rules st (pos :: base) ↔
    st.nRemain = 0 ∨ (elem rules pos).isToken = false ∧ matchPartialChar rules pos st = true := by
  refine or_congr_right ⟨?_, fun h => ⟨pos, base, rfl, h⟩⟩
  rintro ⟨pos', base', hs, h⟩
  obtain ⟨rfl, rfl⟩ := List.cons.inj hs
  exact h

theorem keeps_of_head (h : chrs.headD 0 = 0) : Keeps rules st id chrs s ↔ KeepsEnd rules st s := by
  cases chrs with
  | nil => exact Iff.rfl
  | cons chr chrs =>
    have h : chr = 0 := h
    rw [Keeps, if_pos h]

theorem keeps_nil : Keeps rules st id chrs [] ↔ chrs.headD 0 = 0 ∧ st.nRemain = 0 := by
  by_cases h : chrs.headD 0 = 0
  · rw [keeps_of_head h, keepsEnd_nil]
    exact ⟨fun hn => ⟨h, hn⟩, fun hn => hn.2⟩
  · cases chrs with
    | nil => exact absurd rfl h
    | cons chr chrs =>
      have h : ¬ chr = 0 := h
      rw [Keeps, if_neg h]
      refine ⟨?_, fun hn => absurd hn.1 h⟩
      rintro (⟨pos, base, hs, -⟩ | ⟨s', t, hc, -⟩)
      · nomatch hs
      · exact absurd hc not_consumes_nil

theorem keeps_token (htoken : (elem rules pos).isToken = true) :
    Keeps rules st id chrs (pos :: base) ↔
      if chrs.headD 0 = 0 then st.nRemain = 0 else matchToken rules pos id = true := by
  split_ifs with h
  · rw [keeps_of_head h, keepsEnd_cons, htoken]
    simp
  · cases chrs with
    | nil => exact absurd rfl h
    | cons chr chrs =>
      have h : ¬ chr = 0 := h
      rw [Keeps, if_neg h]
      constructor
      · rintro (⟨pos', base', hs, hmatch⟩ | ⟨s', t, ⟨pos', base', hs, hchar, -⟩, -⟩)
        · obtain ⟨rfl, rfl⟩ := List.cons.inj hs
          exact hmatch
        · obtain ⟨rfl, rfl⟩ := List.cons.inj hs
          rw [isToken_ne_isChar htoken] at hchar
          nomatch hchar
      · exact fun hmatch => Or.inl ⟨pos, base, rfl, hmatch⟩

theorem not_isToken (hchar : (elem rules pos).isChar = true) : (elem rules pos).isToken = false :=
  Bool.eq_false_iff.mpr fun h => by
    rw [isToken_ne_isChar h] at hchar
    nomatch hchar

theorem keeps_char (hchar : (elem rules pos).isChar = true) :
    Keeps rules st id chrs (pos :: base) ↔
      if chrs.headD 0 = 0 then st.nRemain = 0 ∨ matchPartialChar rules pos st = true
      else chrs.headD 0 ∈ matchSet rules pos ∧
        ∃ t, Reaches (visit rules) (push rules (pastClass rules pos) base) t ∧ Settled rules t ∧
          Keeps rules st id chrs.tail t := by
  have htoken := not_isToken hchar
  split_ifs with h
  · rw [keeps_of_head h, keepsEnd_cons, htoken]
    simp
  · cases chrs with
    | nil => exact absurd rfl h
    | cons chr chrs =>
      have h : ¬ chr = 0 := h
      rw [Keeps, if_neg h, List.headD_cons, List.tail_cons]
      constructor
      · rintro (⟨pos', base', hs, hmatch⟩ | ⟨s', t, ⟨pos', base', hs, -, hin, rfl⟩, ht⟩)
        · obtain ⟨rfl, rfl⟩ := List.cons.inj hs
          rw [matchToken_isToken hmatch] at htoken
          nomatch htoken
        · obtain ⟨rfl, rfl⟩ := List.cons.inj hs
          exact ⟨hin, t, ht⟩
      · rintro ⟨hin, t, ht⟩
        exact Or.inr ⟨_, t, ⟨pos, base, rfl, hchar, hin, rfl⟩, ht⟩

theorem charMatches_iff (hw : Wellformed rules) (hchar : (elem rules pos).isChar = true)
    (chr : ℕ) : charMatches rules pos chr = true ↔ chr ∈ matchSet rules pos := by
  obtain ⟨m, hm, hfound, -⟩ := matchChar_spec hw hchar chr
  rw [charMatches, hm, ← hfound]
  rfl

/-! ## The spec of the filter -/

variable {candidates rejects : List GrammarCandidate} {stackList : List GrammarStack}

theorem rejectWith_mem {forStack : GrammarStack → List GrammarCandidate →
      Option (List GrammarCandidate)} {Q : GrammarStack → GrammarCandidate → Prop}
    (hfor : ∀ s ∈ stackList, ∀ cands out, forStack s cands = some out →
      ∀ tok, tok ∈ out ↔ tok ∈ cands ∧ ¬ Q s tok)
    (h : rejectWith forStack stackList candidates = some rejects) (tok : GrammarCandidate) :
    tok ∈ rejects ↔ tok ∈ candidates ∧ ∀ s ∈ stackList, ¬ Q s tok := by
  rw [rejectWith] at h
  split_ifs at h with hnone hempty
  · obtain rfl := Option.some.inj h
    rw [hempty]
    simp
  · clear hnone hempty
    induction stackList generalizing candidates with
    | nil =>
      obtain rfl : candidates = rejects := Option.some.inj h
      simp
    | cons s stackList ih =>
      rw [List.foldlM_cons] at h
      obtain ⟨mid, hmid, h⟩ := Option.bind_eq_some_iff.mp h
      rw [ih (fun t ht => hfor t (List.mem_cons_of_mem _ ht)) h,
        hfor s List.mem_cons_self _ _ hmid tok, List.forall_mem_cons, and_assoc]

theorem mem_prevAll {nextRejects : List GrammarCandidate} {P : GrammarCandidate → Prop}
    (h : ∀ tok, tok ∈ nextRejects ↔
      tok ∈ (candidates.filter (goesOn rules pos)).map GrammarCandidate.next ∧ P tok)
    (tok : GrammarCandidate) : tok ∈ nextRejects.map GrammarCandidate.prev ↔
      tok ∈ candidates ∧ goesOn rules pos tok = true ∧ P tok.next := by
  rw [List.mem_map]
  constructor
  · rintro ⟨d, hd, rfl⟩
    obtain ⟨hmem, hP⟩ := (h d).mp hd
    obtain ⟨c, hc, rfl⟩ := List.mem_map.mp hmem
    obtain ⟨hcand, hon⟩ := List.mem_filter.mp hc
    rw [GrammarCandidate.prev_next]
    exact ⟨hcand, hon, hP⟩
  · rintro ⟨hcand, hon, hP⟩
    exact ⟨tok.next, (h _).mpr ⟨List.mem_map_of_mem (List.mem_filter.mpr ⟨hcand, hon⟩), hP⟩, rfl⟩

theorem rejectCandidatesForStack_mem (hw : Wellformed rules) {fuel : ℕ} (hs : Fit rules s)
    (h : rejectCandidatesForStack rules fuel s candidates = some rejects)
    (tok : GrammarCandidate) : tok ∈ rejects ↔
      tok ∈ candidates ∧ ¬ Keeps rules tok.partialUtf8 tok.id tok.rest s := by
  induction fuel generalizing s candidates rejects tok with
  | zero => nomatch h
  | succ fuel ih =>
    cases s with
    | nil =>
      obtain rfl : candidates.filter emptyRejects = rejects := Option.some.inj h
      rw [List.mem_filter, keeps_nil, emptyRejects, tok.head_eq]
      simp [imp_iff_not_or]
    | cons pos base =>
      rw [rejectCandidatesForStack] at h
      rcases settled_cons_iff.1 hs.2 with hchar | htoken
      · rw [if_neg (by rw [not_isToken hchar]; decide)] at h
        obtain ⟨m, hm, h⟩ := Option.bind_eq_some_iff.mp h
        obtain ⟨nextStacks, hadv, h⟩ := Option.bind_eq_some_iff.mp h
        obtain ⟨nextRejects, hnext, h⟩ := Option.bind_eq_some_iff.mp h
        obtain rfl := Option.some.inj h
        obtain ⟨m', hm', -, hpast⟩ := matchChar_spec hw hchar 0
        obtain rfl := Option.some.inj (hm'.symm.trans hm)
        rw [hpast] at hadv
        have hproper : Proper rules (push rules (pastClass rules pos) base) :=
          Proper.push (fun p hp => hs.1 p (List.mem_cons_of_mem _ hp)) (pastClass_not_modifier _)
        have hstacks (t : GrammarStack) : t ∈ nextStacks ↔
            Reaches (visit rules) (push rules (pastClass rules pos) base) t ∧ Settled rules t := by
          rw [advanceStack_mem hadv t]
          simp
        have hrec := rejectWith_mem (fun t ht cands out hrun c => ih (s := t)
          ⟨hproper.reaches hw ((hstacks t).mp ht).1, ((hstacks t).mp ht).2⟩ hrun c) hnext
        rw [List.mem_append, mem_prevAll hrec, List.mem_filter, ← and_or_left, keeps_char hchar]
        refine and_congr_right fun _ => ?_
        rw [charRejects, goesOn, Bool.and_eq_true, charMatches_iff hw hchar, tok.head_eq,
          GrammarCandidate.rest_next]
        generalize tok.rest.headD 0 = chr
        by_cases hzero : chr = 0
        · simp [hzero]
        · rw [if_neg hzero, if_neg hzero, Bool.not_eq_true', Bool.eq_false_iff, Ne,
            charMatches_iff hw hchar]
          by_cases hin : chr ∈ matchSet rules pos <;> simp [hin, hzero, hstacks]
      · rw [if_pos htoken] at h
        obtain rfl := Option.some.inj h
        rw [List.mem_filter, keeps_token htoken, tokenRejects, tok.head_eq]
        refine and_congr_right fun _ => ?_
        split_ifs <;> simp

theorem rejectCandidates_mem (hw : Wellformed rules) {fuel : ℕ}
    (hfit : ∀ s ∈ stackList, Fit rules s)
    (h : rejectCandidates rules fuel stackList candidates = some rejects)
    (tok : GrammarCandidate) : tok ∈ rejects ↔ tok ∈ candidates ∧
      ∀ s ∈ stackList, ¬ Keeps rules tok.partialUtf8 tok.id tok.rest s :=
  rejectWith_mem (fun s hs _ _ hrun c => rejectCandidatesForStack_mem hw (hfit s hs) hrun c) h tok

/-! ## When the filter returns -/

theorem rejectWith_mono {f f' : GrammarStack → List GrammarCandidate →
      Option (List GrammarCandidate)}
    (hf : ∀ s cands out, f s cands = some out → f' s cands = some out)
    (h : rejectWith f stackList candidates = some rejects) :
    rejectWith f' stackList candidates = some rejects := by
  rw [rejectWith] at h ⊢
  split_ifs at h ⊢
  · exact h
  · exact foldlM_imp (fun _ _ _ hx => hf _ _ _ hx) h

theorem rejectCandidatesForStack_mono {fuel more : ℕ} (hle : fuel ≤ more)
    (h : rejectCandidatesForStack rules fuel s candidates = some rejects) :
    rejectCandidatesForStack rules more s candidates = some rejects := by
  induction fuel generalizing more s candidates rejects with
  | zero => nomatch h
  | succ fuel ih =>
    obtain ⟨more, rfl⟩ := Nat.exists_eq_succ_of_ne_zero (Nat.ne_zero_of_lt hle)
    have hle := Nat.le_of_succ_le_succ hle
    cases s with
    | nil => exact h
    | cons pos base =>
      rw [rejectCandidatesForStack] at h ⊢
      split_ifs at h ⊢
      · exact h
      · obtain ⟨m, hm, h⟩ := Option.bind_eq_some_iff.mp h
        obtain ⟨nextStacks, hadv, h⟩ := Option.bind_eq_some_iff.mp h
        obtain ⟨nextRejects, hnext, h⟩ := Option.bind_eq_some_iff.mp h
        exact Option.bind_eq_some_iff.mpr ⟨m, hm, Option.bind_eq_some_iff.mpr
          ⟨nextStacks, advanceStack_mono rules _ _ _ _ _ hle hadv, Option.bind_eq_some_iff.mpr
            ⟨nextRejects, rejectWith_mono (fun _ _ _ hx => ih hle hx) hnext, h⟩⟩⟩

theorem rejectCandidates_nil (hne : stackList ≠ []) (fuel : ℕ) :
    rejectCandidates rules fuel stackList [] = some [] := by
  rw [rejectCandidates, rejectWith, if_neg hne, if_pos rfl]

theorem rejectWith_returns (hw : Wellformed rules) (hne : stackList ≠ [])
    (hfit : ∀ s ∈ stackList, Fit rules s) {P : GrammarCandidate → Prop}
    (h : ∀ s ∈ stackList, ∀ cands, (∀ tok ∈ cands, P tok) →
      ∃ fuel out, rejectCandidatesForStack rules fuel s cands = some out)
    (hcands : ∀ tok ∈ candidates, P tok) :
    ∃ fuel out, rejectCandidates rules fuel stackList candidates = some out := by
  by_cases hempty : candidates = []
  · subst hempty
    exact ⟨0, [], rejectCandidates_nil hne 0⟩
  · obtain ⟨fuel, out, hrun⟩ := foldlM_returns_of
      (f := fun fuel cands s => rejectCandidatesForStack rules fuel s cands)
      (fun _ _ _ _ _ hle hx => rejectCandidatesForStack_mono hle hx)
      (P := fun cands => ∀ tok ∈ cands, P tok) stackList
      (fun s hs fuel acc out hacc hx tok htok =>
        hacc tok ((rejectCandidatesForStack_mem hw (hfit s hs) hx tok).mp htok).1) h hcands
    refine ⟨fuel, out, ?_⟩
    rw [rejectCandidates, rejectWith, if_neg hne, if_neg hempty]
    exact hrun

theorem rejectChar_returns (hw : Wellformed rules)
    (hadvances : ∀ s, Proper rules s → Advances rules s) (hs : Fit rules (pos :: base))
    (hchar : (elem rules pos).isChar = true)
    (h : ∀ nextStacks, nextStacks ≠ [] → (∀ t ∈ nextStacks, Fit rules t) →
      ∃ fuel out, rejectCandidates rules fuel nextStacks
        ((candidates.filter (goesOn rules pos)).map GrammarCandidate.next) = some out) :
    ∃ fuel out, rejectCandidatesForStack rules fuel (pos :: base) candidates = some out := by
  obtain ⟨m, hm, -, hpast⟩ := matchChar_spec hw hchar 0
  have hproper : Proper rules (push rules m.2 base) := by
    rw [hpast]
    exact Proper.push (fun p hp => hs.1 p (List.mem_cons_of_mem _ hp)) (pastClass_not_modifier _)
  obtain ⟨n, nextStacks, hadv, hne⟩ := hadvances _ hproper
  obtain ⟨k, out, hout⟩ := h nextStacks hne fun t ht => by
    obtain ⟨hr, hset⟩ := ((advanceStack_mem hadv t).mp ht).resolve_left List.not_mem_nil
    exact ⟨hproper.reaches hw hr, hset⟩
  refine ⟨max n k + 1,
    candidates.filter (charRejects rules pos) ++ out.map GrammarCandidate.prev, ?_⟩
  rw [rejectCandidatesForStack, if_neg (by rw [not_isToken hchar]; decide)]
  exact Option.bind_eq_some_iff.mpr ⟨m, hm, Option.bind_eq_some_iff.mpr
    ⟨nextStacks, advanceStack_mono rules _ _ _ _ _ (le_max_left n k) hadv,
      Option.bind_eq_some_iff.mpr ⟨out, rejectWith_mono
        (fun _ _ _ hx => rejectCandidatesForStack_mono (le_max_right n k) hx) hout, rfl⟩⟩⟩

theorem rest_ne_nil {tok : GrammarCandidate} (h : goesOn rules pos tok = true) : tok.rest ≠ [] := by
  intro hnil
  rw [goesOn, tok.head_eq, hnil] at h
  simp at h

theorem rejectCandidatesForStack_returns (hw : Wellformed rules)
    (hadvances : ∀ s, Proper rules s → Advances rules s) (n : ℕ) (hs : Fit rules s)
    (hn : ∀ tok ∈ candidates, tok.rest.length ≤ n) :
    ∃ fuel out, rejectCandidatesForStack rules fuel s candidates = some out := by
  induction n generalizing s candidates with
  | zero =>
    cases s with
    | nil => exact ⟨1, _, rfl⟩
    | cons pos base =>
      rcases settled_cons_iff.1 hs.2 with hchar | htoken
      · refine rejectChar_returns hw hadvances hs hchar fun nextStacks hne _ => ?_
        have hnone : candidates.filter (goesOn rules pos) = [] :=
          List.filter_eq_nil_iff.mpr fun tok htok hgoes =>
            rest_ne_nil hgoes (List.length_eq_zero_iff.mp (Nat.le_zero.mp (hn tok htok)))
        rw [hnone]
        exact ⟨0, [], rejectCandidates_nil hne 0⟩
      · exact ⟨1, _, if_pos htoken⟩
  | succ n ih =>
    cases s with
    | nil => exact ⟨1, _, rfl⟩
    | cons pos base =>
      rcases settled_cons_iff.1 hs.2 with hchar | htoken
      · refine rejectChar_returns hw hadvances hs hchar fun nextStacks hne hfit => ?_
        refine rejectWith_returns hw hne hfit (fun t ht cands hcands => ih (hfit t ht) hcands) ?_
        intro d hd
        obtain ⟨tok, htok, rfl⟩ := List.mem_map.mp hd
        have hlen := hn tok (List.mem_of_mem_filter htok)
        rw [GrammarCandidate.rest_next, List.length_tail]
        omega
      · exact ⟨1, _, if_pos htoken⟩

theorem rejectCandidates_returns (hw : Wellformed rules)
    (hadvances : ∀ s, Proper rules s → Advances rules s) (hne : stackList ≠ [])
    (hfit : ∀ s ∈ stackList, Fit rules s) (candidates : List GrammarCandidate) :
    ∃ fuel out, rejectCandidates rules fuel stackList candidates = some out := by
  have hn : ∀ tok ∈ candidates,
      tok.rest.length ≤ candidates.toFinset.sup fun tok => tok.rest.length := fun tok htok =>
    Finset.le_sup (f := fun tok : GrammarCandidate => tok.rest.length) (List.mem_toFinset.mpr htok)
  exact rejectWith_returns hw hne hfit (fun s hs cands hcands =>
    rejectCandidatesForStack_returns hw hadvances _ (hfit s hs) hcands) hn

end GrammarRules

namespace LazyGrammar

open GrammarRules

variable (rules : GrammarRules) (vocab : GrammarVocab)

/-- Whether the logit of a token is set to minus infinity before any stack is asked. -/
def forbids (g : LazyGrammar) (id : ℕ) : Bool :=
  if vocab.isEog id then decide ([] ∉ g.stackList)
  else (vocab.tokenToPiece id).headD 0 = 0

/-- The candidate of a token, where the stacks are asked. -/
def candidate (g : LazyGrammar) (entry : ℕ × ℕ) : Option GrammarCandidate :=
  if vocab.isEog entry.1 ∨ (vocab.tokenToPiece entry.1).headD 0 = 0 then none
  else
    some ⟨entry.2, (decodeUtf8 (vocab.tokenToPiece entry.1) g.partialUtf8).1, 0,
      (decodeUtf8 (vocab.tokenToPiece entry.1) g.partialUtf8).2, entry.1⟩

/-- `llama_grammar_apply_impl`: the indices of the tokens whose logits are set to minus infinity. -/
def applyImpl (fuel : ℕ) (g : LazyGrammar) (ids : List ℕ) : Option (List ℕ) :=
  if g.awaitingTrigger then some []
  else do
    let rejects ← rejectCandidates rules fuel g.stackList
      (ids.zipIdx.filterMap (g.candidate vocab))
    some ((ids.zipIdx.filter fun entry => g.forbids vocab entry.1).map Prod.snd ++
      rejects.map GrammarCandidate.index)

variable {rules vocab} {g : LazyGrammar} {ids out : List ℕ} {index token : ℕ}

theorem mem_candidates {tok : GrammarCandidate} :
    tok ∈ ids.zipIdx.filterMap (g.candidate vocab) ↔
      ∃ id, ids[tok.index]? = some id ∧ g.candidate vocab (id, tok.index) = some tok := by
  rw [List.mem_filterMap]
  constructor
  · rintro ⟨⟨id, i⟩, hmem, htok⟩
    have hi : i = tok.index := by
      rw [candidate] at htok
      split_ifs at htok
      rw [← Option.some.inj htok]
    subst hi
    exact ⟨id, List.mem_zipIdx_iff_getElem?.mp hmem, htok⟩
  · rintro ⟨id, hid, htok⟩
    exact ⟨_, List.mem_zipIdx_iff_getElem?.mpr hid, htok⟩

theorem applyImpl_mem (hw : Wellformed rules) (hfit : ∀ s ∈ g.stackList, Fit rules s)
    (hawait : g.awaitingTrigger = false) (hid : ids[index]? = some token)
    (heog : vocab.isEog token = false) {fuel : ℕ}
    (h : applyImpl rules vocab fuel g ids = some out) :
    index ∉ out ↔ (vocab.tokenToPiece token).headD 0 ≠ 0 ∧ ∃ s ∈ g.stackList,
      Keeps rules (decodeUtf8 (vocab.tokenToPiece token) g.partialUtf8).2 token
        (decodeUtf8 (vocab.tokenToPiece token) g.partialUtf8).1 s := by
  rw [applyImpl, if_neg (by rw [hawait]; decide)] at h
  obtain ⟨rejects, hrej, h⟩ := Option.bind_eq_some_iff.mp h
  obtain rfl := Option.some.inj h
  have hforbid : index ∈ (ids.zipIdx.filter fun entry => g.forbids vocab entry.1).map Prod.snd ↔
      (vocab.tokenToPiece token).headD 0 = 0 := by
    simp only [List.mem_map, List.mem_filter, Prod.exists, List.mem_zipIdx_iff_getElem?]
    constructor
    · rintro ⟨id, i, ⟨hmem, hf⟩, rfl⟩
      obtain rfl := Option.some.inj (hid.symm.trans hmem)
      rw [forbids, if_neg (by rw [heog]; decide)] at hf
      simpa using hf
    · intro hzero
      refine ⟨token, index, ⟨hid, ?_⟩, rfl⟩
      rw [forbids, if_neg (by rw [heog]; decide)]
      simpa using hzero
  rw [List.mem_append, not_or, hforbid]
  refine and_congr_right fun hzero => ?_
  obtain ⟨tok, htok, rfl, hkeeps⟩ : ∃ tok, g.candidate vocab (token, index) = some tok ∧
      tok.index = index ∧ ∀ s, Keeps rules tok.partialUtf8 tok.id tok.rest s ↔
        Keeps rules (decodeUtf8 (vocab.tokenToPiece token) g.partialUtf8).2 token
          (decodeUtf8 (vocab.tokenToPiece token) g.partialUtf8).1 s := by
    rw [candidate, if_neg (not_or.mpr ⟨by rw [heog]; decide, hzero⟩)]
    exact ⟨_, rfl, rfl, fun _ => Iff.rfl⟩
  have hmem : tok.index ∈ rejects.map GrammarCandidate.index ↔ tok ∈ rejects := by
    refine ⟨fun h => ?_, List.mem_map_of_mem⟩
    obtain ⟨tok', htok', hindex⟩ := List.mem_map.mp h
    obtain ⟨id, hid', hsome⟩ := mem_candidates.1 ((rejectCandidates_mem hw hfit hrej tok').mp htok').1
    rw [hindex] at hid' hsome
    obtain rfl := Option.some.inj (hid.symm.trans hid')
    obtain rfl := Option.some.inj (htok.symm.trans hsome)
    exact htok'
  rw [hmem, rejectCandidates_mem hw hfit hrej, not_and, not_forall]
  simp only [not_forall, not_not, hkeeps, exists_prop]
  exact ⟨fun h => h (mem_candidates.2 ⟨token, hid, htok⟩), fun h _ => h⟩

end LazyGrammar
end RocmFpx

/-!
When the filter and the commit agree on a token. Both ask for the same paths through the stacks,
but the filter takes a token element that a stack comes to in the middle of a piece for the end of
the piece, where accepting drops the stack.
-/

namespace RocmFpx

open GrammarElement GrammarRules Worklist PartialUtf8

namespace GrammarRules

variable {rules : GrammarRules} {st : PartialUtf8} {id : ℕ} {chrs : List ℕ} {s t : GrammarStack}

/-- On its way through a piece a stack comes to a token element that the token matches, before the
piece ends. -/
def Meets (rules : GrammarRules) (token : ℕ) (chrs : List ℕ) (s : GrammarStack) : Prop :=
  ∃ as bs pos base, chrs = as ++ bs ∧ bs ≠ [] ∧ Runs rules as s (pos :: base) ∧
    matchToken rules pos token = true

/-- A token with these characters leads from a stack to some stack. -/
def Takes (rules : GrammarRules) (token : ℕ) (chrs : List ℕ) (s : GrammarStack) : Prop :=
  ∃ t, TokenRuns rules token chrs s t

theorem meets_cons {token chr : ℕ} : Meets rules token (chr :: chrs) s ↔
    (∃ pos base, s = pos :: base ∧ matchToken rules pos token = true) ∨
      ∃ s' t, Consumes rules chr s s' ∧ Reaches (visit rules) s' t ∧ Settled rules t ∧
        Meets rules token chrs t := by
  constructor
  · rintro ⟨as, bs, pos, base, hsplit, hbs, hr, hmatch⟩
    cases hr with
    | nil => exact Or.inl ⟨pos, base, rfl, hmatch⟩
    | cons hc hreach hset hr =>
      obtain ⟨rfl, rfl⟩ := List.cons.inj hsplit
      exact Or.inr ⟨_, _, hc, hreach, hset, _, bs, pos, base, rfl, hbs, hr, hmatch⟩
  · rintro (⟨pos, base, rfl, hmatch⟩ |
      ⟨s', t, hc, hreach, hset, as, bs, pos, base, rfl, hbs, hr, hmatch⟩)
    · exact ⟨[], _, pos, base, rfl, List.cons_ne_nil _ _, .nil, hmatch⟩
    · exact ⟨_, bs, pos, base, rfl, hbs, .cons hc hreach hset hr, hmatch⟩

theorem keeps_iff (hn : st.nRemain = 0) (hzero : ∀ c ∈ chrs, c ≠ 0) :
    Keeps rules st id (chrs ++ [0]) s ↔ (∃ t, Runs rules chrs s t) ∨ Meets rules id chrs s := by
  induction chrs generalizing s with
  | nil =>
    rw [keeps_of_head rfl]
    exact ⟨fun _ => Or.inl ⟨s, .nil⟩, fun _ => Or.inl hn⟩
  | cons chr chrs ih =>
    rw [List.cons_append, Keeps, if_neg (hzero chr List.mem_cons_self), meets_cons]
    have ih (t : GrammarStack) := ih (s := t) fun c hc => hzero c (List.mem_cons_of_mem _ hc)
    constructor
    · rintro (hmatch | ⟨s', t, hc, hreach, hset, hkeep⟩)
      · exact Or.inr (Or.inl hmatch)
      · rcases (ih t).mp hkeep with ⟨u, hu⟩ | hmeets
        · exact Or.inl ⟨u, .cons hc hreach hset hu⟩
        · exact Or.inr (Or.inr ⟨s', t, hc, hreach, hset, hmeets⟩)
    · rintro (⟨u, hu⟩ | hmatch | ⟨s', t, hc, hreach, hset, hmeets⟩)
      · cases hu with
        | cons hc hreach hset hu =>
          exact Or.inr ⟨_, _, hc, hreach, hset, (ih _).mpr (Or.inl ⟨u, hu⟩)⟩
      · exact Or.inl hmatch
      · exact Or.inr ⟨s', t, hc, hreach, hset, (ih t).mpr (Or.inr hmeets)⟩

theorem takes_keeps {token : ℕ} (hne : chrs ≠ []) (h : Takes rules token chrs s) :
    (∃ t, Runs rules chrs s t) ∨ Meets rules token chrs s := by
  obtain ⟨t, pos, base, rfl, ⟨-, hmatch, -⟩ | ⟨-, hr⟩⟩ := h
  · exact Or.inr ⟨[], chrs, pos, base, rfl, hne, .nil, hmatch⟩
  · exact Or.inl ⟨t, hr⟩

theorem runs_takes {token : ℕ} (hne : chrs ≠ []) (h : Runs rules chrs s t) :
    Takes rules token chrs s := by
  cases h with
  | nil => exact absurd rfl hne
  | cons hc hreach hset hr =>
    obtain ⟨pos, base, rfl, hchar, hin, rfl⟩ := hc
    exact ⟨_, tokenRuns_cons.2
      (Or.inr ⟨not_isToken hchar, .cons ⟨pos, base, rfl, hchar, hin, rfl⟩ hreach hset hr⟩)⟩

end GrammarRules

namespace RuleArrays

open GrammarPiece LazyGrammar

/-- The condition under which the filter and the commit agree on a token with this piece. -/
def Agrees (rules : GrammarRules) (g : GrammarState) (token : ℕ) (piece : List UInt8) : Prop :=
  let chrs := (decodeUtf8 piece g.partialUtf8).1.dropLast
  if Spoils g.partialUtf8 piece then ∀ s ∈ g.stackList, ¬ Takes rules token [] s
  else (∃ s ∈ g.stackList, Meets rules token chrs s) → ∃ s ∈ g.stackList, Takes rules token chrs s

theorem acceptToken_ok {rules : GrammarRules} (hw : Wellformed rules) {g : GrammarState}
    {fuel token : ℕ} {piece : List UInt8} {r : Except GrammarState GrammarState}
    (h : g.acceptToken rules fuel token piece = some r) : (∃ g', r = .ok g') ↔
      ∃ s ∈ g.stackList, Takes rules token (decodeUtf8 piece g.partialUtf8).1.dropLast s := by
  obtain ⟨out, hrun, hr⟩ := Option.bind_eq_some_iff.mp h
  obtain rfl := Option.some.inj hr
  have hmem := tokenSteps_mem hw hrun
  by_cases hnil : out = []
  · subst hnil
    constructor
    · rintro ⟨g', hok⟩
      nomatch hok
    · rintro ⟨s, hs, t, ht⟩
      exact absurd ((hmem t).mpr ⟨s, hs, ht⟩) List.not_mem_nil
  · rw [GrammarState.finish, if_neg hnil]
    refine ⟨fun _ => ?_, fun _ => ⟨_, rfl⟩⟩
    obtain ⟨t, ht⟩ := List.exists_mem_of_ne_nil _ hnil
    obtain ⟨s, hs, htake⟩ := (hmem t).mp ht
    exact ⟨s, hs, t, htake⟩

theorem keeps_spoiled {rules : GrammarRules} {st : PartialUtf8} {id : ℕ} {s : GrammarStack}
    (h : st.nRemain = -1) : ¬ Keeps rules st id [0] s := by
  rw [keeps_of_head rfl]
  rintro (hn | ⟨pos, base, -, -, hmatch⟩)
  · rw [h] at hn
    nomatch hn
  · rw [matchPartialChar, if_pos (Or.inl (by rw [h]; decide))] at hmatch
    nomatch hmatch

theorem safe_of_advances {rules : GrammarRules} (hw : Wellformed rules)
    (hadvances : ∀ s, Proper rules s → Advances rules s) {s : GrammarStack} (hs : Proper rules s)
    (chrs : List ℕ) : Safe rules chrs s := by
  induction chrs generalizing s with
  | nil => trivial
  | cons chr chrs ih =>
    intro s' hc
    obtain ⟨fuel, out, hrun, -⟩ := hadvances s' (hc.proper hs)
    exact ⟨advanceStack_bounded hrun, fun t hr _ => ih ((hc.proper hs).reaches hw hr)⟩

theorem acceptToken_returns {rules : GrammarRules} (hw : Wellformed rules)
    (hadvances : ∀ s, Proper rules s → Advances rules s) {g : GrammarState}
    (hfit : ∀ s ∈ g.stackList, Fit rules s) (token : ℕ) (piece : List UInt8) :
    ∃ fuel r, g.acceptToken rules fuel token piece = some r := by
  obtain ⟨fuel, out, hrun⟩ := foldlM_returns
    (tokenStep_mono hw token (decodeUtf8 piece g.partialUtf8).1.dropLast) g.stackList
    (fun s hs acc => tokenStep_returns hw (hfit s hs) (fun pos base hsplit =>
      ⟨fun htoken _ => by
        obtain ⟨n, out, hadv, -⟩ := hadvances _ (tokenMove_proper hw htoken (hsplit ▸ (hfit s hs).1))
        exact advanceStack_bounded hadv,
      fun _ => safe_of_advances hw hadvances (hfit s hs).1 _⟩) acc) []
  exact ⟨fuel, _, Option.bind_eq_some_iff.mpr ⟨out, hrun, rfl⟩⟩

theorem filter_agrees_iff (a : RuleArrays) (haccepted : a.Accepted) (vocab : GrammarVocab)
    (g : LazyGrammar) (hg : ReachableState a.copied a.startRule g.toGrammarState)
    (hawait : g.awaitingTrigger = false) (ids : List ℕ) (index token : ℕ)
    (hid : ids[index]? = some token) (heog : vocab.isEog token = false)
    (hpiece : TextPiece g.partialUtf8 (vocab.tokenToPiece token)) :
    (∀ fuel out fuel' r, applyImpl a.copied vocab fuel g ids = some out →
      g.toGrammarState.acceptToken a.copied fuel' token (vocab.tokenToPiece token) = some r →
      ((index ∉ out ↔ ∃ g', r = .ok g') ↔
        Agrees a.copied g.toGrammarState token (vocab.tokenToPiece token))) ∧
    ((∀ r, ¬ Relation.TransGen (Sym.LeftRef (alts a.copied)) r r) → g.stackList ≠ [] →
      (∃ fuel out, applyImpl a.copied vocab fuel g ids = some out) ∧
      ∃ fuel r, g.toGrammarState.acceptToken a.copied fuel token (vocab.tokenToPiece token) =
        some r) := by
  have hw := wellformed haccepted.1
  have hfit := hg.fit hw
  constructor
  · intro fuel out fuel' r happly haccept
    rw [applyImpl_mem hw hfit hawait hid heog happly, acceptToken_ok hw haccept, Agrees]
    split_ifs with hspoils
    · obtain ⟨st', hdecode, hend⟩ := spoils_decode hspoils
      rw [hdecode]
      have hnone : ¬ ((vocab.tokenToPiece token).headD 0 ≠ 0 ∧
          ∃ s ∈ g.stackList, Keeps a.copied st' token [0] s) := by
        rintro ⟨hzero, s, -, hkeep⟩
        exact keeps_spoiled (hend hzero) hkeep
      rw [iff_false_left hnone, not_exists]
      exact forall_congr' fun s => not_and
    · obtain ⟨chrs, st', hdecode, hne, hzero, hn⟩ := text_decode hpiece hspoils
      have hhead : (vocab.tokenToPiece token).headD 0 ≠ 0 := fun h => hspoils (Or.inl h)
      rw [hdecode]
      simp only [List.dropLast_concat, keeps_iff hn hzero]
      constructor
      · rintro h ⟨s, hs, hmeets⟩
        exact h.mp ⟨hhead, s, hs, Or.inr hmeets⟩
      · intro h
        constructor
        · rintro ⟨-, s, hs, ⟨t, hr⟩ | hmeets⟩
          · exact ⟨s, hs, runs_takes hne hr⟩
          · exact h ⟨s, hs, hmeets⟩
        · rintro ⟨s, hs, htakes⟩
          exact ⟨hhead, s, hs, takes_keeps hne htakes⟩
  · intro hcycle hne
    have hadvances := fun s (hs : Proper a.copied s) => advances_of_acyclic hw hcycle hs
    refine ⟨?_, acceptToken_returns hw hadvances hfit token _⟩
    obtain ⟨fuel, rejects, hrun⟩ := rejectCandidates_returns hw hadvances hne hfit
      (ids.zipIdx.filterMap (g.candidate vocab))
    refine ⟨fuel, Option.isSome_iff_exists.mp ?_⟩
    rw [applyImpl, if_neg (by rw [hawait]; decide), hrun]
    rfl

/-- `root ::= "a" <[5]>`. -/
def mixed : RuleArrays where
  rules := [[⟨.char, 97⟩, ⟨.token, 5⟩, endRule]]
  startRule := 0
  formed := by decide
  startRule_lt := by decide

/-- Token 5 is the text `ab`. -/
def mixedVocab : GrammarVocab where
  tokenToPiece _ := [97, 98]
  isEog _ := false

def mixedStart : LazyGrammar := ⟨⟨[[⟨0, 0⟩]], ⟨0, 0⟩⟩, false, [], []⟩

theorem mixed_reachable :
    ReachableState mixed.copied mixed.startRule mixedStart.toGrammarState := by
  have hinit : initialStacks mixed.copied 3 0 = some [[⟨0, 0⟩]] := rfl
  exact .init hinit

theorem mixed_textPiece : TextPiece mixedStart.partialUtf8 (mixedVocab.tokenToPiece 5) :=
  ⟨List.cons_ne_nil _ _, ['a', 'b'], [], by decide, Or.inl rfl⟩

theorem filter_agrees_iff_mixed :
    (0 ∉ ([] : List ℕ) ↔ ∃ g', (.error ⟨[], ⟨98, 0⟩⟩ : Except GrammarState GrammarState) = .ok g') ↔
      Agrees mixed.copied mixedStart.toGrammarState 5 [97, 98] :=
  (filter_agrees_iff mixed (by decide) mixedVocab mixedStart mixed_reachable rfl [5] 0 5 rfl rfl
    mixed_textPiece).1 3 [] 3 _ rfl rfl

/-- The filter leaves token 5, and accepting it throws. -/
theorem mixed_disagrees :
    mixed.Accepted ∧ ReachableState mixed.copied mixed.startRule mixedStart.toGrammarState ∧
    TextPiece mixedStart.partialUtf8 (mixedVocab.tokenToPiece 5) ∧
    applyImpl mixed.copied mixedVocab 3 mixedStart [5] = some [] ∧
    ∃ g', mixedStart.toGrammarState.acceptToken mixed.copied 3 5 (mixedVocab.tokenToPiece 5) =
      some (.error g') :=
  ⟨by decide, mixed_reachable, mixed_textPiece, rfl, ⟨[], ⟨98, 0⟩⟩, rfl⟩

end RuleArrays
end RocmFpx
