import RocmFpx.GbnfSegments

/-!
What `handle_repetitions` writes derives the repetitions of the item. The rules it adds belong to
symbols of their own; once written they stay as they are to the end of the text.
-/

namespace RocmFpx

open Ebnf GrammarElement GrammarRules

namespace GbnfState

variable {st st' F : GbnfState} {es fs : List GrammarElement} {i id : ℕ} {name : List UInt8}

/-- What a part of a rule derives by the rules of the parser. -/
def lang (st : GbnfState) (es : List GrammarElement) : Language ℕ :=
  Sym.formLang (alts st.rules) (symbols es)

theorem lang_nil : st.lang [] = 1 := Sym.formLang_nil

theorem lang_append (he : Segment es) (hf : Segment fs) : st.lang (es ++ fs) = st.lang es * st.lang fs := by
  rw [lang, he.symbols_append hf, Sym.formLang_append]
  rfl

theorem lang_replicate (he : Segment es) (k : ℕ) :
    st.lang (List.replicate k es).flatten = st.lang es ^ k := by
  rw [lang, he.symbols_replicate, Sym.formLang_pow]
  rfl

/-! ## Symbols -/

/-- A symbol whose name the parser has made. -/
def Generated (st : GbnfState) (i : ℕ) : Prop :=
  ∃ name, st.symbolIds[i]? = some name ∧ '_'.toUInt8 ∈ name

/-- `F` is a later state of the parser. The rule of a generated symbol is written once. -/
structure Keeps (st F : GbnfState) : Prop where
  names : st.symbolIds <+: F.symbolIds
  rules : ∀ i, st.Generated i → st.rules.getD i [] ≠ [] → F.rules.getD i [] = st.rules.getD i []

/-- Only symbols that were not there before have got a rule. -/
structure Grows (st st' : GbnfState) : Prop where
  names : st.symbolIds <+: st'.symbolIds
  rules : ∀ i < st.symbolIds.length, st'.rules.getD i [] = st.rules.getD i []

/-- There are no rules but those of symbols. -/
def Bounded (st : GbnfState) : Prop := st.rules.length ≤ st.symbolIds.length

theorem Generated.lt (h : st.Generated i) : i < st.symbolIds.length := by
  obtain ⟨name, hname, -⟩ := h
  exact (List.getElem?_eq_some_iff.mp hname).1

theorem Generated.mono (h : st.Generated i) (hpre : st.symbolIds <+: st'.symbolIds) :
    st'.Generated i := by
  obtain ⟨name, hname, hmem⟩ := h
  obtain ⟨more, hmore⟩ := hpre
  refine ⟨name, ?_, hmem⟩
  rw [← hmore, List.getElem?_append_left (List.getElem?_eq_some_iff.mp hname).1, hname]

theorem Keeps.refl (st : GbnfState) : Keeps st st := ⟨List.prefix_rfl, fun _ _ _ => rfl⟩

theorem Keeps.trans (h : Keeps st st') (h' : Keeps st' F) : Keeps st F := by
  refine ⟨h.names.trans h'.names, fun i hgen hne => ?_⟩
  have heq := h.rules i hgen hne
  rw [h'.rules i (hgen.mono h.names) (heq ▸ hne), heq]

theorem Grows.refl (st : GbnfState) : Grows st st := ⟨List.prefix_rfl, fun _ _ => rfl⟩

theorem Grows.trans (h : Grows st st') (h' : Grows st' F) : Grows st F := by
  refine ⟨h.names.trans h'.names, fun i hi => ?_⟩
  rw [h'.rules i (hi.trans_le h.names.length_le), h.rules i hi]

theorem Grows.keeps (h : Grows st st') : Keeps st st' :=
  ⟨h.names, fun i hgen _ => h.rules i hgen.lt⟩

theorem Bounded.rule_eq_nil (h : st.Bounded) (hi : st.symbolIds.length ≤ i) :
    st.rules.getD i [] = [] := by
  rw [List.getD_eq_getElem?_getD, List.getElem?_eq_none (h.trans hi), Option.getD_none]

/-! ## Operations on the state -/

theorem addRule_rule (st : GbnfState) (id i : ℕ) (rule : List GrammarElement) :
    (st.addRule id rule).rules.getD i [] = if i = id then rule else st.rules.getD i [] := by
  have hlen : id < (st.rules ++ List.replicate (id + 1 - st.rules.length) []).length := by
    rw [List.length_append, List.length_replicate]
    omega
  rw [addRule, List.getD_eq_getElem?_getD, List.getElem?_set]
  simp only [hlen, if_true]
  split_ifs with h h' h'
  · rfl
  · exact absurd h.symm h'
  · exact absurd h'.symm h
  · rw [List.getD_eq_getElem?_getD]
    by_cases hi : i < st.rules.length
    · rw [List.getElem?_append_left hi]
    · rw [List.getElem?_append_right (not_lt.mp hi), List.getElem?_eq_none (not_lt.mp hi),
        List.getElem?_replicate]
      split_ifs <;> rfl

theorem Bounded.addRule (h : st.Bounded) (hid : id < st.symbolIds.length)
    (rule : List GrammarElement) : (st.addRule id rule).Bounded := by
  rw [Bounded, GbnfState.addRule]
  simp only [List.length_set, List.length_append, List.length_replicate]
  rw [Bounded] at h
  omega

theorem generateSymbolId_names (st : GbnfState) (baseName : List UInt8) :
    (st.generateSymbolId baseName).2.symbolIds.length = st.symbolIds.length + 1 := by
  rw [generateSymbolId, List.length_append, List.length_singleton]

theorem lt_generateSymbolId (st : GbnfState) (baseName : List UInt8) :
    st.symbolIds.length < (st.generateSymbolId baseName).2.symbolIds.length := by
  rw [generateSymbolId_names]
  exact Nat.lt_succ_self _

theorem generated_generateSymbolId (st : GbnfState) (baseName : List UInt8) :
    (st.generateSymbolId baseName).2.Generated st.symbolIds.length := by
  refine ⟨_, List.getElem?_concat_length, ?_⟩
  exact List.mem_append_right _ List.mem_cons_self

theorem grows_generateSymbolId (st : GbnfState) (baseName : List UInt8) :
    Grows st (st.generateSymbolId baseName).2 := ⟨List.prefix_append _ _, fun _ _ => rfl⟩

theorem Bounded.generateSymbolId (h : st.Bounded) (baseName : List UInt8) :
    (st.generateSymbolId baseName).2.Bounded := by
  rw [Bounded, generateSymbolId_names]
  exact Nat.le_succ_of_le h

/-- Writing the rule of a new symbol. -/
theorem Grows.addRule (h : Grows st st') (hid : st.symbolIds.length ≤ id)
    (rule : List GrammarElement) : Grows st (st'.addRule id rule) := by
  refine ⟨h.names, fun i hi => ?_⟩
  rw [addRule_rule, if_neg (by omega), h.rules i hi]

end GbnfState

namespace Gbnf

open GbnfState

variable {st F : GbnfState} {ruleName pos : List UInt8} {prevRule rule : List GrammarElement}
  {noMax : Bool} {last next : Option ℕ} {n k lastSymStart nPrevRules minTimes : ℕ}
  {maxTimes : Option ℕ}

/-! ## Optional rules -/

/-- The reference behind an item, if there is one. -/
def refs (next : Option ℕ) : List GrammarElement := (next.map (GrammarElement.mk .ruleRef)).toList

theorem segment_refs (next : Option ℕ) : Segment (refs next) := by
  cases next with
  | none => exact segment_nil
  | some id => exact segment_ref id

theorem altsIn_recRule (hprev : Segment prevRule) (next : Option ℕ) :
    altsIn (recRule prevRule next) = {symbols prevRule ++ symbols (refs next), []} := by
  have hseg := hprev.append (segment_refs next)
  have hsplit : recRule prevRule next = (prevRule ++ refs next) ++ ⟨.alt, 0⟩ :: ([] ++ [endRule]) := rfl
  rw [hsplit, altsIn_append, hseg.altsIn_end, segment_nil.altsIn_end,
    hprev.symbols_append (segment_refs next)]
  rfl

theorem recRule_ne_nil : recRule prevRule next ≠ [] :=
  List.append_ne_nil_of_right_ne_nil _ (List.cons_ne_nil _ _)

theorem addRecRules_grows (n : ℕ) (st : GbnfState) (last : Option ℕ) :
    Grows st (addRecRules ruleName prevRule noMax n st last).1 := by
  induction n generalizing st last with
  | zero => exact Grows.refl st
  | succ n ih => exact ((grows_generateSymbolId st ruleName).addRule le_rfl _).trans (ih _ _)

theorem addRecRules_repetitions (n : ℕ) (st : GbnfState) (last : Option ℕ) :
    (addRecRules ruleName prevRule noMax n st last).1.repetitions = st.repetitions := by
  induction n generalizing st last with
  | zero => rfl
  | succ n ih => exact ih _ _

theorem rule_recRule
    (hF : Keeps ((st.generateSymbolId ruleName).2.addRule st.symbolIds.length (recRule prevRule next)) F) :
    F.rules.getD st.symbolIds.length [] = recRule prevRule next := by
  have hgen : ((st.generateSymbolId ruleName).2.addRule st.symbolIds.length
      (recRule prevRule next)).Generated st.symbolIds.length := generated_generateSymbolId st ruleName
  have hrule := addRule_rule (st.generateSymbolId ruleName).2 st.symbolIds.length st.symbolIds.length
    (recRule prevRule next)
  rw [if_pos rfl] at hrule
  rw [hF.rules _ hgen (by rw [hrule]; exact recRule_ne_nil), hrule]

theorem lang_optional (hprev : Segment prevRule)
    (hF : Keeps (addRecRules ruleName prevRule false n st last).1 F)
    (hlast : F.lang (refs last) = reps (F.lang prevRule) 0 (some k)) :
    F.lang (refs (addRecRules ruleName prevRule false n st last).2) =
      reps (F.lang prevRule) 0 (some (k + n)) := by
  induction n generalizing st last k with
  | zero => exact hlast
  | succ n ih =>
    have hkeep := (addRecRules_grows n _ _).keeps.trans hF
    have hrule := rule_recRule hkeep
    have halts : alts F.rules st.symbolIds.length = {symbols prevRule ++ symbols (refs last), []} := by
      rw [alts_eq, hrule]
      exact altsIn_recRule hprev last
    have hone : F.lang (refs (some st.symbolIds.length)) =
        reps (F.lang prevRule) 0 (some (k + 1)) := by
      rw [reps_succ, ← hlast]
      exact Sym.formLang_optional halts
    have hrest := ih hF hone
    rwa [Nat.add_right_comm, Nat.add_assoc] at hrest

theorem lang_unbounded (hprev : Segment prevRule)
    (hF : Keeps (addRecRules ruleName prevRule true 1 st none).1 F) :
    F.lang (refs (addRecRules ruleName prevRule true 1 st none).2) =
      reps (F.lang prevRule) 0 none := by
  have hrule := rule_recRule hF
  have halts : alts F.rules st.symbolIds.length =
      {symbols prevRule ++ [.ref st.symbolIds.length], []} := by
    rw [alts_eq, hrule]
    exact altsIn_recRule hprev _
  rw [reps_unbounded]
  exact Sym.formLang_star halts

/-! ## Rewriting an item -/

/-- Up to how many items the parser's rules derive. -/
def derivedMax (minTimes : ℕ) (maxTimes : Option ℕ) : Option ℕ :=
  maxTimes.map fun m => minTimes + optionalCount minTimes (some m)

theorem derivedMax_of_le (hle : ∀ m ∈ maxTimes, minTimes ≤ m)
    (hmax : ∀ m ∈ maxTimes, m ≤ maxRepetitionThreshold) : derivedMax minTimes maxTimes = maxTimes := by
  cases maxTimes with
  | none => rfl
  | some m =>
    have h1 := hle m rfl
    have h2 : m ≤ 2000 := hmax m rfl
    have hcount : optionalCount minTimes (some m) = m - minTimes := by
      rw [optionalCount]
      omega
    rw [derivedMax, Option.map_some, hcount, Nat.add_sub_cancel' h1]

/-- What `handle_repetitions` has written at the place of the item. -/
structure Rewrites (st : GbnfState) (rule : List GrammarElement) (lastSymStart minTimes : ℕ)
    (maxTimes : Option ℕ) (st' : GbnfState) (rule' : List GrammarElement) : Prop where
  grows : Grows st st'
  front : rule'.take lastSymStart = rule.take lastSymStart
  le_length : lastSymStart ≤ rule'.length
  segment : Segment (rule'.drop lastSymStart)
  logged : st'.repetitions = st.repetitions ++
    [⟨rule.drop lastSymStart, minTimes, maxTimes, rule'.drop lastSymStart⟩]
  lang : ∀ F, Keeps st' F → F.lang (rule'.drop lastSymStart) =
    reps (F.lang (rule.drop lastSymStart)) minTimes (derivedMax minTimes maxTimes)

theorem repeated_eq (front item : List GrammarElement) (minTimes : ℕ) :
    (if minTimes = 0 then front
      else front ++ item ++ (List.replicate (minTimes - 1) item).flatten) =
      front ++ (List.replicate minTimes item).flatten := by
  cases minTimes with
  | zero => rw [if_pos rfl, List.replicate_zero, List.flatten_nil, List.append_nil]
  | succ m =>
    rw [if_neg (Nat.succ_ne_zero m), Nat.add_sub_cancel, List.replicate_succ, List.flatten_cons,
      List.append_assoc]

/-- The optional rules of a repetition. -/
abbrev optionalRules (st : GbnfState) (ruleName : List UInt8) (item : List GrammarElement)
    (minTimes : ℕ) (maxTimes : Option ℕ) : GbnfState × Option ℕ :=
  addRecRules ruleName item maxTimes.isNone (optionalCount minTimes maxTimes) st none

theorem handleRepetitions_ok {front item : List GrammarElement}
    {r : GbnfState × List GrammarElement × ℕ}
    (h : handleRepetitions st pos ruleName (front ++ item) front.length nPrevRules minTimes maxTimes =
      .ok r) :
    r.2.1 = front ++ ((List.replicate minTimes item).flatten ++
        refs (optionalRules st ruleName item minTimes maxTimes).2) ∧
      r.1 = { (optionalRules st ruleName item minTimes maxTimes).1 with
        repetitions := st.repetitions ++
          [⟨item, minTimes, maxTimes, (List.replicate minTimes item).flatten ++
            refs (optionalRules st ruleName item minTimes maxTimes).2⟩] } := by
  rw [handleRepetitions] at h
  obtain ⟨-, h⟩ | ⟨-, h⟩ := ite_eq_iff.mp h
  · nomatch h
  obtain ⟨-, h⟩ | ⟨-, h⟩ := ite_eq_iff.mp h
  · nomatch h
  simp only [List.drop_left, List.take_left, repeated_eq] at h
  simp only [List.drop_left, List.append_assoc, addRecRules_repetitions] at h
  cases h
  exact ⟨rfl, rfl⟩

theorem handleRepetitions_spec (hle : lastSymStart ≤ rule.length)
    (hseg : Segment (rule.drop lastSymStart)) {r : GbnfState × List GrammarElement × ℕ}
    (h : handleRepetitions st pos ruleName rule lastSymStart nPrevRules minTimes maxTimes = .ok r) :
    Rewrites st rule lastSymStart minTimes maxTimes r.1 r.2.1 := by
  obtain ⟨front, item, rfl, rfl⟩ : ∃ front item, rule = front ++ item ∧ lastSymStart = front.length :=
    ⟨_, _, (List.take_append_drop lastSymStart rule).symm, by rw [List.length_take, min_eq_left hle]⟩
  rw [List.drop_left] at hseg
  obtain ⟨hrule, hst⟩ := handleRepetitions_ok h
  rw [hrule, hst]
  have hmid := hseg.replicate minTimes
  have hgrows : Grows st (optionalRules st ruleName item minTimes maxTimes).1 :=
    addRecRules_grows _ _ _
  constructor
  case grows => exact ⟨hgrows.names, hgrows.rules⟩
  case front => rw [List.take_left, List.take_left]
  case le_length =>
    rw [List.length_append]
    exact Nat.le_add_right _ _
  case segment =>
    rw [List.drop_left]
    exact hmid.append (segment_refs _)
  case logged => rw [List.drop_left, List.drop_left]
  case lang =>
    intro F hF
    have hnone : F.lang (refs none) = reps (F.lang item) 0 (some 0) := by
      rw [reps_zero]
      exact lang_nil
    have hkeep : Keeps (optionalRules st ruleName item minTimes maxTimes).1 F := ⟨hF.names, hF.rules⟩
    have hlast : F.lang (refs (optionalRules st ruleName item minTimes maxTimes).2) =
        reps (F.lang item) 0 (maxTimes.map fun m => optionalCount minTimes (some m)) := by
      cases maxTimes with
      | none => exact lang_unbounded hseg hkeep
      | some m =>
        have := lang_optional hseg hkeep hnone
        rwa [Nat.zero_add] at this
    rw [List.drop_left, List.drop_left]
    refine (lang_append hmid (segment_refs _)).trans ?_
    rw [hlast, lang_replicate hseg, pow_mul_reps, Nat.add_zero, derivedMax, Option.map_map]
    rfl

end Gbnf

end RocmFpx
