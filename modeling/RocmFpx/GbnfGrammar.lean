import RocmFpx.GbnfRuns

/-!
The parser over a whole text: the rules it accepts, and what its repetitions derive there.
-/

namespace RocmFpx

open Ebnf GrammarElement GrammarRules

namespace GbnfState

variable {st st' : GbnfState}

/-- The symbols the parser has made all have their rules. -/
def Written (st : GbnfState) : Prop := ∀ i, st.Generated i → st.rules.getD i [] ≠ []

theorem empty_written : Written .empty := fun _ h => absurd h.lt (Nat.not_lt_zero _)

theorem Written.extends (hw : st.Written) (h : Extends st st') : st'.Written := by
  intro i hgen
  by_cases hlt : i < st.symbolIds.length
  · obtain ⟨name, hname, hmem⟩ := hgen
    obtain ⟨more, hmore⟩ := h.grows.names
    rw [h.grows.rules i hlt]
    refine hw i ⟨name, ?_, hmem⟩
    rwa [← hmore, List.getElem?_append_left hlt] at hname
  · exact h.written i (not_lt.mp hlt) hgen

theorem Written.addRule (hw : st.Written) {id : ℕ} {rule : List GrammarElement} (hne : rule ≠ []) :
    (st.addRule id rule).Written := by
  intro i hgen
  rw [addRule_rule]
  split_ifs
  · exact hne
  · exact hw i hgen

end GbnfState

namespace Gbnf

open GbnfState

variable {vocab : Option (List UInt8 → Option ℕ)} {st : GbnfState} {src name : List UInt8} {n : ℕ}

/-! ## Rules -/

theorem parseName_word {r : List UInt8 × List UInt8} (h : parseName src = .ok r) :
    ∀ c ∈ r.1, isWordChar c = true := by
  simp only [parseName] at h
  split_ifs at h
  cases h
  exact fun c hc => List.mem_takeWhile_imp hc

theorem not_generated_getSymbolId (hname : ∀ c ∈ name, isWordChar c = true) {st' : GbnfState}
    (hpre : (st.getSymbolId name).2.symbolIds <+: st'.symbolIds) :
    ¬ st'.Generated (st.getSymbolId name).1 := by
  rintro ⟨other, hother, hmem⟩
  have hlt := getSymbolId_lt st name
  obtain ⟨more, hmore⟩ := hpre
  rw [← hmore, List.getElem?_append_left hlt] at hother
  have heq : other = name := by
    have hin : name ∈ (st.getSymbolId name).2.symbolIds := by
      rw [getSymbolId]
      split_ifs with h
      · exact h
      · exact List.mem_append_right _ (List.mem_singleton_self name)
    have hidx : (st.getSymbolId name).1 = (st.getSymbolId name).2.symbolIds.idxOf name := by
      rw [getSymbolId, idOf]
      split_ifs with h
      · rfl
      · rw [List.idxOf_append_of_notMem h, List.idxOf_cons_self, List.idxOf_eq_length h, Nat.add_zero]
    rw [hidx, List.getElem?_idxOf hin] at hother
    exact (Option.some.inj hother).symm
  exact absurd (hname _ (heq ▸ hmem)) (by decide)

theorem parseNewline_length {pos rest : List UInt8} (h : parseNewline pos = .ok rest) :
    rest.length ≤ pos.length := by
  cases pos with
  | nil =>
    cases h
    exact le_rfl
  | cons c pos =>
    rw [parseNewline] at h
    obtain ⟨-, h⟩ | ⟨-, h⟩ := ite_eq_iff.mp h
    · cases h
      split_ifs
      · rw [List.length_tail, List.length_cons]
        omega
      · exact Nat.le_succ _
    obtain ⟨-, h⟩ | ⟨-, h⟩ := ite_eq_iff.mp h
    · cases h
      exact Nat.le_succ _
    · nomatch h

theorem parseNewline_ne_depth {pos : List UInt8} : parseNewline pos ≠ .error .depth := by
  cases pos with
  | nil => exact fun h => nomatch h
  | cons c pos =>
    rw [parseNewline]
    exact ite_ne_depth (fun h => nomatch h) (ite_ne_depth (fun h => nomatch h) fun h => nomatch h)

theorem parseRule_inv {r : List UInt8 × GbnfState} (hinv : Inv st) (hw : st.Written)
    (h : parseRule vocab st src = .ok r) : Inv r.2 ∧ r.2.Written := by
  rw [parseRule] at h
  obtain ⟨⟨name, pos⟩, hname, h⟩ := bind_eq_ok.1 h
  dsimp only at h
  obtain ⟨-, h⟩ | ⟨-, h⟩ := ite_eq_iff.mp h
  · nomatch h
  obtain ⟨⟨pos', st'⟩, halt, h⟩ := bind_eq_ok.1 h
  obtain ⟨pos'', hpos, h⟩ := bind_eq_ok.1 h
  cases h
  have hword := parseName_word hname
  have hext := Extends.getSymbolId hinv hword
  obtain ⟨before, rule, hbefore, hrule, hne, rfl⟩ := (runsSound _).alternates hext.inv halt
  have hlt := (getSymbolId_lt st name).trans_le hbefore.grows.names.length_le
  refine ⟨hbefore.inv.addRule hlt (fun hgen => ?_) hrule, ?_⟩
  · exact absurd hgen (not_generated_getSymbolId hword hbefore.grows.names)
  · exact ((hw.extends hext).extends hbefore).addRule hne

theorem parseRules_inv (hinv : Inv st) (hw : st.Written) {st' : GbnfState}
    (h : parseRules vocab n st src = .ok st') : Inv st' ∧ st'.Written := by
  induction n generalizing st src with
  | zero =>
    cases src with
    | nil =>
      cases h
      exact ⟨hinv, hw⟩
    | cons c pos => nomatch h
  | succ n ih =>
    cases src with
    | nil =>
      cases h
      exact ⟨hinv, hw⟩
    | cons c pos =>
      rw [parseRules] at h
      obtain ⟨⟨pos', st''⟩, hrule, h⟩ := bind_eq_ok.1 h
      obtain ⟨hinv', hw'⟩ := parseRule_inv hinv hw hrule
      exact ih hinv' hw' h

theorem parseRule_length {r : List UInt8 × GbnfState} (h : parseRule vocab st src = .ok r) :
    r.1.length < src.length := by
  rw [parseRule] at h
  obtain ⟨⟨name, pos⟩, hname, h⟩ := bind_eq_ok.1 h
  dsimp only at h
  obtain ⟨-, h⟩ | ⟨-, h⟩ := ite_eq_iff.mp h
  · nomatch h
  obtain ⟨⟨pos', st'⟩, halt, h⟩ := bind_eq_ok.1 h
  obtain ⟨pos'', hpos, h⟩ := bind_eq_ok.1 h
  cases h
  have h1 : pos.length < src.length := parseName_length hname
  have h2 := parseSpace_length false pos
  have h3 := parseSpace_length true ((parseSpace false pos).drop 3)
  have h4 : pos'.length ≤ _ := (runsEnd _).alternates.1 _ halt
  have h5 : pos''.length ≤ pos'.length := parseNewline_length hpos
  have h6 := parseSpace_length true pos''
  rw [List.length_drop] at h3
  simp only
  omega

theorem parseRule_ne_depth : parseRule vocab st src ≠ .error .depth := by
  rw [parseRule]
  refine bind_ne_depth parseName_ne_depth ?_
  rintro ⟨name, pos⟩ hname
  refine ite_ne_depth (fun h => by cases h) ?_
  refine bind_ne_depth ((runsEnd _).alternates.2 (by omega)) ?_
  rintro ⟨pos', st'⟩ halt
  exact bind_ne_depth parseNewline_ne_depth fun pos'' hpos h => by cases h

theorem parseRules_ne_depth (hn : src.length ≤ n) : parseRules vocab n st src ≠ .error .depth := by
  induction n generalizing st src with
  | zero =>
    rw [List.length_eq_zero_iff.mp (Nat.le_zero.mp hn)]
    exact fun h => nomatch h
  | succ n ih =>
    cases src with
    | nil => exact fun h => nomatch h
    | cons c pos =>
      rw [parseRules]
      refine bind_ne_depth parseRule_ne_depth fun ⟨pos', st'⟩ hrule => ih ?_
      have h1 : pos'.length < _ := parseRule_length hrule
      simp only [List.length_cons] at h1 hn
      omega

/-! ## Checks -/

theorem forM_ok {α : Type} {f : α → Except GbnfError Unit} {l : List α}
    (h : ∀ x ∈ l, f x = .ok ()) : l.forM f = .ok () := by
  induction l with
  | nil => rfl
  | cons x l ih =>
    change (f x >>= fun _ => l.forM f) = _
    rw [h x List.mem_cons_self]
    exact ih fun y hy => h y (List.mem_cons_of_mem _ hy)

theorem forM_ne_depth {α : Type} {f : α → Except GbnfError Unit} {l : List α}
    (h : ∀ x ∈ l, f x ≠ .error .depth) : l.forM f ≠ .error .depth := by
  induction l with
  | nil => exact fun h => nomatch h
  | cons x l ih =>
    change (f x >>= fun _ => l.forM f) ≠ _
    refine bind_ne_depth (h x List.mem_cons_self) fun _ _ => ?_
    exact ih fun y hy => h y (List.mem_cons_of_mem _ hy)

theorem checks_ok (hinv : Inv st) (hw : st.Written)
    (hnames : ∀ i < st.symbolIds.length, ¬ st.Generated i → st.rules.getD i [] ≠ []) :
    st.rules.forM (checkRule st) = .ok () := by
  have hall : ∀ i < st.symbolIds.length, st.rules.getD i [] ≠ [] := by
    intro i hi
    by_cases hgen : st.Generated i
    · exact hw i hgen
    · exact hnames i hi hgen
  refine forM_ok fun rule hrule => ?_
  obtain ⟨i, hi, rfl⟩ := List.getElem_of_mem hrule
  have hget : st.rules.getD i [] = st.rules[i] := by
    rw [List.getD_eq_getElem?_getD, List.getElem?_eq_getElem hi, Option.getD_some]
  rw [checkRule, if_neg (hget ▸ hall i (hi.trans_le hinv.bounded))]
  refine forM_ok fun e he => ?_
  rw [checkElement, if_neg]
  rintro ⟨htype, hnil⟩
  exact hall e.value (hinv.refers i e (hget ▸ he) htype) hnil

theorem checkRule_ne_depth (rule : List GrammarElement) : checkRule st rule ≠ .error .depth := by
  rw [checkRule]
  refine ite_ne_depth (fun h => nomatch h) (forM_ne_depth fun e _ => ?_)
  rw [checkElement]
  split_ifs
  · split
    · exact fun h => nomatch h
    · exact fun h => nomatch h
  · exact fun h => nomatch h

theorem parse_ne_depth : parse vocab src ≠ .error .depth := by
  rw [parse]
  refine bind_ne_depth (parseRules_ne_depth ?_) fun st hst => ?_
  · exact (parseSpace_length _ _).trans (Nat.le_succ _)
  · exact bind_ne_depth (forM_ne_depth fun rule _ => checkRule_ne_depth rule) fun _ _ h => nomatch h

theorem parse_inv (h : parse vocab src = .ok st) : Inv st ∧ st.Written := by
  rw [parse] at h
  obtain ⟨st', hst, h⟩ := bind_eq_ok.1 h
  obtain ⟨-, -, h⟩ := bind_eq_ok.1 h
  cases h
  exact parseRules_inv empty_inv empty_written hst

/-! ## Repetitions -/

/-- What stands at the place of a repetition derives the concatenations of `k` strings of the item,
`k` in the range. -/
def Repetition.Exact (st : GbnfState) (s : Repetition) : Prop :=
  st.lang s.emitted = reps (st.lang s.item) s.minTimes s.maxTimes

/-- The upper end of the range does not lie below the lower one. -/
def Repetition.Ordered (s : Repetition) : Prop := ∀ m ∈ s.maxTimes, s.minTimes ≤ m

theorem exact_iff (hst : st.Honest) {s : Repetition} (hs : s ∈ st.repetitions) :
    Repetition.Exact st s ↔ Repetition.Ordered s ∨ st.lang s.item = 0 := by
  obtain ⟨hmin, hmax, hlang⟩ := hst s hs
  rw [Repetition.Exact, hlang st (Keeps.refl st)]
  constructor
  · intro hexact
    by_contra hnot
    obtain ⟨hord, hne⟩ := not_or.mp hnot
    rw [Repetition.Ordered] at hord
    push Not at hord
    obtain ⟨m, hm, hlt⟩ := hord
    obtain ⟨w, hw⟩ := Set.nonempty_iff_ne_empty.mpr hne
    obtain ⟨v, hv⟩ := pow_nonempty hw s.minTimes
    -- the lower end itself is derived, but no number lies in the range
    have hin : v ∈ reps (st.lang s.item) s.minTimes (derivedMax s.minTimes s.maxTimes) := by
      refine ⟨s.minTimes, le_rfl, fun n hn => ?_, hv⟩
      obtain ⟨x, -, rfl⟩ := Option.map_eq_some_iff.mp hn
      exact Nat.le_add_right _ _
    rw [hexact] at hin
    obtain ⟨k, hk, hkm, -⟩ := hin
    exact absurd (hk.trans (hkm m hm)) (not_le.mpr hlt)
  · intro h
    by_cases hord : Repetition.Ordered s
    · rw [derivedMax_of_le hord hmax]
    · have hzero := h.resolve_left hord
      rw [Repetition.Ordered] at hord
      push Not at hord
      obtain ⟨m, -, hlt⟩ := hord
      rw [hzero, reps_of_zero (by omega), reps_of_zero (by omega)]

/-- The parser comes to an end on every text, and in the rules of an accepted text every repetition
derives the concatenations of `k` strings of its item with `k` in the range, exactly when no range
whose upper end lies below its lower end stands behind an item that derives a string. -/
theorem repetitions_exact_iff (vocab : Option (List UInt8 → Option ℕ)) (src : List UInt8) :
    (parse vocab src ≠ .error .depth ∧ ∀ st, parse vocab src = .ok st →
        ∀ s ∈ st.repetitions, Repetition.Exact st s) ↔
      ∀ st, parse vocab src = .ok st →
        ∀ s ∈ st.repetitions, Repetition.Ordered s ∨ st.lang s.item = 0 := by
  rw [and_iff_right parse_ne_depth]
  refine forall₂_congr fun st hst => forall₂_congr fun s hs => ?_
  exact exact_iff (parse_inv hst).1.honest hs

theorem addRecRules_generated {ruleName : List UInt8} {prevRule : List GrammarElement} {noMax : Bool}
    {last : Option ℕ} {i : ℕ} (hi : st.symbolIds.length ≤ i)
    (hlt : i < (addRecRules ruleName prevRule noMax n st last).1.symbolIds.length) :
    (addRecRules ruleName prevRule noMax n st last).1.Generated i := by
  induction n generalizing st last with
  | zero => exact absurd hlt (not_lt.mpr hi)
  | succ n ih =>
    obtain heq | hne := Nat.eq_or_lt_of_le hi
    · have hgrows : Grows ((st.generateSymbolId ruleName).2.addRule st.symbolIds.length
          (recRule prevRule (if noMax then some st.symbolIds.length else last)))
          (addRecRules ruleName prevRule noMax (n + 1) st last).1 := addRecRules_grows n _ _
      exact heq ▸ (generated_generateSymbolId st ruleName).mono hgrows.names
    · refine ih ?_ hlt
      change (st.generateSymbolId ruleName).2.symbolIds.length ≤ i
      rw [generateSymbolId_names]
      exact hne

section

variable {pos ruleName : List UInt8} {isNested : Bool} {rule es : List GrammarElement}
  {lastSymStart nPrevRules minTimes : ℕ} {maxTimes : Option ℕ}

theorem parseSequence_elements (hlex : nextLexeme vocab isNested src = .ok (.elements es, pos)) :
    parseSequence vocab (n + 1) st src ruleName isNested rule lastSymStart nPrevRules =
      parseSequence vocab n st pos ruleName isNested (rule ++ es) rule.length 1 := by
  rw [parseSequence, hlex]
  rfl

theorem parseSequence_times
    (hlex : nextLexeme vocab isNested src = .ok (.times minTimes maxTimes, pos))
    {r : GbnfState × List GrammarElement × ℕ}
    (hr : handleRepetitions st pos ruleName rule lastSymStart nPrevRules minTimes maxTimes = .ok r) :
    parseSequence vocab (n + 1) st src ruleName isNested rule lastSymStart nPrevRules =
      parseSequence vocab n r.1 pos ruleName isNested r.2.1 lastSymStart r.2.2 := by
  rw [parseSequence, hlex]
  change (handleRepetitions st pos ruleName rule lastSymStart nPrevRules minTimes maxTimes >>= _) = _
  rw [hr]
  rfl

theorem parseSequence_stop (hlex : nextLexeme vocab isNested src = .ok (.stop, pos)) :
    parseSequence vocab (n + 1) st src ruleName isNested rule lastSymStart nPrevRules =
      .ok (pos, st, rule) := by
  rw [parseSequence, hlex]
  rfl

theorem parseAlternates_single {st' : GbnfState} {ruleId : ℕ}
    (hseq : parseSequence vocab (n + 1) st src ruleName isNested [] 0 1 = .ok (pos, st', rule))
    (hbar : pos.head? ≠ some '|'.toUInt8) :
    parseAlternates vocab (n + 2) st src ruleName ruleId isNested =
      .ok (pos, st'.addRule ruleId (rule ++ [endRule])) := by
  rw [parseAlternates]
  refine bind_eq_ok.2 ⟨_, hseq, bind_eq_ok.2 ⟨(pos, st', rule), ?_, rfl⟩⟩
  rw [alternatesFrom, if_neg hbar]

theorem parseRule_ok {st' : GbnfState} {pos' rest : List UInt8}
    (hname : parseName src = .ok (name, pos)) (hdef : bytes "::=" <+: parseSpace false pos)
    (halt : parseAlternates vocab (2 * (parseSpace true ((parseSpace false pos).drop 3)).length + 3)
      (st.getSymbolId name).2 (parseSpace true ((parseSpace false pos).drop 3)) name
      (st.getSymbolId name).1 false = .ok (pos', st'))
    (hline : parseNewline pos' = .ok rest) :
    parseRule vocab st src = .ok (parseSpace true rest, st') := by
  rw [parseRule]
  refine bind_eq_ok.2 ⟨(name, pos), hname, ?_⟩
  dsimp only
  rw [if_neg (not_not_intro hdef)]
  refine bind_eq_ok.2 ⟨(pos', st'), halt, ?_⟩
  exact bind_eq_ok.2 ⟨rest, hline, rfl⟩

end

/-! ## A range the wrong way round -/

theorem handleRepetitions_generated {pos ruleName : List UInt8} {front item : List GrammarElement}
    {nPrevRules minTimes i : ℕ} {maxTimes : Option ℕ} {r : GbnfState × List GrammarElement × ℕ}
    (h : handleRepetitions st pos ruleName (front ++ item) front.length nPrevRules minTimes maxTimes =
      .ok r) (hi : st.symbolIds.length ≤ i) (hlt : i < r.1.symbolIds.length) : r.1.Generated i := by
  obtain ⟨-, hst⟩ := handleRepetitions_ok h
  have hnames : r.1.symbolIds = (optionalRules st ruleName item minTimes maxTimes).1.symbolIds := by
    rw [hst]
  rw [hnames] at hlt
  obtain ⟨name, hname, hmem⟩ := addRecRules_generated hi hlt
  exact ⟨name, hnames ▸ hname, hmem⟩

theorem exists_logged {pos ruleName : List UInt8} {front item : List GrammarElement}
    {nPrevRules minTimes : ℕ} {maxTimes : Option ℕ} {r : GbnfState × List GrammarElement × ℕ}
    (h : handleRepetitions st pos ruleName (front ++ item) front.length nPrevRules minTimes maxTimes =
      .ok r) :
    ∃ s ∈ r.1.repetitions, s.item = item ∧ s.minTimes = minTimes ∧ s.maxTimes = maxTimes := by
  obtain ⟨-, hst⟩ := handleRepetitions_ok h
  rw [hst]
  exact ⟨_, List.mem_append_right _ (List.mem_singleton_self _), rfl, rfl, rfl⟩

def reversedRange : List UInt8 := bytes "root ::= \"a\"\x7b2,1\x7d"

theorem reversed_sequence {r : GbnfState × List GrammarElement × ℕ}
    (hr : handleRepetitions st [] (bytes "root") ([] ++ [⟨.char, 97⟩]) ([] : List GrammarElement).length
      1 2 (some 1) = .ok r) (n : ℕ) :
    parseSequence none (n + 3) st (bytes "\"a\"\x7b2,1\x7d") (bytes "root") false [] 0 1 =
      .ok ([], r.1, r.2.1) := by
  have h1 : nextLexeme none false (bytes "\"a\"\x7b2,1\x7d") =
      .ok (.elements [⟨.char, 97⟩], bytes "\x7b2,1\x7d") := rfl
  have h2 : nextLexeme none false (bytes "\x7b2,1\x7d") = .ok (.times 2 (some 1), []) := rfl
  rw [parseSequence_elements h1, parseSequence_times h2 hr, parseSequence_stop rfl]

theorem reversed_rule {r : GbnfState × List GrammarElement × ℕ}
    (hr : handleRepetitions ⟨[bytes "root"], [], []⟩ [] (bytes "root") ([] ++ [⟨.char, 97⟩])
      ([] : List GrammarElement).length 1 2 (some 1) = .ok r) :
    parseRule none .empty reversedRange = .ok ([], r.1.addRule 0 (r.2.1 ++ [endRule])) := by
  have hname : parseName reversedRange = .ok (bytes "root", bytes " ::= \"a\"\x7b2,1\x7d") := rfl
  have hend : ([] : List UInt8).head? ≠ some '|'.toUInt8 := fun h => nomatch h
  have hspace : parseSpace true ((parseSpace false (bytes " ::= \"a\"\x7b2,1\x7d")).drop 3) =
      bytes "\"a\"\x7b2,1\x7d" := by decide
  have hid : GbnfState.empty.getSymbolId (bytes "root") = (0, ⟨[bytes "root"], [], []⟩) := by
    rw [getSymbolId, if_neg (by decide : bytes "root" ∉ GbnfState.empty.symbolIds)]
    rfl
  have hlen : (bytes "\"a\"\x7b2,1\x7d").length = 8 := by decide
  have hline : parseNewline [] = .ok [] := rfl
  refine parseRule_ok hname (by decide) ?_ hline
  rw [hspace, hid, hlen]
  exact parseAlternates_single (reversed_sequence hr 15) hend

theorem reversed_range_accepted : ∃ st s, parse none reversedRange = .ok st ∧
    s ∈ st.repetitions ∧ s.item = [⟨.char, 97⟩] ∧ s.minTimes = 2 ∧ s.maxTimes = some 1 := by
  obtain ⟨r, hr⟩ : ∃ r, handleRepetitions ⟨[bytes "root"], [], []⟩ [] (bytes "root")
      ([] ++ [⟨.char, 97⟩]) ([] : List GrammarElement).length 1 2 (some 1) = .ok r :=
    ⟨_, by rw [handleRepetitions, if_neg (by decide), if_neg (by decide)]⟩
  have hrules : parseRules none (17 + 1) .empty reversedRange =
      .ok (r.1.addRule 0 (r.2.1 ++ [endRule])) := by
    have hcons : reversedRange = 'r'.toUInt8 :: reversedRange.tail := rfl
    rw [hcons, parseRules, ← hcons]
    exact bind_eq_ok.2 ⟨_, reversed_rule hr, rfl⟩
  obtain ⟨hinv, hw⟩ := parseRules_inv empty_inv empty_written hrules
  have hchecks := checks_ok hinv hw fun i hi hgen => by
    rw [addRule_rule]
    split_ifs with hzero
    · exact List.append_ne_nil_of_right_ne_nil _ (List.cons_ne_nil _ _)
    · -- every symbol but the first one has been generated
      refine absurd ?_ hgen
      have hlen : [bytes "root"].length ≤ i := Nat.one_le_iff_ne_zero.mpr hzero
      exact handleRepetitions_generated hr hlen hi
  obtain ⟨s, hs, hitem, hmin, hmax⟩ := exists_logged hr
  refine ⟨r.1.addRule 0 (r.2.1 ++ [endRule]), s, ?_, hs, hitem, hmin, hmax⟩
  have htext : reversedRange.takeWhile (· ≠ 0) = reversedRange := by decide +kernel
  have hspace : parseSpace true reversedRange = reversedRange := by decide +kernel
  have hlength : reversedRange.length = 17 := by decide +kernel
  rw [parse]
  simp only [htext, hspace, hlength]
  exact bind_eq_ok.2 ⟨_, hrules, bind_eq_ok.2 ⟨_, hchecks, rfl⟩⟩

theorem reversed_range_derives :
    ¬ ((parse none reversedRange ≠ .error .depth ∧
      ∀ st, parse none reversedRange = .ok st →
        ∀ s ∈ st.repetitions, Repetition.Exact st s)) := by
  rintro ⟨-, h⟩
  obtain ⟨st, s, hst, hs, hitem, hmin, hmax⟩ := reversed_range_accepted
  obtain hord | hzero := (exact_iff (parse_inv hst).1.honest hs).mp (h st hst s hs)
  · have := hord 1 (by rw [hmax]; rfl)
    rw [hmin] at this
    exact absurd this (by decide)
  · have hin : [97] ∈ st.lang s.item := by
      rw [hitem]
      have hmatch : 97 ∈ matching ⟨.char, 97⟩ [] := by
        rw [matching, Set.mem_ofPred_eq, InClass]
        exact iff_of_true (Or.inl (by decide)) (by decide)
      exact .terminal hmatch .nil
    rw [hzero] at hin
    exact absurd hin (Language.notMem_zero _)

end Gbnf

end RocmFpx
