import RocmFpx.GbnfRepetition

/-!
Runs of the parser over a text. It comes to an end, every reference it writes is to a symbol it
knows, and each place where it has rewritten a repetition derives what `handle_repetitions` is said
to derive in the end.
-/

namespace RocmFpx

open Ebnf GrammarElement GrammarRules

namespace GbnfState

variable {st st' F : GbnfState} {es fs rule : List GrammarElement} {i id : ℕ} {name : List UInt8}

/-- The references among the elements are to symbols. -/
def Refers (st : GbnfState) (es : List GrammarElement) : Prop :=
  ∀ e ∈ es, e.type = .ruleRef → e.value < st.symbolIds.length

/-- The repetitions rewritten so far derive what they should, by the rules of every later state. -/
def Honest (st : GbnfState) : Prop :=
  ∀ s ∈ st.repetitions, s.minTimes ≤ Gbnf.maxRepetitionThreshold ∧
    (∀ m ∈ s.maxTimes, m ≤ Gbnf.maxRepetitionThreshold) ∧
      ∀ F, Keeps st F → F.lang s.emitted =
        reps (F.lang s.item) s.minTimes (Gbnf.derivedMax s.minTimes s.maxTimes)

/-- What holds of the parser between two rules or parts of a rule. -/
structure Inv (st : GbnfState) : Prop where
  bounded : st.Bounded
  refers : ∀ i, st.Refers (st.rules.getD i [])
  honest : st.Honest

/-- The parser has read a part of a rule, and written the rules of all symbols it has made. -/
structure Extends (st st' : GbnfState) : Prop where
  grows : Grows st st'
  inv : Inv st'
  written : ∀ i, st.symbolIds.length ≤ i → st'.Generated i → st'.rules.getD i [] ≠ []

theorem Refers.mono (h : st.Refers es) (hpre : st.symbolIds <+: st'.symbolIds) : st'.Refers es :=
  fun e he htype => (h e he htype).trans_le hpre.length_le

theorem Refers.append (he : st.Refers es) (hf : st.Refers fs) : st.Refers (es ++ fs) := by
  intro e hmem
  obtain hmem | hmem := List.mem_append.mp hmem
  · exact he e hmem
  · exact hf e hmem

theorem refers_nil : st.Refers [] := fun _ h => absurd h List.not_mem_nil

theorem refers_single (hid : id < st.symbolIds.length) : st.Refers [⟨.ruleRef, id⟩] := by
  intro e he _
  rw [List.mem_singleton.mp he]
  exact hid

theorem Honest.keeps (h : st.Honest) (hk : Keeps st st') (hr : st'.repetitions = st.repetitions) :
    st'.Honest := by
  intro s hs
  rw [hr] at hs
  obtain ⟨hmin, hmax, hlang⟩ := h s hs
  exact ⟨hmin, hmax, fun F hF => hlang F (hk.trans hF)⟩

theorem empty_inv : Inv .empty := by
  refine ⟨le_rfl, fun i e he => ?_, fun s hs => absurd hs List.not_mem_nil⟩
  rw [empty, List.getD_nil] at he
  exact absurd he List.not_mem_nil

theorem Extends.refl (h : Inv st) : Extends st st :=
  ⟨Grows.refl st, h, fun _ hi hgen => absurd hgen.lt (not_lt.mpr hi)⟩

theorem Extends.trans (h : Extends st st') (h' : Extends st' F) : Extends st F := by
  refine ⟨h.grows.trans h'.grows, h'.inv, fun i hi hgen => ?_⟩
  by_cases hlt : i < st'.symbolIds.length
  · have hgen' : st'.Generated i := by
      obtain ⟨name, hname, hmem⟩ := hgen
      obtain ⟨more, hmore⟩ := h'.grows.names
      rw [← hmore, List.getElem?_append_left hlt] at hname
      exact ⟨name, hname, hmem⟩
    rw [h'.grows.rules i hlt]
    exact h.written i hi hgen'
  · exact h'.written i (not_lt.mp hlt) hgen

/-! ## Symbols -/

theorem getSymbolId_lt (st : GbnfState) (name : List UInt8) :
    (st.getSymbolId name).1 < (st.getSymbolId name).2.symbolIds.length := by
  rw [getSymbolId, idOf]
  split_ifs with h
  · exact List.idxOf_lt_length_iff.mpr h
  · rw [List.idxOf_eq_length h, List.length_append, List.length_singleton]
    exact Nat.lt_succ_self _

theorem grows_getSymbolId (st : GbnfState) (name : List UInt8) : Grows st (st.getSymbolId name).2 := by
  rw [getSymbolId]
  split_ifs
  · exact Grows.refl st
  · exact ⟨List.prefix_append _ _, fun _ _ => rfl⟩

theorem getSymbolId_rules (st : GbnfState) (name : List UInt8) :
    (st.getSymbolId name).2.rules = st.rules ∧
      (st.getSymbolId name).2.repetitions = st.repetitions := by
  rw [getSymbolId]
  split_ifs
  · exact ⟨rfl, rfl⟩
  · exact ⟨rfl, rfl⟩

theorem Inv.getSymbolId (h : Inv st) (name : List UInt8) : Inv (st.getSymbolId name).2 := by
  have hgrows := grows_getSymbolId st name
  obtain ⟨hrules, hrep⟩ := getSymbolId_rules st name
  refine ⟨?_, fun i => ?_, h.honest.keeps hgrows.keeps hrep⟩
  · rw [Bounded, hrules]
    exact h.bounded.trans hgrows.names.length_le
  · rw [hrules]
    exact (h.refers i).mono hgrows.names

theorem Extends.getSymbolId (h : Inv st) (hname : ∀ c ∈ name, Gbnf.isWordChar c = true) :
    Extends st (st.getSymbolId name).2 := by
  refine ⟨grows_getSymbolId st name, h.getSymbolId name, fun i hi hgen => ?_⟩
  obtain ⟨other, hother, hmem⟩ := hgen
  rw [GbnfState.getSymbolId] at hother
  split_ifs at hother
  · exact absurd (List.getElem?_eq_some_iff.mp hother).1 (not_lt.mpr hi)
  · rw [List.getElem?_append_right hi] at hother
    obtain rfl := List.mem_singleton.mp (List.mem_of_getElem? hother)
    exact absurd (hname _ hmem) (by decide)

theorem Inv.generateSymbolId (h : Inv st) (baseName : List UInt8) :
    Inv (st.generateSymbolId baseName).2 :=
  ⟨h.bounded.generateSymbolId baseName,
    fun i => (h.refers i).mono (grows_generateSymbolId st baseName).names,
    h.honest.keeps (grows_generateSymbolId st baseName).keeps rfl⟩

/-- Writing the rule of a symbol that has none, or of a name in the text. -/
theorem Inv.addRule (h : Inv st) (hid : id < st.symbolIds.length)
    (hfree : st.Generated id → st.rules.getD id [] = []) (hrule : st.Refers rule) :
    Inv (st.addRule id rule) := by
  have hkeeps : Keeps st (st.addRule id rule) := by
    refine ⟨List.prefix_rfl, fun i hgen hne => ?_⟩
    rw [addRule_rule, if_neg]
    rintro rfl
    exact hne (hfree hgen)
  refine ⟨h.bounded.addRule hid rule, fun i => ?_, h.honest.keeps hkeeps rfl⟩
  rw [addRule_rule]
  split_ifs
  · exact hrule
  · exact h.refers i

end GbnfState

namespace Gbnf

open GbnfState

variable {vocab : Option (List UInt8 → Option ℕ)} {st st' F : GbnfState}
  {src pos ruleName prevRule : List UInt8} {rule item : List GrammarElement} {isNested noMax : Bool}
  {last : Option ℕ} {n ruleId lastSymStart nPrevRules minTimes : ℕ} {maxTimes : Option ℕ}

/-! ## Repetitions -/

theorem refers_refs (hlast : ∀ id ∈ last, id < st.symbolIds.length) : st.Refers (refs last) := by
  cases last with
  | none => exact refers_nil
  | some id => exact refers_single (hlast id rfl)

theorem addRecRules_extends (n : ℕ) (h : Inv st) (hitem : st.Refers item)
    (hlast : ∀ id ∈ last, id < st.symbolIds.length) :
    Extends st (addRecRules ruleName item noMax n st last).1 ∧
      ∀ id ∈ (addRecRules ruleName item noMax n st last).2,
        id < (addRecRules ruleName item noMax n st last).1.symbolIds.length := by
  induction n generalizing st last with
  | zero => exact ⟨Extends.refl h, hlast⟩
  | succ n ih =>
    rw [addRecRules]
    have hgrows := grows_generateSymbolId st ruleName
    have hlt := lt_generateSymbolId st ruleName
    have hnext : ∀ id ∈ (if noMax then some st.symbolIds.length else last),
        id < (st.generateSymbolId ruleName).2.symbolIds.length := by
      intro id hid
      split_ifs at hid
      · obtain rfl := Option.some.inj hid
        exact hlt
      · exact (hlast id hid).trans hlt
    have hrule : (st.generateSymbolId ruleName).2.Refers
        (recRule item (if noMax then some st.symbolIds.length else last)) := by
      refine ((hitem.mono hgrows.names).append (refers_refs hnext)).append ?_
      intro e he htype
      obtain rfl | he := List.mem_cons.mp he
      · nomatch htype
      · rw [List.mem_singleton.mp he] at htype
        nomatch htype
    have hinv := (h.generateSymbolId ruleName).addRule hlt
      (fun _ => h.bounded.rule_eq_nil le_rfl) hrule
    have hone : Extends st ((st.generateSymbolId ruleName).2.addRule st.symbolIds.length
        (recRule item (if noMax then some st.symbolIds.length else last))) := by
      refine ⟨hgrows.addRule le_rfl _, hinv, fun i hi hgen => ?_⟩
      have hle := hgen.lt
      change i < (st.generateSymbolId ruleName).2.symbolIds.length at hle
      rw [generateSymbolId_names] at hle
      obtain rfl : i = st.symbolIds.length := by omega
      rw [addRule_rule, if_pos rfl]
      exact recRule_ne_nil
    obtain ⟨hext, hid⟩ := ih hinv (hitem.mono hone.grows.names)
      (fun id hid => Option.some.inj hid ▸ hlt)
    exact ⟨hone.trans hext, hid⟩

/-- What holds of the rule under construction. -/
structure Underway (st : GbnfState) (rule : List GrammarElement) (lastSymStart : ℕ) : Prop where
  le_length : lastSymStart ≤ rule.length
  item : Segment (rule.drop lastSymStart)
  refers : st.Refers rule

theorem Underway.mono (h : Underway st rule lastSymStart) (hpre : st.symbolIds <+: st'.symbolIds) :
    Underway st' rule lastSymStart := ⟨h.le_length, h.item, h.refers.mono hpre⟩

theorem Underway.push {es : List GrammarElement} (h : Underway st rule lastSymStart)
    (hes : Segment es) (hrefers : st.Refers es) : Underway st (rule ++ es) rule.length := by
  refine ⟨by rw [List.length_append]; exact Nat.le_add_right _ _, ?_, h.refers.append hrefers⟩
  rw [List.drop_left]
  exact hes

theorem handleRepetitions_extends (h : Inv st) (hu : Underway st rule lastSymStart)
    (hmin : minTimes ≤ maxRepetitionThreshold) (hmax : ∀ m ∈ maxTimes, m ≤ maxRepetitionThreshold)
    {r : GbnfState × List GrammarElement × ℕ}
    (hr : handleRepetitions st pos ruleName rule lastSymStart nPrevRules minTimes maxTimes = .ok r) :
    Extends st r.1 ∧ Underway r.1 r.2.1 lastSymStart := by
  have hrew := handleRepetitions_spec hu.le_length hu.item hr
  obtain ⟨front, item, rfl, rfl⟩ : ∃ front item, rule = front ++ item ∧ lastSymStart = front.length :=
    ⟨_, _, (List.take_append_drop lastSymStart rule).symm,
      by rw [List.length_take, min_eq_left hu.le_length]⟩
  have hfront : st.Refers front := fun e he => hu.refers e (List.mem_append_left _ he)
  have hitem : st.Refers item := fun e he => hu.refers e (List.mem_append_right _ he)
  obtain ⟨hrule, hst⟩ := handleRepetitions_ok hr
  have hext : Extends st (optionalRules st ruleName item minTimes maxTimes).1 ∧
      ∀ id ∈ (optionalRules st ruleName item minTimes maxTimes).2,
        id < (optionalRules st ruleName item minTimes maxTimes).1.symbolIds.length :=
    addRecRules_extends _ h hitem fun id hid => nomatch hid
  obtain ⟨hext, hid⟩ := hext
  have hinv : Inv r.1 := by
    refine ⟨?_, ?_, ?_⟩
    · rw [hst]
      exact hext.inv.bounded
    · rw [hst]
      exact hext.inv.refers
    · intro s hs
      rw [hrew.logged] at hs
      obtain hs | hs := List.mem_append.mp hs
      · obtain ⟨h1, h2, h3⟩ := h.honest s hs
        exact ⟨h1, h2, fun F hF => h3 F (hrew.grows.keeps.trans hF)⟩
      · rw [List.mem_singleton.mp hs]
        exact ⟨hmin, hmax, hrew.lang⟩
  refine ⟨⟨hrew.grows, hinv, ?_⟩, hrew.le_length, hrew.segment, ?_⟩
  · rw [hst]
    exact hext.written
  · have hnames : st.symbolIds <+: r.1.symbolIds := hrew.grows.names
    rw [hrule]
    refine (hfront.mono hnames).append (Refers.append ?_ ?_)
    · intro e he
      obtain ⟨xs, hxs, he⟩ := List.mem_flatten.mp he
      rw [(List.mem_replicate.mp hxs).2] at he
      exact hitem.mono hnames e he
    · rw [hst]
      exact refers_refs hid

/-! ## Sequences and alternates -/

/-- What a run of `parse_alternates` has done: the rule is written last. -/
def Writes (st : GbnfState) (ruleId : ℕ) (st' : GbnfState) : Prop :=
  ∃ before rule, Extends st before ∧ before.Refers rule ∧ rule ≠ [] ∧ st' = before.addRule ruleId rule

theorem Extends.ofWrites (h : Inv st)
    (hw : Writes (st.generateSymbolId ruleName).2 st.symbolIds.length st') : Extends st st' := by
  obtain ⟨before, rule, hext, hrule, hne, rfl⟩ := hw
  have hlt := lt_generateSymbolId st ruleName
  have hgrows := (grows_generateSymbolId st ruleName).trans hext.grows
  have hfree : before.rules.getD st.symbolIds.length [] = [] := by
    rw [hext.grows.rules _ hlt]
    exact h.bounded.rule_eq_nil le_rfl
  refine ⟨hgrows.addRule le_rfl rule, ?_, fun i hi hgen => ?_⟩
  · exact hext.inv.addRule (hlt.trans_le hext.grows.names.length_le) (fun _ => hfree) hrule
  · rw [addRule_rule]
    split_ifs with heq
    · exact hne
    · refine hext.written i ?_ hgen
      rw [generateSymbolId_names]
      omega

/-- The runs of the three functions with the same fuel. -/
structure RunsSound (vocab : Option (List UInt8 → Option ℕ)) (n : ℕ) : Prop where
  sequence : ∀ {st src ruleName isNested rule lastSymStart nPrevRules r}, GbnfState.Inv st →
    Underway st rule lastSymStart →
      parseSequence vocab n st src ruleName isNested rule lastSymStart nPrevRules = .ok r →
        Extends st r.2.1 ∧ r.2.1.Refers r.2.2
  loop : ∀ {st src ruleName isNested rule r}, GbnfState.Inv st → st.Refers rule →
    alternatesFrom vocab n st src ruleName isNested rule = .ok r →
      Extends st r.2.1 ∧ r.2.1.Refers r.2.2
  alternates : ∀ {st src ruleName ruleId isNested r}, GbnfState.Inv st →
    parseAlternates vocab n st src ruleName ruleId isNested = .ok r → Writes st ruleId r.2

theorem runsSound (n : ℕ) : RunsSound vocab n := by
  induction n with
  | zero =>
    refine ⟨?_, ?_, ?_⟩
    · intro st src ruleName isNested rule lastSymStart nPrevRules r _ _ h
      rw [parseSequence] at h
      nomatch h
    · intro st src ruleName isNested rule r _ _ h
      rw [alternatesFrom] at h
      nomatch h
    · intro st src ruleName ruleId isNested r _ h
      rw [parseAlternates] at h
      nomatch h
  | succ n ih =>
    refine ⟨?_, ?_, ?_⟩
    · intro st src ruleName isNested rule lastSymStart nPrevRules r hinv hu h
      rw [parseSequence] at h
      obtain ⟨⟨lexeme, pos⟩, hlex, h⟩ := bind_eq_ok.1 h
      cases lexeme with
      | stop =>
        cases h
        exact ⟨Extends.refl hinv, hu.refers⟩
      | elements es =>
        have hes := nextLexeme_terminals hlex
        refine ih.sequence hinv (hu.push hes.segment ?_) h
        exact fun e he href => absurd href (hes.noRef e he)
      | name name =>
        have hext := Extends.getSymbolId hinv (nextLexeme_name hlex)
        have hu' := (hu.mono hext.grows.names).push (segment_ref _)
          (refers_single (getSymbolId_lt st name))
        obtain ⟨hrest, hrule⟩ := ih.sequence hext.inv hu' h
        exact ⟨hext.trans hrest, hrule⟩
      | group =>
        obtain ⟨⟨pos', st'⟩, halt, h⟩ := bind_eq_ok.1 h
        obtain ⟨pos'', hpos, h⟩ := bind_eq_ok.1 h
        have hext : Extends st st' :=
          Extends.ofWrites hinv (ih.alternates (hinv.generateSymbolId ruleName) halt)
        have hlt : st.symbolIds.length < st'.symbolIds.length := by
          obtain ⟨before, rule', hext', -, -, rfl⟩ :=
            ih.alternates (hinv.generateSymbolId ruleName) halt
          exact (lt_generateSymbolId st ruleName).trans_le hext'.grows.names.length_le
        have hu' := (hu.mono hext.grows.names).push (segment_ref _) (refers_single hlt)
        obtain ⟨hrest, hrule⟩ := ih.sequence hext.inv hu' h
        exact ⟨hext.trans hrest, hrule⟩
      | times minTimes maxTimes =>
        obtain ⟨⟨st', rule', n'⟩, hrep, h⟩ := bind_eq_ok.1 h
        obtain ⟨hmin, hmax⟩ := nextLexeme_times hlex
        obtain ⟨hext, hu'⟩ := handleRepetitions_extends hinv hu hmin hmax hrep
        obtain ⟨hrest, hrule⟩ := ih.sequence hext.inv hu' h
        exact ⟨hext.trans hrest, hrule⟩
    · intro st src ruleName isNested rule r hinv hrefers h
      rw [alternatesFrom] at h
      obtain ⟨-, h⟩ | ⟨-, h⟩ := ite_eq_iff.mp h
      · obtain ⟨⟨pos', st', rule'⟩, hseq, h⟩ := bind_eq_ok.1 h
        have hu : Underway st (rule ++ [⟨.alt, 0⟩]) (rule.length + 1) := by
          refine ⟨by rw [List.length_append, List.length_singleton], ?_, hrefers.append ?_⟩
          · rw [List.drop_eq_nil_of_le (by rw [List.length_append, List.length_singleton])]
            exact segment_nil
          · intro e he htype
            rw [List.mem_singleton.mp he] at htype
            nomatch htype
        obtain ⟨hext, hrule⟩ := ih.sequence hinv hu hseq
        obtain ⟨hrest, hrule'⟩ := ih.loop hext.inv hrule h
        exact ⟨hext.trans hrest, hrule'⟩
      · cases h
        exact ⟨Extends.refl hinv, hrefers⟩
    · intro st src ruleName ruleId isNested r hinv h
      rw [parseAlternates] at h
      obtain ⟨⟨pos', st', rule'⟩, hseq, h⟩ := bind_eq_ok.1 h
      obtain ⟨⟨pos'', st'', rule''⟩, hloop, h⟩ := bind_eq_ok.1 h
      cases h
      have hu : Underway st [] 0 := ⟨le_rfl, segment_nil, refers_nil⟩
      obtain ⟨hext, hrule⟩ := ih.sequence hinv hu hseq
      obtain ⟨hrest, hrule'⟩ := ih.loop hext.inv hrule hloop
      refine ⟨st'', rule'' ++ [endRule], hext.trans hrest, hrule'.append ?_, ?_, rfl⟩
      · intro e he htype
        rw [List.mem_singleton.mp he] at htype
        nomatch htype
      · exact List.append_ne_nil_of_right_ne_nil _ (List.cons_ne_nil _ _)

/-- The runs of the three functions read on, and have an end. -/
structure RunsEnd (vocab : Option (List UInt8 → Option ℕ)) (n : ℕ) : Prop where
  sequence : ∀ {st src ruleName isNested rule lastSymStart nPrevRules},
    (∀ r, parseSequence vocab n st src ruleName isNested rule lastSymStart nPrevRules = .ok r →
      r.1.length ≤ src.length) ∧
    (2 * src.length + 1 ≤ n →
      parseSequence vocab n st src ruleName isNested rule lastSymStart nPrevRules ≠ .error .depth)
  loop : ∀ {st src ruleName isNested rule},
    (∀ r, alternatesFrom vocab n st src ruleName isNested rule = .ok r → r.1.length ≤ src.length) ∧
    (2 * src.length + 1 ≤ n →
      alternatesFrom vocab n st src ruleName isNested rule ≠ .error .depth)
  alternates : ∀ {st src ruleName ruleId isNested},
    (∀ r, parseAlternates vocab n st src ruleName ruleId isNested = .ok r → r.1.length ≤ src.length) ∧
    (2 * src.length + 2 ≤ n →
      parseAlternates vocab n st src ruleName ruleId isNested ≠ .error .depth)

theorem handleRepetitions_ne_depth : handleRepetitions st pos ruleName rule lastSymStart nPrevRules
    minTimes maxTimes ≠ .error .depth := by
  rw [handleRepetitions]
  exact ite_ne_depth (fun h => by cases h)
    (ite_ne_depth (fun h => by cases h) fun h => by cases h)

theorem runsEnd (n : ℕ) : RunsEnd vocab n := by
  induction n with
  | zero =>
    refine ⟨⟨fun r h => ?_, fun h => absurd h (by omega)⟩, ⟨fun r h => ?_, fun h => absurd h (by omega)⟩,
      ⟨fun r h => ?_, fun h => absurd h (by omega)⟩⟩
    · rw [parseSequence] at h
      nomatch h
    · rw [alternatesFrom] at h
      nomatch h
    · rw [parseAlternates] at h
      nomatch h
  | succ n ih =>
    refine ⟨@fun st src ruleName isNested rule _ _ => ⟨fun r h => ?_, fun hn => ?_⟩,
      @fun st src ruleName isNested rule => ⟨fun r h => ?_, fun hn => ?_⟩,
      @fun st src ruleName ruleId isNested => ⟨fun r h => ?_, fun hn => ?_⟩⟩
    · rw [parseSequence] at h
      obtain ⟨⟨lexeme, pos⟩, hlex, h⟩ := bind_eq_ok.1 h
      have hle : pos.length ≤ src.length := by
        obtain hlt | heq := nextLexeme_length hlex
        · exact hlt.le
        · exact (congrArg List.length (congrArg Prod.snd heq)).le
      cases lexeme with
      | stop =>
        cases h
        exact hle
      | elements es => exact (ih.sequence.1 _ h).trans hle
      | name name => exact (ih.sequence.1 _ h).trans hle
      | group =>
        obtain ⟨⟨pos', st'⟩, halt, h⟩ := bind_eq_ok.1 h
        obtain ⟨pos'', hpos, h⟩ := bind_eq_ok.1 h
        have h1 : pos'.length ≤ pos.length := ih.alternates.1 _ halt
        have h2 := (ih.sequence.1 _ h).trans (parseSpace_length _ _)
        exact h2.trans ((expect_length hpos).le.trans (h1.trans hle))
      | times minTimes maxTimes =>
        obtain ⟨⟨st', rule', n'⟩, hrep, h⟩ := bind_eq_ok.1 h
        exact (ih.sequence.1 _ h).trans hle
    · rw [parseSequence]
      refine bind_ne_depth nextLexeme_ne_depth fun ⟨lexeme, pos⟩ hlex => ?_
      have hcases := nextLexeme_length hlex
      cases lexeme with
      | stop => exact fun h => nomatch h
      | elements es =>
        have hlt := hcases.resolve_right fun h => nomatch h
        exact ih.sequence.2 (by simp only at hlt; omega)
      | name name =>
        have hlt := hcases.resolve_right fun h => nomatch h
        exact ih.sequence.2 (by simp only at hlt; omega)
      | group =>
        have hlt := hcases.resolve_right fun h => nomatch h
        simp only at hlt
        refine bind_ne_depth (ih.alternates.2 (by omega)) fun ⟨pos', st'⟩ halt => ?_
        have h1 : pos'.length ≤ pos.length := ih.alternates.1 _ halt
        refine bind_ne_depth expect_ne_depth fun pos'' hpos => ih.sequence.2 ?_
        have h2 : pos''.length < pos'.length := expect_length hpos
        have h3 := parseSpace_length isNested pos''
        omega
      | times minTimes maxTimes =>
        have hlt := hcases.resolve_right fun h => nomatch h
        simp only at hlt
        refine bind_ne_depth handleRepetitions_ne_depth fun ⟨st', rule', n'⟩ hrep => ?_
        exact ih.sequence.2 (by omega)
    · rw [alternatesFrom] at h
      obtain ⟨-, h⟩ | ⟨-, h⟩ := ite_eq_iff.mp h
      · obtain ⟨⟨pos', st', rule'⟩, hseq, h⟩ := bind_eq_ok.1 h
        have h1 := ih.sequence.1 _ hseq
        refine (ih.loop.1 _ h).trans (h1.trans ((parseSpace_length _ _).trans ?_))
        rw [List.length_tail]
        exact Nat.sub_le _ _
      · cases h
        exact le_rfl
    · rw [alternatesFrom]
      split_ifs with hbar
      · have hpos : 0 < src.length := by
          refine List.length_pos_iff.mpr fun h => ?_
          rw [h] at hbar
          nomatch hbar
        have h0 := parseSpace_length true src.tail
        rw [List.length_tail] at h0
        refine bind_ne_depth (ih.sequence.2 (by omega)) fun ⟨pos', st', rule'⟩ hseq => ?_
        have h1 : pos'.length ≤ (parseSpace true src.tail).length := ih.sequence.1 _ hseq
        exact ih.loop.2 (by omega)
      · exact fun h => nomatch h
    · rw [parseAlternates] at h
      obtain ⟨⟨pos', st', rule'⟩, hseq, h⟩ := bind_eq_ok.1 h
      obtain ⟨⟨pos'', st'', rule''⟩, hloop, h⟩ := bind_eq_ok.1 h
      cases h
      exact (ih.loop.1 _ hloop).trans (ih.sequence.1 _ hseq)
    · rw [parseAlternates]
      refine bind_ne_depth (ih.sequence.2 (by omega)) fun ⟨pos', st', rule'⟩ hseq => ?_
      have h1 : pos'.length ≤ src.length := ih.sequence.1 _ hseq
      refine bind_ne_depth (ih.loop.2 (by omega)) fun ⟨pos'', st'', rule''⟩ hloop => ?_
      exact fun h => nomatch h

end Gbnf

end RocmFpx
