import RocmFpx.Ebnf
import RocmFpx.GbnfParser
import RocmFpx.GrammarSymbols

/-!
The parts of a rule that the parser writes. A part holds no end of a sequence and does not begin
with a modifier, so that the form of two parts in a row is the forms of the two in a row.
-/

namespace RocmFpx

namespace GrammarRules

open GrammarElement

/-- A part of a sequence of elements. -/
structure Segment (es : List GrammarElement) : Prop where
  inside : ∀ e ∈ es, e.isEndOfSequence = false
  starts : (es.headD endRule).isModifier = false

variable {es fs : List GrammarElement} {e : GrammarElement} {chr : ℕ}

theorem segment_nil : Segment [] := ⟨fun _ h => absurd h List.not_mem_nil, rfl⟩

theorem Segment.append (he : Segment es) (hf : Segment fs) : Segment (es ++ fs) := by
  refine ⟨fun x hx => ?_, ?_⟩
  · obtain hx | hx := List.mem_append.mp hx
    · exact he.inside x hx
    · exact hf.inside x hx
  · cases es with
    | nil => exact hf.starts
    | cons x es => exact he.starts

theorem segment_ref (id : ℕ) : Segment [⟨.ruleRef, id⟩] :=
  ⟨fun _ hx => List.mem_singleton.mp hx ▸ rfl, rfl⟩

theorem Segment.replicate (he : Segment es) (k : ℕ) : Segment (List.replicate k es).flatten := by
  induction k with
  | zero => exact segment_nil
  | succ k ih =>
    rw [List.replicate_succ, List.flatten_cons]
    exact he.append ih

/-! ## Forms of parts -/

theorem inClassTail_append (hf : (fs.headD endRule).isModifier = false) :
    InClassTail chr (es ++ fs) ↔ InClassTail chr es := by
  induction es with
  | nil =>
    cases fs with
    | nil => rfl
    | cons f fs =>
      obtain ⟨hupper, halt⟩ := Bool.or_eq_false_iff.mp hf
      have hne : ¬ f.type = .charAlt := of_decide_eq_false halt
      have hne' : ¬ f.type = .charRngUpper := of_decide_eq_false hupper
      have hnil : InClassTail chr [] = False := rfl
      rw [List.nil_append, hnil, InClassTail, if_neg hne, if_neg hne']
  | cons e es ih =>
    rw [List.cons_append, InClassTail, InClassTail, ih]
    cases es with
    | nil =>
      -- behind the last element no upper end of a range follows
      have hhead : inRange chr e (fs.headD endRule) = inRange chr e endRule := by
        have hne : (fs.headD endRule).type ≠ .charRngUpper := by
          intro h
          rw [isModifier, h] at hf
          exact absurd hf (by decide)
        rw [inRange, inRange, if_neg hne, if_neg (by decide)]
      rw [List.nil_append, hhead]
      rfl
    | cons x es => rfl

theorem inClass_append (hf : (fs.headD endRule).isModifier = false) :
    InClass chr e (es ++ fs) ↔ InClass chr e es := by
  rw [InClass, InClass, inClassTail_append hf]
  cases es with
  | nil =>
    have hne : (fs.headD endRule).type ≠ .charRngUpper := by
      intro h
      rw [isModifier, h] at hf
      exact absurd hf (by decide)
    rw [List.nil_append, inRange, inRange, if_neg hne]
    rfl
  | cons x es => rfl

theorem matching_append (hf : (fs.headD endRule).isModifier = false) :
    matching e (es ++ fs) = matching e es := by
  ext chr
  rw [matching, matching, Set.mem_ofPred_eq, Set.mem_ofPred_eq, inClass_append hf]

theorem symbols_append (he : ∀ x ∈ es, x.isEndOfSequence = false)
    (hf : (fs.headD endRule).isModifier = false) : symbols (es ++ fs) = symbols es ++ symbols fs := by
  induction es with
  | nil => rfl
  | cons e es ih =>
    have hin := he e List.mem_cons_self
    have hrest := ih fun x hx => he x (List.mem_cons_of_mem _ hx)
    rw [List.cons_append, symbols, symbols, hrest, matching_append hf]
    simp only [hin, Bool.false_eq_true, if_false]
    split_ifs
    · rfl
    · rfl
    · rfl
    · rfl

theorem Segment.symbols_append (he : Segment es) (hf : Segment fs) :
    symbols (es ++ fs) = symbols es ++ symbols fs :=
  GrammarRules.symbols_append he.inside hf.starts

theorem Segment.symbols_replicate (he : Segment es) (k : ℕ) :
    symbols (List.replicate k es).flatten = (List.replicate k (symbols es)).flatten := by
  induction k with
  | zero => rfl
  | succ k ih =>
    rw [List.replicate_succ, List.flatten_cons, List.replicate_succ, List.flatten_cons,
      he.symbols_append (he.replicate k), ih]

/-! ## Alternatives of a rule -/

/-- The forms of the alternatives in an array of elements. -/
def altsIn (es : List GrammarElement) : Set (List (Sym ℕ ℕ)) :=
  {α | ∃ pre e rest, ⟨.alt, 0⟩ :: es = pre ++ e :: rest ∧ e.type = .alt ∧ α = symbols rest}

theorem alts_eq (rules : GrammarRules) (rule : ℕ) : alts rules rule = altsIn (rules.getD rule []) := by
  rw [alts, altsIn, List.getD_eq_getElem?_getD]

theorem not_modifier_of_end (h : e.isEndOfSequence = true) : e.isModifier = false := by
  obtain ⟨t, v⟩ := e
  cases t
  all_goals first
    | rfl
    | exact absurd h Bool.false_ne_true

theorem symbols_before_end (he : ∀ x ∈ es, x.isEndOfSequence = false) (h : e.isEndOfSequence = true) :
    symbols (es ++ e :: fs) = symbols es := by
  have hmod : ((e :: fs).headD endRule).isModifier = false := not_modifier_of_end h
  rw [GrammarRules.symbols_append he hmod, symbols, if_pos h, List.append_nil]

theorem symbols_end_congr {e' : GrammarElement} {fs' : List GrammarElement}
    (h : e.isEndOfSequence = true) (h' : e'.isEndOfSequence = true) :
    symbols (es ++ e :: fs) = symbols (es ++ e' :: fs') := by
  have hmod : ((e :: fs).headD endRule).isModifier = false := not_modifier_of_end h
  have hmod' : ((e' :: fs').headD endRule).isModifier = false := not_modifier_of_end h'
  induction es with
  | nil => rw [List.nil_append, List.nil_append, symbols, symbols, if_pos h, if_pos h']
  | cons x es ih =>
    rw [List.cons_append, List.cons_append, symbols, symbols, ih, matching_append hmod,
      matching_append hmod']

theorem Segment.altsIn_end (he : Segment es) : altsIn (es ++ [endRule]) = {symbols es} := by
  ext α
  constructor
  · rintro ⟨pre, e, rest, hsplit, halt, rfl⟩
    cases pre with
    | nil =>
      obtain ⟨-, rfl⟩ := List.cons.inj hsplit
      exact symbols_before_end he.inside rfl
    | cons x pre =>
      have hmem : e ∈ es ++ [endRule] := by
        rw [(List.cons.inj hsplit).2]
        exact List.mem_append_right _ List.mem_cons_self
      obtain hmem | hmem := List.mem_append.mp hmem
      · have := he.inside e hmem
        rw [isEndOfSequence, halt] at this
        exact absurd this (by decide)
      · rw [List.mem_singleton.mp hmem] at halt
        exact absurd halt (by decide)
  · rintro rfl
    exact ⟨[], ⟨.alt, 0⟩, _, rfl, rfl, (symbols_before_end he.inside rfl).symm⟩

theorem altsIn_append : altsIn (es ++ ⟨.alt, 0⟩ :: fs) = altsIn (es ++ [endRule]) ∪ altsIn fs := by
  ext α
  constructor
  · rintro ⟨pre, e, rest, hsplit, halt, rfl⟩
    rw [← List.cons_append, List.append_eq_append_iff] at hsplit
    obtain ⟨c, rfl, hrest⟩ | ⟨c, hpre, hrest⟩ := hsplit
    · exact Or.inr ⟨c, e, rest, hrest, halt, rfl⟩
    · cases c with
      | nil => exact Or.inr ⟨[], e, rest, hrest.symm, halt, rfl⟩
      | cons x c =>
        obtain ⟨rfl, rfl⟩ := List.cons.inj hrest
        refine Or.inl ⟨pre, e, c ++ [endRule], ?_, halt, symbols_end_congr rfl rfl⟩
        rw [← List.cons_append, hpre, List.append_assoc, List.cons_append]
  · rintro (⟨pre, e, rest, hsplit, halt, rfl⟩ | ⟨pre, e, rest, hsplit, halt, rfl⟩)
    · rw [← List.cons_append, List.append_eq_append_iff] at hsplit
      obtain ⟨c, rfl, hrest⟩ | ⟨c, hpre, hrest⟩ := hsplit
      · -- the end of the rule is no `ALT`
        have hmem : e ∈ [endRule] := by
          rw [hrest]
          exact List.mem_append_right _ List.mem_cons_self
        rw [List.mem_singleton.mp hmem] at halt
        exact absurd halt (by decide)
      · cases c with
        | nil =>
          obtain ⟨rfl, -⟩ := List.cons.inj hrest
          exact absurd halt (by decide)
        | cons x c =>
          obtain ⟨rfl, rfl⟩ := List.cons.inj hrest
          refine ⟨pre, e, c ++ ⟨.alt, 0⟩ :: fs, ?_, halt, symbols_end_congr rfl rfl⟩
          rw [← List.cons_append, hpre, List.append_assoc, List.cons_append]
    · refine ⟨⟨.alt, 0⟩ :: es ++ pre, e, rest, ?_, halt, rfl⟩
      rw [← List.cons_append, hsplit, List.append_assoc]

end GrammarRules

namespace Gbnf

open GrammarElement GrammarRules

/-! ## What a step writes -/

variable {n : ℕ} {type : Gretype} {src rest : List UInt8} {isNested : Bool}
  {vocab : Option (List UInt8 → Option ℕ)}

theorem parseUpper_type {r : List GrammarElement × List UInt8} (h : parseUpper src = .ok r) :
    ∀ e ∈ r.1, e.type = .charRngUpper := by
  cases src with
  | nil =>
    cases h
    exact fun e he => absurd he List.not_mem_nil
  | cons c pos =>
    rw [parseUpper] at h
    split_ifs at h
    · obtain ⟨v, hv, h⟩ := bind_eq_ok.1 h
      cases h
      exact fun e he => List.mem_singleton.mp he ▸ rfl
    · cases h
      exact fun e he => absurd he List.not_mem_nil

theorem parseClass_type {r : List GrammarElement × List UInt8} (h : parseClass n type src = .ok r) :
    ∀ e ∈ r.1, e.type = type ∨ e.type = .charAlt ∨ e.type = .charRngUpper := by
  induction n generalizing src type r with
  | zero => nomatch h
  | succ n ih =>
    cases src with
    | nil => nomatch h
    | cons c pos =>
      rw [parseClass] at h
      split_ifs at h
      · cases h
        exact fun e he => absurd he List.not_mem_nil
      · obtain ⟨v, hv, h⟩ := bind_eq_ok.1 h
        obtain ⟨u, hu, h⟩ := bind_eq_ok.1 h
        obtain ⟨es, hes, h⟩ := bind_eq_ok.1 h
        cases h
        intro e he
        obtain rfl | he := List.mem_cons.mp he
        · exact Or.inl rfl
        · obtain he | he := List.mem_append.mp he
          · exact Or.inr (Or.inr (parseUpper_type hu e he))
          · obtain h | h := ih hes e he
            · exact Or.inr (Or.inl h)
            · exact Or.inr h

theorem parseClass_head {r : List GrammarElement × List UInt8} (h : parseClass n type src = .ok r) :
    r.1 = [] ∨ (r.1.headD endRule).type = type := by
  cases n with
  | zero => nomatch h
  | succ n =>
    cases src with
    | nil => nomatch h
    | cons c pos =>
      rw [parseClass] at h
      split_ifs at h
      · cases h
        exact Or.inl rfl
      · obtain ⟨v, hv, h⟩ := bind_eq_ok.1 h
        obtain ⟨u, hu, h⟩ := bind_eq_ok.1 h
        obtain ⟨es, hes, h⟩ := bind_eq_ok.1 h
        cases h
        exact Or.inr rfl

/-- A part without references. -/
structure Terminals (es : List GrammarElement) : Prop where
  segment : Segment es
  noRef : ∀ e ∈ es, e.type ≠ .ruleRef

theorem terminals_of_type {es : List GrammarElement} (htype : type = .char ∨ type = .charNot)
    (hes : ∀ e ∈ es, e.type = type ∨ e.type = .charAlt ∨ e.type = .charRngUpper)
    (hhead : es = [] ∨ (es.headD endRule).type = type) : Terminals es := by
  have hcases : ∀ e ∈ es, e.type = .char ∨ e.type = .charNot ∨ e.type = .charAlt ∨
      e.type = .charRngUpper := by
    intro e he
    obtain h | h := hes e he
    · obtain rfl | rfl := htype
      · exact Or.inl h
      · exact Or.inr (Or.inl h)
    · exact Or.inr (Or.inr h)
  refine ⟨⟨fun e he => ?_, ?_⟩, fun e he => ?_⟩
  · obtain h | h | h | h := hcases e he
    all_goals
      rw [isEndOfSequence, h]
      rfl
  · obtain rfl | h := hhead
    · rfl
    · obtain rfl | rfl := htype
      all_goals
        rw [isModifier, h]
        rfl
  · obtain h | h | h | h := hcases e he
    all_goals
      rw [h]
      intro h
      cases h

theorem parseBrackets_terminals {r : List GrammarElement × List UInt8}
    (h : parseBrackets src = .ok r) : Terminals r.1 := by
  rw [parseBrackets] at h
  split_ifs at h
  · exact terminals_of_type (Or.inr rfl) (parseClass_type h) (parseClass_head h)
  · exact terminals_of_type (Or.inl rfl) (parseClass_type h) (parseClass_head h)

theorem terminals_chars (values : List ℕ) : Terminals (values.map (GrammarElement.mk .char)) := by
  refine ⟨⟨fun e he => ?_, ?_⟩, fun e he => ?_⟩
  · obtain ⟨v, -, rfl⟩ := List.mem_map.mp he
    rfl
  · cases values with
    | nil => rfl
    | cons v values => rfl
  · obtain ⟨v, -, rfl⟩ := List.mem_map.mp he
    exact fun h => nomatch h

theorem terminals_single {e : GrammarElement} (h : e.isEndOfSequence = false)
    (hmod : e.isModifier = false) (href : e.type ≠ .ruleRef) : Terminals [e] :=
  ⟨⟨fun _ hx => List.mem_singleton.mp hx ▸ h, hmod⟩, fun _ hx => List.mem_singleton.mp hx ▸ href⟩

theorem nextLexeme_terminals {es : List GrammarElement}
    (h : nextLexeme vocab isNested src = .ok (.elements es, rest)) : Terminals es := by
  cases src with
  | nil => cases h
  | cons c pos =>
    rw [nextLexeme] at h
    obtain ⟨-, h⟩ | ⟨-, h⟩ := ite_eq_iff.mp h
    · obtain ⟨x, hx, h⟩ := bind_eq_ok.1 h
      cases h
      exact terminals_chars x.1
    obtain ⟨-, h⟩ | ⟨-, h⟩ := ite_eq_iff.mp h
    · obtain ⟨x, hx, h⟩ := bind_eq_ok.1 h
      cases h
      exact parseBrackets_terminals hx
    iterate 2
      obtain ⟨-, h⟩ | ⟨-, h⟩ := ite_eq_iff.mp h
      · obtain ⟨x, hx, h⟩ := bind_eq_ok.1 h
        cases h
        exact terminals_single rfl rfl fun h => by cases h
    obtain ⟨-, h⟩ | ⟨-, h⟩ := ite_eq_iff.mp h
    · obtain ⟨x, hx, h⟩ := bind_eq_ok.1 h
      cases h
    obtain ⟨-, h⟩ | ⟨-, h⟩ := ite_eq_iff.mp h
    · cases h
    obtain ⟨-, h⟩ | ⟨-, h⟩ := ite_eq_iff.mp h
    · cases h
      exact terminals_single rfl rfl fun h => by cases h
    iterate 3
      obtain ⟨-, h⟩ | ⟨-, h⟩ := ite_eq_iff.mp h
      · cases h
    obtain ⟨-, h⟩ | ⟨-, h⟩ := ite_eq_iff.mp h
    · obtain ⟨x, hx, h⟩ := bind_eq_ok.1 h
      cases h
    · cases h

theorem nextLexeme_name {name : List UInt8}
    (h : nextLexeme vocab isNested src = .ok (.name name, rest)) : ∀ c ∈ name, isWordChar c = true := by
  cases src with
  | nil => cases h
  | cons c pos =>
    rw [nextLexeme] at h
    iterate 4
      obtain ⟨-, h⟩ | ⟨-, h⟩ := ite_eq_iff.mp h
      · obtain ⟨x, hx, h⟩ := bind_eq_ok.1 h
        cases h
    obtain ⟨-, h⟩ | ⟨-, h⟩ := ite_eq_iff.mp h
    · obtain ⟨x, hx, h⟩ := bind_eq_ok.1 h
      cases h
      simp only [parseName] at hx
      split_ifs at hx
      cases hx
      exact fun d hd => List.mem_takeWhile_imp hd
    iterate 5
      obtain ⟨-, h⟩ | ⟨-, h⟩ := ite_eq_iff.mp h
      · cases h
    obtain ⟨-, h⟩ | ⟨-, h⟩ := ite_eq_iff.mp h
    · obtain ⟨x, hx, h⟩ := bind_eq_ok.1 h
      cases h
    · cases h

theorem nextLexeme_times {minTimes : ℕ} {maxTimes : Option ℕ}
    (h : nextLexeme vocab isNested src = .ok (.times minTimes maxTimes, rest)) :
    minTimes ≤ maxRepetitionThreshold ∧ ∀ m ∈ maxTimes, m ≤ maxRepetitionThreshold := by
  cases src with
  | nil => cases h
  | cons c pos =>
    rw [nextLexeme] at h
    iterate 5
      obtain ⟨-, h⟩ | ⟨-, h⟩ := ite_eq_iff.mp h
      · obtain ⟨x, hx, h⟩ := bind_eq_ok.1 h
        cases h
    iterate 2
      obtain ⟨-, h⟩ | ⟨-, h⟩ := ite_eq_iff.mp h
      · cases h
    obtain ⟨-, h⟩ | ⟨-, h⟩ := ite_eq_iff.mp h
    · cases h
      exact ⟨by decide, fun m hm => by cases hm⟩
    obtain ⟨-, h⟩ | ⟨-, h⟩ := ite_eq_iff.mp h
    · cases h
      exact ⟨by decide, fun m hm => by cases hm⟩
    obtain ⟨-, h⟩ | ⟨-, h⟩ := ite_eq_iff.mp h
    · cases h
      exact ⟨by decide, fun m hm => Option.some.inj hm ▸ by decide⟩
    obtain ⟨-, h⟩ | ⟨-, h⟩ := ite_eq_iff.mp h
    · obtain ⟨x, hx, h⟩ := bind_eq_ok.1 h
      cases h
      simp only [parseTimes] at hx
      split_ifs at hx
      · cases hx
      · obtain ⟨ds, hds, hx⟩ := bind_eq_ok.1 hx
        obtain ⟨m, -, hx⟩ := bind_eq_ok.1 hx
        obtain ⟨y, hy, hx⟩ := bind_eq_ok.1 hx
        split_ifs at hx with hmin
        · cases hx
        · cases hx
          refine ⟨not_lt.mp hmin, fun k hk => ?_⟩
          exact of_decide_eq_true (Option.filter_eq_some_iff.mp hk).2
    · cases h

end Gbnf

end RocmFpx
