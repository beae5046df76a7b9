import RocmFpx.Grammar
import RocmFpx.LeftmostGrammar

/-!
What the arrays of a grammar mean: each alternative of a rule as a form of references and
terminals, each stack as the form that its pointers still have before them. Expanding a stack
replaces the leftmost reference of its form, and matching a character takes its first terminal.
-/

namespace RocmFpx

namespace GrammarElement

def isModifier (e : GrammarElement) : Bool := e.type = .charRngUpper || e.type = .charAlt

end GrammarElement

namespace GrammarRules

open GrammarElement

variable (rules : GrammarRules)

/-! ## Forms -/

/-- A character is among the further characters of a class. -/
def InClassTail (chr : ℕ) : List GrammarElement → Prop
  | [] => False
  | e :: es =>
    if e.type = .charAlt then inRange chr e (es.headD endRule) ∨ InClassTail chr es
    else if e.type = .charRngUpper then InClassTail chr es
    else False

/-- A character is among those of the class that begins with `e`. -/
def InClass (chr : ℕ) (e : GrammarElement) (es : List GrammarElement) : Prop :=
  inRange chr e (es.headD endRule) ∨ InClassTail chr es

/-- The characters that match: those of the class, or all others where it is inverted. -/
def matching (e : GrammarElement) (es : List GrammarElement) : Set ℕ :=
  {chr | InClass chr e es ↔ e.type ≠ .charNot}

/-- The form of an alternative; no character matches a token. -/
def symbols : List GrammarElement → List (Sym ℕ ℕ)
  | [] => []
  | e :: es =>
    if e.isEndOfSequence then []
    else if e.type = .ruleRef then .ref e.value :: symbols es
    else if e.isChar then .terminal (matching e es) :: symbols es
    else if e.isToken then .terminal ∅ :: symbols es
    else symbols es

/-- An alternative of a rule is what stands at its start or behind an `ALT`. -/
def alts (rule : ℕ) : Set (List (Sym ℕ ℕ)) :=
  {α | ∃ pre e rest, ⟨.alt, 0⟩ :: (rules[rule]?).getD [] = pre ++ e :: rest ∧ e.type = .alt ∧
    α = symbols rest}

def form (stack : GrammarStack) : List (Sym ℕ ℕ) :=
  stack.flatMap fun pos => symbols (behind rules pos)

/-! ## Rule sets -/

/-- The arrays of an initialised grammar. -/
structure Wellformed : Prop where
  formed : ∀ r ∈ rules, Formed r
  /-- The end of a rule is its last element. -/
  closed : ∀ r ∈ rules, ∀ pre e rest, r = pre ++ e :: rest → e.type = .endRule → rest = []
  ended : ∀ r ∈ rules, ∃ body, r = body ++ [endRule]
  refs : ∀ r ∈ rules, ∀ e ∈ r, e.type = .ruleRef → e.value < rules.length

variable {rules} {pos : ElementPtr} {stack : GrammarStack}

theorem behind_add (pos : ElementPtr) (n : ℕ) :
    behind rules (pos.add n) = (behind rules pos).drop n := by
  rw [behind, behind, ElementPtr.add, List.drop_drop]

theorem elem_eq_of_behind {e : GrammarElement} {es : List GrammarElement}
    (h : behind rules pos = e :: es) : elem rules pos = e := by
  rw [elem, h, List.headD_cons]

theorem elem_add_one {e : GrammarElement} {es : List GrammarElement}
    (h : behind rules pos = e :: es) : elem rules (pos.add 1) = es.headD endRule := by
  rw [elem, behind_add, h, List.drop_one, List.tail_cons]

theorem behind_of_not_end (h : (elem rules pos).isEndOfSequence = false) :
    ∃ e es, behind rules pos = e :: es ∧ elem rules pos = e := by
  cases hb : behind rules pos with
  | nil =>
    rw [elem, hb] at h
    exact absurd h (by decide)
  | cons e es => exact ⟨e, es, rfl, elem_eq_of_behind hb⟩

theorem symbols_of_end (h : (elem rules pos).isEndOfSequence = true) :
    symbols (behind rules pos) = [] := by
  cases hb : behind rules pos with
  | nil => rfl
  | cons e es =>
    rw [elem_eq_of_behind hb] at h
    rw [symbols, if_pos h]

@[simp] theorem form_push :
    form rules (push rules pos stack) = symbols (behind rules pos) ++ form rules stack := by
  rw [push]
  split_ifs with h
  · rw [symbols_of_end h, List.nil_append]
  · rfl

theorem isEndOfSequence_eq_false {e : GrammarElement} (h : e.type ≠ .endRule) (h' : e.type ≠ .alt) :
    e.isEndOfSequence = false := by
  simp [isEndOfSequence, h, h']

theorem symbols_ref (h : (elem rules pos).type = .ruleRef) :
    symbols (behind rules pos) =
      .ref (elem rules pos).value :: symbols (behind rules (pos.add 1)) := by
  obtain ⟨e, es, hb, he⟩ := behind_of_not_end
    (isEndOfSequence_eq_false (by rw [h]; decide) (by rw [h]; decide))
  rw [he] at h ⊢
  rw [behind_add, hb, symbols, if_neg (by simp [isEndOfSequence, h]), if_pos h, List.drop_one,
    List.tail_cons]

/-! ## Where alternatives start -/

theorem mem_laterStarts {es : List GrammarElement} {i k : ℕ} (h : i ∈ laterStarts es k) :
    ∃ pre e rest, es = pre ++ e :: rest ∧ e.type = .alt ∧ i = k + pre.length + 1 := by
  induction es generalizing k with
  | nil => exact absurd h List.not_mem_nil
  | cons e es ih =>
    rw [laterStarts] at h
    split_ifs at h with hend halt
    · exact absurd h List.not_mem_nil
    · rcases List.mem_cons.mp h with rfl | h
      · exact ⟨[], e, es, rfl, halt, rfl⟩
      · obtain ⟨pre, x, rest, rfl, hx, rfl⟩ := ih h
        exact ⟨e :: pre, x, rest, rfl, hx, by rw [List.length_cons]; omega⟩
    · obtain ⟨pre, x, rest, rfl, hx, rfl⟩ := ih h
      exact ⟨e :: pre, x, rest, rfl, hx, by rw [List.length_cons]; omega⟩

theorem laterStarts_mem (k : ℕ) {pre : List GrammarElement} (rest : List GrammarElement)
    {e : GrammarElement} (hend : ∀ x ∈ pre, x.type ≠ .endRule) (he : e.type = .alt) :
    k + pre.length + 1 ∈ laterStarts (pre ++ e :: rest) k := by
  induction pre generalizing k with
  | nil =>
    rw [List.nil_append, laterStarts, if_neg (by rw [he]; decide), if_pos he]
    exact List.mem_cons_self
  | cons x pre ih =>
    have hx := hend x List.mem_cons_self
    have hi := ih (k + 1) fun y hy => hend y (List.mem_cons_of_mem _ hy)
    have hlen : k + (x :: pre).length + 1 = k + 1 + pre.length + 1 := by
      rw [List.length_cons]
      omega
    rw [List.cons_append, laterStarts, if_neg hx, hlen]
    split_ifs
    · exact List.mem_cons_of_mem _ hi
    · exact hi

theorem drop_past (pre rest : List GrammarElement) (e : GrammarElement) :
    (pre ++ e :: rest).drop (pre.length + 1) = rest := by
  rw [List.append_cons, List.drop_left' (by simp)]

/-- The pointers the loops over the alternatives of a rule come to, with their forms. -/
theorem mem_alts (hw : Wellformed rules) (rule : ℕ) (α : List (Sym ℕ ℕ)) :
    α ∈ alts rules rule ↔
      ∃ subpos ∈ alternates rules rule, symbols (behind rules subpos) = α := by
  constructor
  · rintro ⟨pre, e, rest, hsplit, he, rfl⟩
    cases pre with
    | nil =>
      obtain ⟨-, rfl⟩ := List.cons.inj hsplit
      exact ⟨⟨rule, 0⟩, List.mem_cons_self, rfl⟩
    | cons x pre =>
      have hr : (rules[rule]?).getD [] = pre ++ e :: rest := (List.cons.inj hsplit).2
      have hend : ∀ x ∈ pre, x.type ≠ .endRule := by
        intro x hx htype
        obtain ⟨l, r, rfl⟩ := List.append_of_mem hx
        cases hrule : rules[rule]? with
        | none => simp [hrule] at hr
        | some body =>
          rw [hrule, Option.getD_some] at hr
          have := hw.closed body (List.mem_of_getElem? hrule) l x (r ++ e :: rest)
            (by rw [hr]; simp) htype
          simp at this
      refine ⟨⟨rule, pre.length + 1⟩, ?_, ?_⟩
      · have hmem := laterStarts_mem 0 rest hend he
        rw [Nat.zero_add, ← hr] at hmem
        exact List.mem_map_of_mem (List.mem_cons_of_mem _ hmem)
      · rw [behind, hr, drop_past]
  · rintro ⟨subpos, hmem, rfl⟩
    obtain ⟨i, hi, rfl⟩ := List.mem_map.mp hmem
    rcases List.mem_cons.mp hi with rfl | hi
    · exact ⟨[], ⟨.alt, 0⟩, _, rfl, rfl, rfl⟩
    · obtain ⟨pre, e, rest, hr, he, rfl⟩ := mem_laterStarts hi
      refine ⟨⟨.alt, 0⟩ :: pre, e, rest, by rw [hr]; rfl, he, ?_⟩
      rw [behind, hr, Nat.zero_add, drop_past]

/-! ## Pointers that a stack may hold -/

/-- A pointer to a reference or to a terminal. -/
def Standing (rules : GrammarRules) (pos : ElementPtr) : Prop :=
  (elem rules pos).isEndOfSequence = false ∧ (elem rules pos).isModifier = false

def Proper (rules : GrammarRules) (stack : GrammarStack) : Prop := ∀ pos ∈ stack, Standing rules pos

theorem proper_nil : Proper rules [] := fun _ h => absurd h List.not_mem_nil

theorem Proper.push (h : Proper rules stack) (hpos : (elem rules pos).isModifier = false) :
    Proper rules (push rules pos stack) := by
  rw [GrammarRules.push]
  split_ifs with hend
  · exact h
  · intro p hp
    rcases List.mem_cons.mp hp with rfl | hp
    · exact ⟨by simpa using hend, hpos⟩
    · exact h p hp

theorem mayFollow_behind (hw : Wellformed rules) {e next : GrammarElement}
    {es : List GrammarElement} (h : behind rules pos = e :: next :: es) : mayFollow e next := by
  rw [behind] at h
  cases hrule : rules[pos.rule]? with
  | none => simp [hrule] at h
  | some body =>
    rw [hrule, Option.getD_some] at h
    have hformed := hw.formed body (List.mem_of_getElem? hrule)
    have hsuffix : (e :: next :: es) <:+ ⟨.alt, 0⟩ :: body :=
      (h ▸ List.drop_suffix _ _ : (e :: next :: es) <:+ body).trans (List.suffix_cons _ _)
    exact (List.isChain_cons_cons.mp (hformed.suffix hsuffix)).1

/-- Behind anything but a character, a range or a class no modifier stands. -/
theorem next_not_modifier (hw : Wellformed rules)
    (h : ∀ next : GrammarElement, next.isModifier = true →
      mayFollow (elem rules pos) next = false) :
    (elem rules (pos.add 1)).isModifier = false := by
  cases hb : behind rules pos with
  | nil =>
    rw [elem, behind_add, hb]
    rfl
  | cons e es =>
    rw [elem_add_one hb]
    cases es with
    | nil => rfl
    | cons next es =>
      by_contra hmod
      have hno := h next (by simpa using hmod)
      rw [elem_eq_of_behind hb, mayFollow_behind hw hb] at hno
      exact absurd hno (by decide)

theorem mayFollow_eq_false {e next : GrammarElement} (hnext : next.isModifier = true)
    (he : e.isChar = false) (hmod : e.isModifier = false) : mayFollow e next = false := by
  obtain ⟨t, v⟩ := e
  obtain ⟨t', v'⟩ := next
  cases t <;> cases t' <;> simp_all [isModifier, isChar, mayFollow]

theorem alternates_not_modifier (hw : Wellformed rules) {rule : ℕ} {subpos : ElementPtr}
    (h : subpos ∈ alternates rules rule) : (elem rules subpos).isModifier = false := by
  obtain ⟨i, hi, rfl⟩ := List.mem_map.mp h
  rcases List.mem_cons.mp hi with rfl | hi
  · rw [elem, behind, List.drop_zero]
    cases hrule : rules[rule]? with
    | none => rfl
    | some body =>
      cases body with
      | nil => rfl
      | cons e es =>
        by_contra hmod
        have hformed := hw.formed _ (List.mem_of_getElem? hrule)
        have hfollow := (List.isChain_cons_cons.mp hformed).1
        rw [mayFollow_eq_false (by simpa using hmod) rfl rfl] at hfollow
        exact absurd hfollow (by decide)
  · obtain ⟨pre, e, rest, hr, he, rfl⟩ := mem_laterStarts hi
    have hb : behind rules ⟨rule, pre.length⟩ = e :: rest := by
      rw [behind, hr, List.drop_left]
    have hadd : (⟨rule, 0 + pre.length + 1⟩ : ElementPtr) = (⟨rule, pre.length⟩ : ElementPtr).add 1 := by
      rw [ElementPtr.add, Nat.zero_add]
    rw [hadd]
    refine next_not_modifier hw fun next hnext => ?_
    rw [elem_eq_of_behind hb]
    exact mayFollow_eq_false hnext (by simp [isChar, he]) (by simp [isModifier, he])

/-! ## Expanding a stack -/

/-- A stack that waits for a character, for a token or for nothing. -/
def Settled (rules : GrammarRules) (stack : GrammarStack) : Prop := visit rules stack = .keep

theorem settled_nil : Settled rules [] := rfl

theorem settled_cons_iff {base : GrammarStack} : Settled rules (pos :: base) ↔
    (elem rules pos).isChar = true ∨ (elem rules pos).isToken = true := by
  rw [Settled, visit]
  obtain ⟨t, v⟩ := elem rules pos
  cases t <;> simp [isChar, isToken]

theorem next_iff {t : GrammarStack} : Worklist.Next (visit rules) stack t ↔
    ∃ pos base, stack = pos :: base ∧ (elem rules pos).type = .ruleRef ∧
      ∃ subpos ∈ alternates rules (elem rules pos).value,
        t = push rules subpos (push rules (pos.add 1) base) := by
  constructor
  · rintro ⟨next, hv, ht⟩
    cases stack with
    | nil => nomatch hv
    | cons pos base =>
      rw [visit] at hv
      split_ifs at hv with href
      obtain rfl := Visit.expand.inj hv
      obtain ⟨subpos, hsub, rfl⟩ := List.mem_map.mp (List.mem_reverse.mp ht)
      exact ⟨pos, base, rfl, href, subpos, hsub, rfl⟩
  · rintro ⟨pos, base, rfl, href, subpos, hsub, rfl⟩
    exact ⟨_, by rw [visit, if_pos href], List.mem_reverse.mpr (List.mem_map.mpr ⟨subpos, hsub, rfl⟩)⟩

theorem visit_cases (h : Standing rules pos) (base : GrammarStack) :
    Settled rules (pos :: base) ∨ (elem rules pos).type = .ruleRef := by
  rw [settled_cons_iff]
  obtain ⟨hend, hmod⟩ := h
  generalize elem rules pos = e at hend hmod ⊢
  obtain ⟨t, v⟩ := e
  cases t <;> simp_all [isChar, isToken, isEndOfSequence, isModifier]

theorem visit_ne_stuck (h : Proper rules stack) : visit rules stack ≠ .stuck := by
  cases stack with
  | nil => exact fun h => nomatch h
  | cons pos base =>
    rcases visit_cases (h pos List.mem_cons_self) base with hs | href
    · rw [Settled] at hs
      rw [hs]
      exact fun h => nomatch h
    · rw [visit, if_pos href]
      exact fun h => nomatch h

theorem exists_next {base : GrammarStack} (href : (elem rules pos).type = .ruleRef) :
    ∃ t, Worklist.Next (visit rules) (pos :: base) t :=
  ⟨_, next_iff.2 ⟨pos, base, rfl, href, _, List.mem_cons_self, rfl⟩⟩

theorem Proper.next (hw : Wellformed rules) (h : Proper rules stack) {t : GrammarStack}
    (hn : Worklist.Next (visit rules) stack t) : Proper rules t := by
  obtain ⟨pos, base, rfl, href, subpos, hsub, rfl⟩ := next_iff.1 hn
  have hbase : Proper rules base := fun p hp => h p (List.mem_cons_of_mem _ hp)
  refine Proper.push (Proper.push hbase ?_) (alternates_not_modifier hw hsub)
  refine next_not_modifier hw fun next hnext => ?_
  exact mayFollow_eq_false hnext (by simp [isChar, href]) (by simp [isModifier, href])

theorem Proper.reaches (hw : Wellformed rules) (h : Proper rules stack) {t : GrammarStack}
    (hr : Worklist.Reaches (visit rules) stack t) : Proper rules t := by
  induction hr with
  | refl => exact h
  | tail _ hn ih => exact ih.next hw hn

/-! ## Matching a character -/

/-- The characters that match the class at a pointer. -/
def matchSet (rules : GrammarRules) (pos : ElementPtr) : Set ℕ :=
  matching (elem rules pos) (behind rules pos).tail

/-- The pointer behind a class. -/
def pastClass (rules : GrammarRules) (pos : ElementPtr) : ElementPtr :=
  pos.add (1 + ((behind rules pos).tail.takeWhile isModifier).length)

theorem chain_behind (hw : Wellformed rules) (pos : ElementPtr) :
    (behind rules pos).IsChain fun a b => mayFollow a b := by
  rw [behind]
  cases hrule : rules[pos.rule]? with
  | none => simp
  | some body =>
    exact (hw.formed body (List.mem_of_getElem? hrule)).suffix
      ((List.drop_suffix _ _).trans (List.suffix_cons _ _))

theorem matchLoop_spec (chr : ℕ) {fuel : ℕ} (found : Bool) {e : GrammarElement}
    {es : List GrammarElement} (hb : behind rules pos = e :: es)
    (hchain : (e :: es).IsChain fun a b => mayFollow a b) (hfuel : es.length < fuel) :
    ((matchLoop rules chr fuel pos found).1 = true ↔ found = true ∨ InClass chr e es) ∧
      (matchLoop rules chr fuel pos found).2 =
        pos.add (1 + (es.takeWhile isModifier).length) := by
  induction fuel generalizing pos found e es with
  | zero => omega
  | succ fuel ih =>
    have hnext : elem rules (pos.add 1) = es.headD endRule := elem_add_one hb
    rw [matchLoop, elem_eq_of_behind hb, hnext]
    by_cases hupper : (es.headD endRule).type = .charRngUpper
    · -- a range: the upper end is not followed by another one
      obtain ⟨u, es, rfl⟩ : ∃ u rest, es = u :: rest := by
        cases es with
        | nil => exact absurd hupper (by decide)
        | cons u rest => exact ⟨u, rest, rfl⟩
      rw [List.headD_cons] at hupper ⊢
      have hb2 : behind rules (pos.add 2) = es := by
        rw [behind_add, hb]
        rfl
      have helem : elem rules (pos.add 2) = es.headD endRule := by rw [elem, hb2]
      have htail : (u :: es).takeWhile isModifier = u :: es.takeWhile isModifier := by
        rw [List.takeWhile_cons, if_pos (by simp [isModifier, hupper])]
      have hclass : InClass chr e (u :: es) ↔ inRange chr e u ∨ InClassTail chr es := by
        rw [InClass, List.headD_cons, InClassTail, if_neg (by rw [hupper]; decide), if_pos hupper]
      simp only [rangeSize, if_pos hupper, helem, htail, hclass]
      split_ifs with halt
      · obtain ⟨a, es, rfl⟩ : ∃ a rest, es = a :: rest := by
          cases es with
          | nil => exact absurd halt (by decide)
          | cons a rest => exact ⟨a, rest, rfl⟩
        rw [List.headD_cons] at halt
        have hih := ih (found || inRange chr e u) hb2
          (List.isChain_cons_cons.mp (List.isChain_cons_cons.mp hchain).2).2
          (by simp only [List.length_cons] at hfuel; omega)
        refine ⟨hih.1.trans ?_, hih.2.trans ?_⟩
        · rw [Bool.or_eq_true, or_assoc, InClass, InClassTail, if_pos halt]
        · rw [ElementPtr.add, ElementPtr.add, ElementPtr.add, List.takeWhile_cons,
            if_pos (by simp [isModifier, halt])]
          simp only [List.length_cons]
          congr 1
          omega
      · have hstop : es.takeWhile isModifier = [] ∧ ¬ InClassTail chr es := by
          cases es with
          | nil => exact ⟨rfl, id⟩
          | cons a es =>
            rw [List.headD_cons] at halt
            have hfollow := (List.isChain_cons_cons.mp (List.isChain_cons_cons.mp hchain).2).1
            have hrng : a.type ≠ .charRngUpper := by
              intro ha
              rw [mayFollow, ha] at hfollow
              simp [hupper] at hfollow
            exact ⟨by simp [isModifier, halt, hrng], by simp [InClassTail, halt, hrng]⟩
        rw [hstop.1]
        simp [hstop.2]
    · simp only [rangeSize, if_neg hupper, hnext]
      split_ifs with halt
      · obtain ⟨a, es, rfl⟩ : ∃ a rest, es = a :: rest := by
          cases es with
          | nil => exact absurd halt (by decide)
          | cons a rest => exact ⟨a, rest, rfl⟩
        rw [List.headD_cons] at halt ⊢
        have hb1 : behind rules (pos.add 1) = a :: es := by
          rw [behind_add, hb]
          rfl
        have hih := ih (found || inRange chr e a) hb1 (List.isChain_cons_cons.mp hchain).2
          (by simp only [List.length_cons] at hfuel; omega)
        refine ⟨hih.1.trans ?_, hih.2.trans ?_⟩
        · rw [Bool.or_eq_true, or_assoc, InClass, InClass, InClassTail, if_pos halt,
            List.headD_cons]
        · rw [ElementPtr.add, ElementPtr.add, ElementPtr.add, List.takeWhile_cons,
            if_pos (by simp [isModifier, halt])]
          simp only [List.length_cons]
          congr 1
          omega
      · have hstop : es.takeWhile isModifier = [] ∧ ¬ InClassTail chr es := by
          cases es with
          | nil => exact ⟨rfl, id⟩
          | cons a es =>
            rw [List.headD_cons] at halt hupper
            exact ⟨by simp [isModifier, halt, hupper], by simp [InClassTail, halt, hupper]⟩
        rw [hstop.1, InClass]
        simp [hstop.2]

theorem isChar_not_end {e : GrammarElement} (h : e.isChar = true) : e.isEndOfSequence = false := by
  obtain ⟨t, v⟩ := e
  cases t <;> simp_all [isChar, isEndOfSequence]

/-- `llama_grammar_match_char` at a character element. -/
theorem matchChar_spec (hw : Wellformed rules) (h : (elem rules pos).isChar = true) (chr : ℕ) :
    ∃ m, matchChar rules pos chr = some m ∧ (m.1 = true ↔ chr ∈ matchSet rules pos) ∧
      m.2 = pastClass rules pos := by
  obtain ⟨e, es, hb, he⟩ := behind_of_not_end (isChar_not_end h)
  obtain ⟨hfound, hpast⟩ := matchLoop_spec chr false hb (hb ▸ chain_behind hw pos)
    (by rw [hb, List.length_cons]; omega : es.length < (behind rules pos).length)
  refine ⟨_, by rw [matchChar, if_pos h], ?_, ?_⟩
  · rw [matchSet, matching, he, hb, List.tail_cons, Set.mem_ofPred_eq, ← hb]
    simp only [Bool.false_eq_true, false_or] at hfound
    rw [beq_iff_eq, Bool.eq_iff_iff, hfound, decide_eq_true_iff]
  · rw [hpast, pastClass, hb, List.tail_cons]

theorem symbols_skip (es : List GrammarElement) :
    symbols (es.drop (es.takeWhile isModifier).length) = symbols es := by
  induction es with
  | nil => rfl
  | cons e es ih =>
    rw [List.takeWhile_cons]
    split_ifs with h
    · rw [List.length_cons, List.drop_succ_cons, ih, symbols]
      obtain ⟨t, v⟩ := e
      cases t <;> simp_all [isModifier, isEndOfSequence, isChar, isToken]
    · rfl

theorem symbols_char (h : (elem rules pos).isChar = true) :
    symbols (behind rules pos) =
      .terminal (matchSet rules pos) :: symbols (behind rules (pastClass rules pos)) := by
  obtain ⟨e, es, hb, he⟩ := behind_of_not_end (isChar_not_end h)
  have hend := isChar_not_end h
  rw [pastClass, behind_add, matchSet, he, hb, List.tail_cons, Nat.add_comm, List.drop_succ_cons,
    symbols_skip, symbols]
  rw [he] at h hend
  obtain ⟨t, v⟩ := e
  cases t <;> simp_all [isChar, isEndOfSequence]

theorem symbols_token (h : (elem rules pos).isToken = true) :
    symbols (behind rules pos) = .terminal ∅ :: symbols (behind rules (pos.add 1)) := by
  have hend : (elem rules pos).isEndOfSequence = false := by
    generalize elem rules pos = e at h ⊢
    obtain ⟨t, v⟩ := e
    cases t <;> simp_all [isToken, isEndOfSequence]
  obtain ⟨e, es, hb, he⟩ := behind_of_not_end hend
  rw [behind_add, hb, List.drop_one, List.tail_cons, symbols]
  rw [he] at h hend
  obtain ⟨t, v⟩ := e
  cases t <;> simp_all [isToken, isChar, isEndOfSequence]

theorem form_settled {base : GrammarStack} (h : Settled rules (pos :: base)) :
    ∃ S β, form rules (pos :: base) = .terminal S :: β := by
  rw [form, List.flatMap_cons]
  rcases settled_cons_iff.1 h with h | h
  · exact ⟨_, _, by rw [symbols_char h, List.cons_append]⟩
  · exact ⟨_, _, by rw [symbols_token h, List.cons_append]⟩

theorem form_ref {base : GrammarStack} (h : (elem rules pos).type = .ruleRef) :
    form rules (pos :: base) = .ref (elem rules pos).value ::
      (symbols (behind rules (pos.add 1)) ++ form rules base) := by
  rw [form, List.flatMap_cons, symbols_ref h, List.cons_append, form]

theorem eq_nil_of_form (h : Proper rules stack) (hform : form rules stack = []) : stack = [] := by
  cases stack with
  | nil => rfl
  | cons pos base =>
    rcases visit_cases (h pos List.mem_cons_self) base with hs | href
    · obtain ⟨S, β, hf⟩ := form_settled hs
      exact absurd (hf.symm.trans hform) (List.cons_ne_nil _ _)
    · exact absurd ((form_ref href).symm.trans hform) (List.cons_ne_nil _ _)

/-! ## Expanding a stack expands its form -/

theorem next_expand (hw : Wellformed rules) {t : GrammarStack}
    (hn : Worklist.Next (visit rules) stack t) :
    Sym.Expand (alts rules) (form rules stack) (form rules t) := by
  obtain ⟨pos, base, rfl, href, subpos, hsub, rfl⟩ := next_iff.1 hn
  rw [form_push, form_push, form, List.flatMap_cons, symbols_ref href]
  exact .mk _ _ _ ((mem_alts hw _ _).mpr ⟨subpos, hsub, rfl⟩)

theorem expand_next (hw : Wellformed rules) (hp : Proper rules stack) {β : List (Sym ℕ ℕ)}
    (h : Sym.Expand (alts rules) (form rules stack) β) :
    ∃ t, Worklist.Next (visit rules) stack t ∧ form rules t = β := by
  cases stack with
  | nil => exact absurd h Sym.not_expand_nil
  | cons pos base =>
    rcases visit_cases (hp pos List.mem_cons_self) base with hs | href
    · obtain ⟨S, β', hf⟩ := form_settled hs
      rw [hf] at h
      exact absurd h Sym.not_expand_terminal
    · rw [form_ref href] at h
      obtain ⟨_, α, _, hα⟩ := h
      obtain ⟨subpos, hsub, rfl⟩ := (mem_alts hw _ _).mp hα
      exact ⟨_, next_iff.2 ⟨pos, base, rfl, href, subpos, hsub, rfl⟩, by rw [form_push, form_push]⟩

theorem expand_reaches (hw : Wellformed rules) (hp : Proper rules stack) {β : List (Sym ℕ ℕ)}
    (h : Relation.ReflTransGen (Sym.Expand (alts rules)) (form rules stack) β) :
    ∃ t, Worklist.Reaches (visit rules) stack t ∧ form rules t = β := by
  induction h with
  | refl => exact ⟨stack, .refl, rfl⟩
  | tail _ he ih =>
    obtain ⟨t, hr, rfl⟩ := ih
    obtain ⟨u, hn, rfl⟩ := expand_next hw (hp.reaches hw hr) he
    exact ⟨u, hr.tail hn, rfl⟩

end GrammarRules
end RocmFpx
