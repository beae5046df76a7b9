import RocmFpx.GrammarConfigurations

/-!
The checks of `llama_grammar_init_impl`. The walk that looks for left recursion goes from a rule
to those it refers to behind rules with an empty alternative, and reports exactly the cycles of
these references. A rule that derives the empty string only through other rules ends the walk of
its alternative.
-/

namespace RocmFpx
namespace GrammarRules

open GrammarElement Worklist Relation

/-- The vectors of `llama_grammar_detect_left_recursion`. -/
structure LeftRecursion where
  visited : ℕ → Bool
  inProgress : ℕ → Bool
  mayBeEmpty : ℕ → Bool

namespace LeftRecursion

def init : LeftRecursion where
  visited _ := false
  inProgress _ := false
  mayBeEmpty _ := false

/-- The rule is in progress; an alternative without elements was seen if there is one. -/
def enter (st : LeftRecursion) (rule : ℕ) (empty : Bool) : LeftRecursion where
  visited := st.visited
  inProgress := Function.update st.inProgress rule true
  mayBeEmpty := if empty then Function.update st.mayBeEmpty rule true else st.mayBeEmpty

def leave (st : LeftRecursion) (rule : ℕ) : LeftRecursion where
  visited := Function.update st.visited rule true
  inProgress := Function.update st.inProgress rule false
  mayBeEmpty := st.mayBeEmpty

end LeftRecursion

/-- The first loop of the walk: whether an alternative ends where it starts. -/
def emptyAlternate : List GrammarElement → Bool → Bool
  | [], _ => false
  | e :: es, atRuleStart =>
    if e.isEndOfSequence then atRuleStart || emptyAlternate es true else emptyAlternate es false

/-- The second loop, over the rules that may stand leftmost. -/
def detectLoop (detect : ℕ → LeftRecursion → Option (Bool × LeftRecursion)) :
    List GrammarElement → Bool → LeftRecursion → Option (Bool × LeftRecursion)
  | [], _, st => some (false, st)
  | e :: es, recurseIntoNonterminal, st =>
    if e.type = .ruleRef ∧ recurseIntoNonterminal = true then do
      let r ← detect e.value st
      if r.1 then some r else detectLoop detect es (r.2.mayBeEmpty e.value) r.2
    else detectLoop detect es e.isEndOfSequence st

variable (rules : GrammarRules)

/-- `llama_grammar_detect_left_recursion`; `fuel` bounds the depth of the walk. -/
def detectLeftRecursion : ℕ → ℕ → LeftRecursion → Option (Bool × LeftRecursion)
  | 0, _, _ => none
  | fuel + 1, rule, st =>
    if st.inProgress rule then some (true, st)
    else do
      let r ← detectLoop (detectLeftRecursion fuel) ((rules[rule]?).getD []) true
        (st.enter rule (emptyAlternate ((rules[rule]?).getD []) true))
      if r.1 then some r else some (false, r.2.leave rule)

/-- The walk from each rule not visited yet. -/
def detectAll (fuel : ℕ) : List ℕ → LeftRecursion → Option Bool
  | [], _ => some false
  | rule :: more, st =>
    if st.visited rule then detectAll fuel more st
    else do
      let r ← detectLeftRecursion rules fuel rule st
      if r.1 then some true else detectAll fuel more r.2

/-- A walk is at most as deep as there are rules. -/
def leftRecursive : Option Bool :=
  detectAll rules (rules.length + 1) (List.range rules.length) .init

def undefinedRef : Bool :=
  rules.any fun r => r.any fun e => e.type = .ruleRef &&
    (decide (rules.length ≤ e.value) || ((rules[e.value]?).getD []).isEmpty)

/-! ## The references the walk follows -/

def mayBeEmpty (rule : ℕ) : Bool := emptyAlternate ((rules[rule]?).getD []) true

/-- The rules the loop calls itself for, as long as the calls report nothing. -/
def leftRefs (empty : ℕ → Bool) : List GrammarElement → Bool → List ℕ
  | [], _ => []
  | e :: es, recurse =>
    if e.type = .ruleRef ∧ recurse = true then e.value :: leftRefs empty es (empty e.value)
    else leftRefs empty es e.isEndOfSequence

def Follows (a b : ℕ) : Prop := b ∈ leftRefs (mayBeEmpty rules) ((rules[a]?).getD []) true

/-- Nothing in progress is reached from a rule, and no cycle. -/
def Clear (inProgress : ℕ → Bool) (rule : ℕ) : Prop :=
  ∀ x, ReflTransGen (Follows rules) rule x →
    inProgress x = false ∧ ¬ TransGen (Follows rules) x x

variable {rules}

theorem clear_iff {inProgress : ℕ → Bool} {rule : ℕ} : Clear rules inProgress rule ↔
    inProgress rule = false ∧
      ∀ c, Follows rules rule c → Clear rules (Function.update inProgress rule true) c := by
  constructor
  · intro h
    refine ⟨(h rule .refl).1, fun c hc x hx => ?_⟩
    have hx' := h x (hx.head hc)
    refine ⟨?_, hx'.2⟩
    rw [Function.update_of_ne]
    · exact hx'.1
    · rintro rfl
      exact hx'.2 (TransGen.head' hc hx)
  · rintro ⟨hrule, h⟩ x hx
    have hcycle : ∀ c y, Follows rules rule c → ReflTransGen (Follows rules) c y → y ≠ rule := by
      rintro c y hc hy rfl
      have := (h c hc y hy).1
      rw [Function.update_self] at this
      exact absurd this (by decide)
    rcases hx.cases_head with rfl | ⟨c, hc, hcx⟩
    · refine ⟨hrule, fun hself => ?_⟩
      obtain ⟨c, hc, hcx⟩ := TransGen.head'_iff.mp hself
      exact hcycle c _ hc hcx rfl
    · obtain ⟨hx', hx''⟩ := h c hc x hcx
      rw [Function.update_of_ne (hcycle c x hc hcx)] at hx'
      exact ⟨hx', hx''⟩

/-- What the vectors say is so. -/
structure LeftRecursion.Sound (rules : GrammarRules) (st : LeftRecursion) : Prop where
  empty : ∀ rule, st.mayBeEmpty rule = true → GrammarRules.mayBeEmpty rules rule = true
  visited : ∀ rule, st.visited rule = true → Clear rules (fun _ => false) rule

/-- The outcome of a walk from a rule. -/
structure Walked (rules : GrammarRules) (rule : ℕ) (st : LeftRecursion) (b : Bool)
    (st' : LeftRecursion) : Prop where
  sound : st'.Sound rules
  inProgress : b = false → st'.inProgress = st.inProgress
  kept : ∀ x, st.mayBeEmpty x = true → st'.mayBeEmpty x = true
  empty : b = false → st'.mayBeEmpty rule = mayBeEmpty rules rule
  found : b = true ↔ ¬ Clear rules st.inProgress rule

theorem detectLoop_walked {detect : ℕ → LeftRecursion → Option (Bool × LeftRecursion)}
    (hdetect : ∀ c st r, LeftRecursion.Sound rules st → detect c st = some r →
      Walked rules c st r.1 r.2) {es : List GrammarElement} {recurse : Bool} {st : LeftRecursion}
    {r : Bool × LeftRecursion} (hst : st.Sound rules)
    (h : detectLoop detect es recurse st = some r) :
    r.2.Sound rules ∧ (r.1 = false → r.2.inProgress = st.inProgress) ∧
      (∀ x, st.mayBeEmpty x = true → r.2.mayBeEmpty x = true) ∧
      (r.1 = true ↔ ∃ c ∈ leftRefs (mayBeEmpty rules) es recurse, ¬ Clear rules st.inProgress c) := by
  induction es generalizing recurse st with
  | nil =>
    obtain rfl := Option.some.inj h
    exact ⟨hst, fun _ => rfl, fun _ => id, by simp [leftRefs]⟩
  | cons e es ih =>
    rw [detectLoop] at h
    rw [leftRefs]
    split_ifs at h ⊢ with href
    · obtain ⟨m, hm, h⟩ := Option.bind_eq_some_iff.mp h
      have hw := hdetect _ _ _ hst hm
      split_ifs at h with hfound
      · obtain rfl := Option.some.inj h
        exact ⟨hw.sound, hw.inProgress, hw.kept, fun _ =>
          ⟨_, List.mem_cons_self, hw.found.mp hfound⟩, fun _ => hfound⟩
      · have hfalse : m.1 = false := by simpa using hfound
        obtain ⟨hsound, hprog, hkept, hiff⟩ := ih hw.sound h
        rw [hw.inProgress hfalse, hw.empty hfalse] at *
        refine ⟨hsound, hprog, fun x hx => hkept x (hw.kept x hx), hiff.trans ?_⟩
        have hclear : Clear rules st.inProgress e.value := by
          by_contra hno
          exact hfound (hw.found.mpr hno)
        rw [List.exists_mem_cons_iff]
        exact ⟨Or.inr, fun hc => hc.resolve_left fun hno => hno hclear⟩
    · exact ih hst h

theorem LeftRecursion.Sound.enter {st : LeftRecursion} (h : st.Sound rules) (rule : ℕ) :
    (st.enter rule (GrammarRules.mayBeEmpty rules rule)).Sound rules where
  empty x hx := by
    rw [LeftRecursion.enter] at hx
    simp only at hx
    split_ifs at hx with hempty
    · by_cases hxr : x = rule
      · rw [hxr, hempty]
      · rw [Function.update_of_ne hxr] at hx
        exact h.empty x hx
    · exact h.empty x hx
  visited := h.visited

theorem enter_mayBeEmpty (st : LeftRecursion) (rule : ℕ) (hst : st.Sound rules) :
    (st.enter rule (mayBeEmpty rules rule)).mayBeEmpty rule = mayBeEmpty rules rule := by
  rw [LeftRecursion.enter]
  simp only
  split_ifs with hempty
  · rw [Function.update_self, hempty]
  · rw [Bool.eq_false_iff.mpr hempty]
    exact Bool.eq_false_iff.mpr fun h => hempty (hst.empty rule h)

theorem enter_kept (st : LeftRecursion) (rule : ℕ) (b : Bool) (x : ℕ)
    (h : st.mayBeEmpty x = true) : (st.enter rule b).mayBeEmpty x = true := by
  rw [LeftRecursion.enter]
  simp only
  split_ifs
  · by_cases hx : x = rule
    · rw [hx, Function.update_self]
    · rwa [Function.update_of_ne hx]
  · exact h

theorem clear_anywhere {inProgress : ℕ → Bool} {rule : ℕ} (h : Clear rules inProgress rule) :
    Clear rules (fun _ => false) rule := fun x hx => ⟨rfl, (h x hx).2⟩

theorem detect_walked {fuel rule : ℕ} {st : LeftRecursion} {r : Bool × LeftRecursion}
    (hst : st.Sound rules) (h : detectLeftRecursion rules fuel rule st = some r) :
    Walked rules rule st r.1 r.2 := by
  induction fuel generalizing rule st r with
  | zero => nomatch h
  | succ fuel ih =>
    rw [detectLeftRecursion] at h
    split_ifs at h with hprog
    · obtain rfl := Option.some.inj h
      refine ⟨hst, fun hb => absurd hb (by simp), fun _ => id, fun hb => absurd hb (by simp),
        fun _ hc => ?_, fun _ => rfl⟩
      rw [(clear_iff.1 hc).1] at hprog
      exact absurd hprog (by decide)
    · rw [Bool.not_eq_true] at hprog
      obtain ⟨m, hm, h⟩ := Option.bind_eq_some_iff.mp h
      obtain ⟨hsound, hkeep, hkept, hfound⟩ :=
        detectLoop_walked (fun c st r hs hr => ih hs hr) (hst.enter rule) hm
      have hclear : m.1 = true ↔ ¬ Clear rules st.inProgress rule := by
        rw [hfound, clear_iff]
        simp only [hprog, true_and, not_forall]
        exact ⟨fun ⟨c, hc, hno⟩ => ⟨c, hc, hno⟩, fun ⟨c, hc, hno⟩ => ⟨c, hc, hno⟩⟩
      have hkept' : ∀ x, st.mayBeEmpty x = true → m.2.mayBeEmpty x = true :=
        fun x hx => hkept x (enter_kept st rule _ x hx)
      split_ifs at h with hm1
      · obtain rfl := Option.some.inj h
        exact ⟨hsound, fun hb => absurd hb (by simp [hm1]), hkept',
          fun hb => absurd hb (by simp [hm1]), hclear⟩
      · obtain rfl := Option.some.inj h
        have hfalse : m.1 = false := by simpa using hm1
        have hcl : Clear rules st.inProgress rule := by
          by_contra hno
          exact hm1 (hclear.mpr hno)
        refine ⟨⟨hsound.empty, fun x hx => ?_⟩, fun _ => ?_, hkept', fun _ => ?_, ?_⟩
        · have hx : Function.update m.2.visited rule true x = true := hx
          by_cases hxr : x = rule
          · rw [hxr]
            exact clear_anywhere hcl
          · rw [Function.update_of_ne hxr] at hx
            exact hsound.visited x hx
        · rw [LeftRecursion.leave, hkeep hfalse, LeftRecursion.enter]
          simp only [Function.update_idem]
          rw [← hprog, Function.update_eq_self]
        · cases hempty : mayBeEmpty rules rule with
          | true => exact hkept rule ((enter_mayBeEmpty st rule hst).trans hempty)
          | false =>
            refine Bool.eq_false_iff.mpr fun htrue => ?_
            rw [hsound.empty rule htrue] at hempty
            exact absurd hempty (by decide)
        · exact ⟨fun hb => absurd hb (by simp), fun hno => absurd hcl hno⟩

/-! ## A walk returns -/

theorem leftRefs_ref {empty : ℕ → Bool} {es : List GrammarElement} {recurse : Bool} {c : ℕ}
    (h : c ∈ leftRefs empty es recurse) : ∃ e ∈ es, e.type = .ruleRef ∧ e.value = c := by
  induction es generalizing recurse with
  | nil => exact absurd h List.not_mem_nil
  | cons e es ih =>
    rw [leftRefs] at h
    split_ifs at h with href
    · rcases List.mem_cons.mp h with rfl | h
      · exact ⟨e, List.mem_cons_self, href.1, rfl⟩
      · obtain ⟨x, hx, hxc⟩ := ih h
        exact ⟨x, List.mem_cons_of_mem _ hx, hxc⟩
    · obtain ⟨x, hx, hxc⟩ := ih h
      exact ⟨x, List.mem_cons_of_mem _ hx, hxc⟩

theorem follows_lt (hw : Wellformed rules) {a b : ℕ} (h : Follows rules a b) :
    a < rules.length ∧ b < rules.length := by
  obtain ⟨e, he, href, rfl⟩ := leftRefs_ref h
  cases hrule : rules[a]? with
  | none => simp [hrule] at he
  | some body =>
    rw [hrule, Option.getD_some] at he
    exact ⟨(List.getElem?_eq_some_iff.mp hrule).1,
      hw.refs body (List.mem_of_getElem? hrule) e he href⟩

/-- The rules a walk may still enter. -/
def idle (rules : GrammarRules) (inProgress : ℕ → Bool) : Finset ℕ :=
  (Finset.range rules.length).filter fun x => inProgress x = false

theorem idle_update {inProgress : ℕ → Bool} {rule : ℕ} (hlt : rule < rules.length)
    (h : inProgress rule = false) :
    (idle rules (Function.update inProgress rule true)).card < (idle rules inProgress).card := by
  refine Finset.card_lt_card ⟨fun x hx => ?_, fun hsub => ?_⟩
  · obtain ⟨hx, hi⟩ := Finset.mem_filter.mp hx
    refine Finset.mem_filter.mpr ⟨hx, ?_⟩
    by_cases hxr : x = rule
    · rw [hxr, h]
    · rwa [Function.update_of_ne hxr] at hi
  · have := (Finset.mem_filter.mp (hsub (Finset.mem_filter.mpr ⟨Finset.mem_range.mpr hlt, h⟩))).2
    rw [Function.update_self] at this
    exact absurd this (by decide)

theorem detectLoop_returns {detect : ℕ → LeftRecursion → Option (Bool × LeftRecursion)}
    {P : ℕ → Bool} (hwalk : ∀ c st r, LeftRecursion.Sound rules st → detect c st = some r →
      Walked rules c st r.1 r.2)
    (hdetect : ∀ c st, c < rules.length → st.inProgress = P → LeftRecursion.Sound rules st →
      ∃ r, detect c st = some r)
    {es : List GrammarElement} (hes : ∀ e ∈ es, e.type = .ruleRef → e.value < rules.length)
    {recurse : Bool} {st : LeftRecursion} (hst : st.Sound rules) (hP : st.inProgress = P) :
    ∃ r, detectLoop detect es recurse st = some r := by
  induction es generalizing recurse st with
  | nil => exact ⟨_, rfl⟩
  | cons e es ih =>
    have hes' := fun x hx => hes x (List.mem_cons_of_mem e hx)
    rw [detectLoop]
    split_ifs with href
    · obtain ⟨m, hm⟩ := hdetect e.value st (hes e List.mem_cons_self href.1) hP hst
      have hw := hwalk _ _ _ hst hm
      rw [hm, Option.bind_eq_bind, Option.bind_some]
      split_ifs with hfound
      · exact ⟨_, rfl⟩
      · exact ih hes' hw.sound ((hw.inProgress (by simpa using hfound)).trans hP)
    · exact ih hes' hst hP

theorem detect_returns (hw : Wellformed rules) {fuel rule : ℕ} {st : LeftRecursion}
    (hlt : rule < rules.length) (hst : st.Sound rules)
    (hfuel : (idle rules st.inProgress).card < fuel) :
    ∃ r, detectLeftRecursion rules fuel rule st = some r := by
  induction fuel generalizing rule st with
  | zero => omega
  | succ fuel ih =>
    rw [detectLeftRecursion]
    split_ifs with hprog
    · exact ⟨_, rfl⟩
    · rw [Bool.not_eq_true] at hprog
      have hidle := idle_update hlt hprog
      have hes : ∀ e ∈ (rules[rule]?).getD [], e.type = .ruleRef → e.value < rules.length := by
        rw [List.getElem?_eq_getElem hlt, Option.getD_some]
        exact hw.refs _ (List.getElem_mem hlt)
      -- whatever the walks of the references change, what is in progress they leave alone
      have hall : ∀ c st', c < rules.length →
          st'.inProgress = Function.update st.inProgress rule true →
          st'.Sound rules → ∃ r, detectLeftRecursion rules fuel c st' = some r :=
        fun c st' hc hp hs => ih hc hs (by rw [hp]; omega)
      obtain ⟨m, hm⟩ : ∃ m, detectLoop (detectLeftRecursion rules fuel) ((rules[rule]?).getD [])
          true (st.enter rule (emptyAlternate ((rules[rule]?).getD []) true)) = some m :=
        detectLoop_returns (fun c st r hs hr => detect_walked hs hr) hall hes (hst.enter rule) rfl
      rw [hm, Option.bind_eq_bind, Option.bind_some]
      split_ifs
      · exact ⟨_, rfl⟩
      · exact ⟨_, rfl⟩

theorem init_sound : LeftRecursion.Sound rules .init :=
  ⟨fun _ h => Bool.noConfusion h, fun _ h => Bool.noConfusion h⟩

theorem detectAll_spec (hw : Wellformed rules) {more : List ℕ} {st : LeftRecursion}
    (hmore : ∀ rule ∈ more, rule < rules.length) (hst : st.Sound rules)
    (hprog : st.inProgress = fun _ => false) :
    ∃ b, detectAll rules (rules.length + 1) more st = some b ∧
      (b = true ↔ ∃ rule ∈ more, ¬ Clear rules (fun _ => false) rule) := by
  induction more generalizing st with
  | nil => exact ⟨false, rfl, by simp⟩
  | cons rule more ih =>
    have hmore' := fun x hx => hmore x (List.mem_cons_of_mem rule hx)
    rw [detectAll]
    simp only [List.exists_mem_cons_iff]
    split_ifs with hvis
    · obtain ⟨b, hb, hiff⟩ := ih hmore' hst hprog
      exact ⟨b, hb, hiff.trans (or_iff_right fun hno => hno (hst.visited rule hvis)).symm⟩
    · have hcard : (idle rules st.inProgress).card < rules.length + 1 :=
        Nat.lt_succ_of_le ((Finset.card_filter_le _ _).trans_eq (Finset.card_range _))
      obtain ⟨m, hm⟩ := detect_returns hw (hmore rule List.mem_cons_self) hst hcard
      have hwalk := detect_walked hst hm
      rw [hm, Option.bind_eq_bind, Option.bind_some]
      have hfound := hwalk.found
      rw [hprog] at hfound
      split_ifs with hm1
      · exact ⟨true, rfl, fun _ => Or.inl (hfound.mp hm1), fun _ => rfl⟩
      · have hfalse : m.1 = false := by simpa using hm1
        obtain ⟨b, hb, hiff⟩ := ih hmore' hwalk.sound ((hwalk.inProgress hfalse).trans hprog)
        exact ⟨b, hb, hiff.trans (or_iff_right fun hno => hm1 (hfound.mpr hno)).symm⟩

theorem leftRecursive_spec (hw : Wellformed rules) :
    ∃ b, leftRecursive rules = some b ∧ (b = true ↔ ∃ x, TransGen (Follows rules) x x) := by
  obtain ⟨b, hb, hiff⟩ := detectAll_spec hw
    (fun rule (h : rule ∈ List.range rules.length) => List.mem_range.mp h) init_sound rfl
  refine ⟨b, hb, hiff.trans ⟨?_, ?_⟩⟩
  · rintro ⟨rule, -, hno⟩
    by_contra hcycle
    exact hno fun x _ => ⟨rfl, fun hx => hcycle ⟨x, hx⟩⟩
  · rintro ⟨x, hx⟩
    obtain ⟨c, hc, -⟩ := TransGen.head'_iff.mp hx
    exact ⟨x, List.mem_range.mpr (follows_lt hw hc).1, fun h => (h x .refl).2 hx⟩

/-! ## The references followed, as forms -/

/-- An alternative of `a` refers to `b` behind references to rules that have an alternative
without symbols. -/
def DirectRef (rules : GrammarRules) (a b : ℕ) : Prop :=
  ∃ α β, α ++ .ref b :: β ∈ alts rules a ∧ ∀ x ∈ α, ∃ r, x = .ref r ∧ [] ∈ alts rules r

theorem ref_mem_symbols {es : List GrammarElement} {r : ℕ} (h : .ref r ∈ symbols es) :
    ∃ e ∈ es, e.type = .ruleRef ∧ e.value = r := by
  induction es with
  | nil => exact absurd h List.not_mem_nil
  | cons e es ih =>
    have hmore (h : .ref r ∈ symbols es) : ∃ x ∈ e :: es, x.type = .ruleRef ∧ x.value = r := by
      obtain ⟨x, hx, hxr⟩ := ih h
      exact ⟨x, List.mem_cons_of_mem _ hx, hxr⟩
    rw [symbols] at h
    split_ifs at h with hend href
    · exact absurd h List.not_mem_nil
    · rcases List.mem_cons.mp h with hr | h
      · exact ⟨e, List.mem_cons_self, href, (Sym.ref.inj hr).symm⟩
      · exact hmore h
    · exact hmore ((List.mem_cons.mp h).resolve_left fun he => by cases he)
    · exact hmore ((List.mem_cons.mp h).resolve_left fun he => by cases he)
    · exact hmore h

theorem symbols_eq_nil_iff {e : GrammarElement} {es : List GrammarElement}
    (h : e.isModifier = false) : symbols (e :: es) = [] ↔ e.isEndOfSequence = true := by
  rw [symbols]
  obtain ⟨t, v⟩ := e
  cases t <;> simp_all [isModifier, isEndOfSequence, isChar, isToken]

/-- The form of an alternative begins with a reference behind references that `empty` holds of. -/
def InHead (empty : ℕ → Bool) (es : List GrammarElement) (b : ℕ) : Prop :=
  ∃ α β, symbols es = α ++ .ref b :: β ∧ ∀ x ∈ α, ∃ r, x = .ref r ∧ empty r = true

theorem inHead_nil {empty : ℕ → Bool} {b : ℕ} : ¬ InHead empty [] b := by
  rintro ⟨α, β, h, -⟩
  exact absurd h.symm (by simp [symbols])

theorem inHead_ref {empty : ℕ → Bool} {e : GrammarElement} {es : List GrammarElement} {b : ℕ}
    (href : e.type = .ruleRef) :
    InHead empty (e :: es) b ↔ b = e.value ∨ (empty e.value = true ∧ InHead empty es b) := by
  have hsym : symbols (e :: es) = .ref e.value :: symbols es := by
    rw [symbols, if_neg (by simp [isEndOfSequence, href]), if_pos href]
  rw [InHead, hsym]
  constructor
  · rintro ⟨α, β, h, hα⟩
    cases α with
    | nil =>
      rw [List.nil_append] at h
      exact Or.inl (Sym.ref.inj (List.cons.inj h).1).symm
    | cons x α =>
      obtain ⟨rfl, htail⟩ := List.cons.inj h
      obtain ⟨r, hr, hempty⟩ := hα _ List.mem_cons_self
      obtain rfl := Sym.ref.inj hr
      exact Or.inr ⟨hempty, α, β, htail, fun y hy => hα y (List.mem_cons_of_mem _ hy)⟩
  · rintro (rfl | ⟨hempty, α, β, h, hα⟩)
    · exact ⟨[], symbols es, rfl, fun _ hx => absurd hx List.not_mem_nil⟩
    · refine ⟨.ref e.value :: α, β, by rw [h, List.cons_append], fun x hx => ?_⟩
      rcases List.mem_cons.mp hx with rfl | hx
      · exact ⟨_, rfl, hempty⟩
      · exact hα x hx

theorem not_inHead {empty : ℕ → Bool} {e : GrammarElement} {es : List GrammarElement} {b : ℕ}
    (href : e.type ≠ .ruleRef) (hmod : e.isModifier = false) : ¬ InHead empty (e :: es) b := by
  rintro ⟨α, β, h, hα⟩
  by_cases hend : e.isEndOfSequence = true
  · rw [(symbols_eq_nil_iff hmod).mpr hend] at h
    exact absurd h.symm (by simp)
  · have hterm : ∃ S, symbols (e :: es) = .terminal S :: symbols es := by
      rw [symbols, if_neg hend, if_neg href]
      obtain ⟨t, v⟩ := e
      cases t <;> simp_all [isModifier, isEndOfSequence, isChar, isToken]
    obtain ⟨S, hS⟩ := hterm
    rw [hS] at h
    cases α with
    | nil => cases (List.cons.inj h).1
    | cons x α =>
      obtain ⟨rfl, -⟩ := List.cons.inj h
      obtain ⟨r, hr, -⟩ := hα _ List.mem_cons_self
      cases hr

theorem next_head_not_modifier {e : GrammarElement} {es : List GrammarElement}
    (hchain : (e :: es).IsChain fun a b => mayFollow a b) (hchar : e.isChar = false)
    (hmod : e.isModifier = false) : (es.headD endRule).isModifier = false := by
  cases es with
  | nil => rfl
  | cons next es =>
    by_contra hnext
    have hfollow := (List.isChain_cons_cons.mp hchain).1
    rw [mayFollow_eq_false (by simpa using hnext) hchar hmod] at hfollow
    exact absurd hfollow (by decide)

theorem mem_leftRefs {empty : ℕ → Bool} {es : List GrammarElement} {recurse : Bool} {b : ℕ}
    (hchain : es.IsChain fun a b => mayFollow a b)
    (hhead : recurse = true → (es.headD endRule).isModifier = false) :
    b ∈ leftRefs empty es recurse ↔ (recurse = true ∧ InHead empty es b) ∨
      ∃ pre e rest, es = pre ++ e :: rest ∧ e.isEndOfSequence = true ∧ InHead empty rest b := by
  induction es generalizing recurse with
  | nil => simp [leftRefs, inHead_nil]
  | cons e es ih =>
    have hsplit : (∃ pre x rest, e :: es = pre ++ x :: rest ∧ x.isEndOfSequence = true ∧
        InHead empty rest b) ↔ (e.isEndOfSequence = true ∧ InHead empty es b) ∨
        ∃ pre x rest, es = pre ++ x :: rest ∧ x.isEndOfSequence = true ∧ InHead empty rest b := by
      constructor
      · rintro ⟨pre, x, rest, h, hx, hb⟩
        cases pre with
        | nil =>
          obtain ⟨rfl, rfl⟩ := List.cons.inj h
          exact Or.inl ⟨hx, hb⟩
        | cons y pre => exact Or.inr ⟨pre, x, rest, (List.cons.inj h).2, hx, hb⟩
      · rintro (⟨hx, hb⟩ | ⟨pre, x, rest, rfl, hx, hb⟩)
        · exact ⟨[], e, es, rfl, hx, hb⟩
        · exact ⟨e :: pre, x, rest, rfl, hx, hb⟩
    rw [hsplit, leftRefs]
    split_ifs with href
    · have hchar : e.isChar = false := by simp [isChar, href.1]
      have hmod : e.isModifier = false := by simp [isModifier, href.1]
      have hend : e.isEndOfSequence = false := by simp [isEndOfSequence, href.1]
      rw [List.mem_cons, ih hchain.tail fun _ => next_head_not_modifier hchain hchar hmod,
        inHead_ref href.1, hend]
      simp only [href.2, true_and, Bool.false_eq_true, false_and, false_or, or_assoc]
    · rw [ih hchain.tail fun hend => next_head_not_modifier hchain
        (by
          obtain ⟨t, v⟩ := e
          cases t <;> simp_all [isChar, isEndOfSequence])
        (by
          obtain ⟨t, v⟩ := e
          cases t <;> simp_all [isModifier, isEndOfSequence])]
      refine (or_iff_right ?_).symm
      rintro ⟨hrec, hb⟩
      exact not_inHead (fun h => href ⟨h, hrec⟩) (hhead hrec) hb

theorem mem_emptyAlternate {es : List GrammarElement} {start : Bool} :
    emptyAlternate es start = true ↔
      (start = true ∧ ∃ e rest, es = e :: rest ∧ e.isEndOfSequence = true) ∨
      ∃ pre e x rest, es = pre ++ e :: x :: rest ∧ e.isEndOfSequence = true ∧
        x.isEndOfSequence = true := by
  induction es generalizing start with
  | nil => simp [emptyAlternate]
  | cons e es ih =>
    have hsplit : (∃ pre y x rest, e :: es = pre ++ y :: x :: rest ∧ y.isEndOfSequence = true ∧
        x.isEndOfSequence = true) ↔
        (e.isEndOfSequence = true ∧ ∃ x rest, es = x :: rest ∧ x.isEndOfSequence = true) ∨
        ∃ pre y x rest, es = pre ++ y :: x :: rest ∧ y.isEndOfSequence = true ∧
          x.isEndOfSequence = true := by
      constructor
      · rintro ⟨pre, y, x, rest, h, hy, hx⟩
        cases pre with
        | nil =>
          obtain ⟨rfl, rfl⟩ := List.cons.inj h
          exact Or.inl ⟨hy, x, rest, rfl, hx⟩
        | cons z pre => exact Or.inr ⟨pre, y, x, rest, (List.cons.inj h).2, hy, hx⟩
      · rintro (⟨he, x, rest, rfl, hx⟩ | ⟨pre, y, x, rest, rfl, hy, hx⟩)
        · exact ⟨[], e, x, rest, rfl, he, hx⟩
        · exact ⟨e :: pre, y, x, rest, rfl, hy, hx⟩
    rw [hsplit, emptyAlternate]
    split_ifs with hend
    · rw [Bool.or_eq_true, ih]
      simp only [true_and, List.cons.injEq, hend]
      constructor
      · rintro (h | h)
        · exact Or.inl ⟨h, e, es, ⟨rfl, rfl⟩, hend⟩
        · exact Or.inr h
      · rintro (⟨h, -⟩ | h)
        · exact Or.inl h
        · exact Or.inr h
    · rw [ih]
      simp only [hend, Bool.false_eq_true, false_and, false_or]
      refine (or_iff_right ?_).symm
      rintro ⟨-, x, rest, h, hx⟩
      obtain ⟨rfl, rfl⟩ := List.cons.inj h
      exact hend hx

theorem rule_parts (hw : Wellformed rules) {rule : ℕ} (hlt : rule < rules.length) :
    ∃ body, (rules[rule]?).getD [] = body ++ [endRule] ∧
      (⟨.alt, 0⟩ :: (rules[rule]?).getD []).IsChain (fun a b => mayFollow a b) ∧
      ∀ pre e rest, (rules[rule]?).getD [] = pre ++ e :: rest → e.type = .endRule → rest = [] := by
  rw [List.getElem?_eq_getElem hlt, Option.getD_some]
  have hmem := List.getElem_mem hlt
  obtain ⟨body, hbody⟩ := hw.ended _ hmem
  exact ⟨body, hbody, hw.formed _ hmem, hw.closed _ hmem⟩

theorem mayBeEmpty_iff (hw : Wellformed rules) {rule : ℕ} (hlt : rule < rules.length) :
    mayBeEmpty rules rule = true ↔ [] ∈ alts rules rule := by
  obtain ⟨body, hbody, hchain, hclosed⟩ := rule_parts hw hlt
  rw [mayBeEmpty, mem_emptyAlternate]
  constructor
  · rintro (⟨-, e, rest, h, he⟩ | ⟨pre, e, x, rest, h, he, hx⟩)
    · refine ⟨[], ⟨.alt, 0⟩, _, rfl, rfl, ?_⟩
      rw [h, symbols, if_pos he]
    · have halt : e.type = .alt := by
        by_contra hno
        have hend : e.type = .endRule := by simpa [isEndOfSequence, hno] using he
        exact absurd (hclosed _ _ _ h hend) (List.cons_ne_nil _ _)
      exact ⟨⟨.alt, 0⟩ :: pre, e, x :: rest, by rw [h]; rfl, halt, by rw [symbols, if_pos hx]⟩
  · rintro ⟨pre, e, rest, h, he, hnil⟩
    -- the alternative is not cut off, so an end is where it starts
    obtain ⟨x, rest, rfl⟩ : ∃ x rest', rest = x :: rest' := by
      cases rest with
      | nil =>
        have hlast : (pre ++ [e]).getLast? = some e := by simp
        rw [← h, hbody, ← List.cons_append, List.getLast?_concat] at hlast
        rw [← Option.some.inj hlast] at he
        cases he
      | cons x rest => exact ⟨x, rest, rfl⟩
    have hx : x.isModifier = false := by
      have hchain' : (e :: x :: rest).IsChain fun a b => mayFollow a b :=
        (h ▸ hchain : (pre ++ e :: x :: rest).IsChain _).suffix (List.suffix_append _ _)
      exact next_head_not_modifier hchain' (by simp [isChar, he]) (by simp [isModifier, he])
    have hend := (symbols_eq_nil_iff hx).mp hnil.symm
    cases pre with
    | nil =>
      obtain ⟨-, hr⟩ := List.cons.inj h
      exact Or.inl ⟨rfl, x, rest, hr, hend⟩
    | cons y pre =>
      exact Or.inr ⟨pre, e, x, rest, (List.cons.inj h).2, by simp [isEndOfSequence, he], hend⟩

theorem follows_iff (hw : Wellformed rules) {a b : ℕ} (hlt : a < rules.length) :
    Follows rules a b ↔ DirectRef rules a b := by
  obtain ⟨body, hbody, hchain, hclosed⟩ := rule_parts hw hlt
  have hrefs : ∀ r, (∃ pre rest, ⟨.alt, 0⟩ :: (rules[a]?).getD [] = pre ++ rest ∧
      .ref r ∈ symbols rest) → r < rules.length := by
    rintro r ⟨pre, rest, h, hr⟩
    obtain ⟨e, he, href, rfl⟩ := ref_mem_symbols hr
    have hmem : e ∈ ⟨.alt, 0⟩ :: (rules[a]?).getD [] := h ▸ List.mem_append_right _ he
    rw [List.getElem?_eq_getElem hlt, Option.getD_some] at hmem
    rcases List.mem_cons.mp hmem with rfl | hmem
    · nomatch href
    · exact hw.refs _ (List.getElem_mem hlt) e hmem href
  have hhead : ∀ pre rest, ⟨.alt, 0⟩ :: (rules[a]?).getD [] = pre ++ rest →
      (InHead (mayBeEmpty rules) rest b ↔ ∃ α β, symbols rest = α ++ .ref b :: β ∧
        ∀ x ∈ α, ∃ r, x = .ref r ∧ [] ∈ alts rules r) := by
    intro pre rest h
    refine exists_congr fun α => exists_congr fun β => and_congr_right fun hsym => ?_
    refine forall₂_congr fun x hx => exists_congr fun r => and_congr_right fun hr => ?_
    refine mayBeEmpty_iff hw (hrefs r ⟨pre, rest, h, ?_⟩)
    rw [hsym, ← hr]
    exact List.mem_append_left _ hx
  have hrule : ((rules[a]?).getD []).IsChain fun a b => mayFollow a b := hchain.tail
  rw [Follows, mem_leftRefs hrule
    (fun _ => next_head_not_modifier hchain rfl rfl)]
  constructor
  · rintro (⟨-, h⟩ | ⟨pre, e, rest, hr, he, h⟩)
    · obtain ⟨α, β, hsym, hα⟩ := (hhead [⟨.alt, 0⟩] _ rfl).mp h
      exact ⟨α, β, ⟨[], ⟨.alt, 0⟩, _, rfl, rfl, hsym.symm⟩, hα⟩
    · have halt : e.type = .alt := by
        by_contra hno
        have hend : e.type = .endRule := by simpa [isEndOfSequence, hno] using he
        exact inHead_nil (hclosed _ _ _ hr hend ▸ h)
      obtain ⟨α, β, hsym, hα⟩ := (hhead (⟨.alt, 0⟩ :: pre ++ [e]) rest (by rw [hr]; simp)).mp h
      exact ⟨α, β, ⟨⟨.alt, 0⟩ :: pre, e, rest, by rw [hr]; rfl, halt, hsym.symm⟩, hα⟩
  · rintro ⟨α, β, ⟨pre, e, rest, hr, he, hsym⟩, hα⟩
    have h := (hhead (pre ++ [e]) rest (by rw [hr]; simp)).mpr ⟨α, β, hsym.symm, hα⟩
    cases pre with
    | nil =>
      obtain ⟨-, rfl⟩ := List.cons.inj hr
      exact Or.inl ⟨rfl, h⟩
    | cons y pre =>
      exact Or.inr ⟨pre, e, rest, (List.cons.inj hr).2, by simp [isEndOfSequence, he], h⟩

theorem DirectRef.leftRef {a b : ℕ} (h : DirectRef rules a b) :
    Sym.LeftRef (alts rules) a b := by
  obtain ⟨α, β, hmem, hα⟩ := h
  refine ⟨α, β, hmem, ?_⟩
  clear hmem
  induction α with
  | nil => exact .nil
  | cons x α ih =>
    obtain ⟨r, rfl, hr⟩ := hα x List.mem_cons_self
    exact .ref hr .nil (ih fun y hy => hα y (List.mem_cons_of_mem _ hy))

end GrammarRules
end RocmFpx
