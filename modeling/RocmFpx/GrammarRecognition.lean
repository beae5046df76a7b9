import RocmFpx.GrammarLeftRecursion

/-!
What an accepted rule set is good for. Without left recursion every advance ends and leaves a
stack; the detector takes left recursion hidden behind a rule that is empty only through other
rules for none. Where such a rule comes back with something left over behind it, the stacks grow
for ever, and only there: everywhere else the stacks kept are the settled configurations.
-/

namespace RocmFpx

open GrammarRules GrammarElement Worklist Relation

/-- The arguments of `llama_grammar_init_impl`. -/
structure RuleArrays where
  rules : GrammarRules
  startRule : ℕ
  formed : ∀ r ∈ rules, Formed r
  startRule_lt : startRule < rules.length

namespace RuleArrays

/-- `vec_rules`. -/
def copied (g : RuleArrays) : GrammarRules := g.rules.map copyRule

/-- Every reference is defined and no left recursion was detected. -/
def Accepted (g : RuleArrays) : Prop :=
  undefinedRef g.copied = false ∧ leftRecursive g.copied = some false

instance (g : RuleArrays) : Decidable g.Accepted := inferInstanceAs (Decidable (_ ∧ _))

/-- `llama_grammar_init_impl`: `some none` is the null pointer. -/
def initImpl (g : RuleArrays) (fuel : ℕ) : Option (Option (List GrammarStack)) :=
  if undefinedRef g.copied then some none
  else do
    if ← leftRecursive g.copied then some none
    else (initialStacks g.copied fuel g.startRule).map some

theorem copyRule_formed {es : List GrammarElement} (h : Formed es) : Formed (copyRule es) := by
  have hpre : (⟨.alt, 0⟩ :: es.takeWhile fun e => e.type ≠ .endRule) <+: ⟨.alt, 0⟩ :: es :=
    List.cons_prefix_cons.mpr ⟨rfl, List.takeWhile_prefix _⟩
  have hchain := h.prefix hpre
  rw [Formed, copyRule, ← List.cons_append]
  refine List.isChain_append.mpr ⟨hchain, List.isChain_singleton _, fun x _ y hy => ?_⟩
  obtain rfl : endRule = y := by simpa using hy
  rfl

theorem copyRule_closed {es pre rest : List GrammarElement} {e : GrammarElement}
    (h : copyRule es = pre ++ e :: rest) (he : e.type = .endRule) : rest = [] := by
  rcases List.eq_nil_or_concat rest with rfl | ⟨rest, x, rfl⟩
  · rfl
  · rw [copyRule, List.concat_eq_append, ← List.cons_append, ← List.append_assoc] at h
    have hmem : e ∈ es.takeWhile fun e => e.type ≠ .endRule := by
      rw [(List.append_inj' h rfl).1]
      exact List.mem_append_right _ List.mem_cons_self
    have hne := List.all_eq_true.mp List.all_takeWhile e hmem
    simp [he] at hne

theorem wellformed {g : RuleArrays} (h : undefinedRef g.copied = false) :
    Wellformed g.copied where
  formed r hr := by
    obtain ⟨es, hes, rfl⟩ := List.mem_map.mp hr
    exact copyRule_formed (g.formed es hes)
  closed r hr pre e rest hsplit he := by
    obtain ⟨es, -, rfl⟩ := List.mem_map.mp hr
    exact copyRule_closed hsplit he
  ended r hr := by
    obtain ⟨es, -, rfl⟩ := List.mem_map.mp hr
    exact ⟨_, rfl⟩
  refs r hr e he href := by
    by_contra hno
    rw [undefinedRef, List.any_eq_false] at h
    refine h r hr (List.any_eq_true.mpr ⟨e, he, ?_⟩)
    simp [href, not_lt.mp hno]

end RuleArrays

namespace GrammarRules

variable {rules : GrammarRules} {startRule : ℕ} {s t : GrammarStack}

theorem leftRef_lt {a b : ℕ} (h : Sym.LeftRef (alts rules) a b) : a < rules.length := by
  by_contra hno
  obtain ⟨α, β, ⟨pre, e, rest, hr, -, hsym⟩, -⟩ := h
  rw [List.getElem?_eq_none (not_lt.mp hno), Option.getD_none] at hr
  have hrest : rest = [] := by
    have hlen := congrArg List.length hr
    simp only [List.length_cons, List.length_nil, List.length_append] at hlen
    exact List.length_eq_zero_iff.mp (by omega)
  rw [hrest, symbols] at hsym
  exact absurd hsym (by simp)

theorem follows_eq (hw : Wellformed rules) : Follows rules = DirectRef rules := by
  funext a b
  refine propext ⟨fun h => (follows_iff hw (follows_lt hw h).1).mp h, fun h => ?_⟩
  exact (follows_iff hw (leftRef_lt h.leftRef)).mpr h

theorem next_acc (hw : Wellformed rules)
    (h : Acc (fun t s => Sym.Expand (alts rules) s t) (form rules s)) :
    Acc (fun t s => Next (visit rules) s t) s := by
  generalize hform : form rules s = β at h
  induction h generalizing s with
  | intro β _ ih =>
    exact Acc.intro _ fun t ht => ih _ (hform ▸ next_expand hw ht) rfl

/-! ## Advancing ends -/

/-- An advance ends and leaves a stack. -/
def Advances (rules : GrammarRules) (s : GrammarStack) : Prop :=
  ∃ fuel out, advanceStack rules fuel s [] = some out ∧ out ≠ []

/-- What a character or a token makes of a stack before it is advanced. -/
def Moves (rules : GrammarRules) (s s' : GrammarStack) : Prop :=
  ∃ pos base, s = pos :: base ∧
    ((∃ chr m, matchChar rules pos chr = some m ∧ m.1 = true ∧ s' = push rules m.2 base) ∨
      ∃ token, matchToken rules pos token = true ∧ s' = push rules (pos.add 1) base)

/-- The stacks that advancing leads to, from the start rule or from such a stack. -/
inductive ReachableStack (rules : GrammarRules) (startRule : ℕ) : GrammarStack → Prop
  | start {subpos fuel out t} (hsub : subpos ∈ alternates rules startRule)
      (hadv : advanceStack rules fuel (push rules subpos []) [] = some out) (ht : t ∈ out) :
      ReachableStack rules startRule t
  | step {s s' fuel out t} (h : ReachableStack rules startRule s) (hmove : Moves rules s s')
      (hadv : advanceStack rules fuel s' [] = some out) (ht : t ∈ out) :
      ReachableStack rules startRule t

/-- Every advance that a parse can come to ends and leaves a stack. -/
def Productive (rules : GrammarRules) (startRule : ℕ) : Prop :=
  (∀ subpos ∈ alternates rules startRule, Advances rules (push rules subpos [])) ∧
    ∀ s, ReachableStack rules startRule s → ∀ s', Moves rules s s' → Advances rules s'

theorem matchToken_isToken {pos : ElementPtr} {token : ℕ}
    (h : matchToken rules pos token = true) : (elem rules pos).isToken = true := by
  rw [matchToken] at h
  generalize elem rules pos = e at h ⊢
  obtain ⟨t, v⟩ := e
  cases t <;> simp_all [isToken]

theorem Moves.proper (hw : Wellformed rules) (h : Moves rules s t) (hp : Proper rules s) :
    Proper rules t := by
  obtain ⟨pos, base, rfl, h⟩ := h
  have hbase : Proper rules base := fun p hm => hp p (List.mem_cons_of_mem _ hm)
  rcases h with ⟨chr, m, hm, -, rfl⟩ | ⟨token, htoken, rfl⟩
  · have hchar : (elem rules pos).isChar = true := by
      by_contra hno
      rw [matchChar, if_neg hno] at hm
      cases hm
    obtain ⟨m', hm', -, hpast⟩ := matchChar_spec hw hchar chr
    obtain rfl := Option.some.inj (hm'.symm.trans hm)
    rw [hpast]
    exact hbase.push (pastClass_not_modifier _)
  · have htok := matchToken_isToken htoken
    refine hbase.push (next_not_modifier hw fun next hnext => ?_)
    refine mayFollow_eq_false hnext (isToken_ne_isChar htok) ?_
    generalize elem rules pos = e at htok
    obtain ⟨t, v⟩ := e
    cases t <;> simp_all [isToken, isModifier]

theorem ReachableStack.proper (hw : Wellformed rules) (h : ReachableStack rules startRule t) :
    Proper rules t := by
  induction h with
  | start hsub hadv ht =>
    obtain ⟨hr, -⟩ := ((advanceStack_mem hadv _).mp ht).resolve_left List.not_mem_nil
    exact (proper_nil.push (alternates_not_modifier hw hsub)).reaches hw hr
  | step _ hmove hadv ht ih =>
    obtain ⟨hr, -⟩ := ((advanceStack_mem hadv _).mp ht).resolve_left List.not_mem_nil
    exact (hmove.proper hw ih).reaches hw hr

theorem advances_of_acyclic (hw : Wellformed rules)
    (hcycle : ∀ r, ¬ TransGen (Sym.LeftRef (alts rules)) r r) (hp : Proper rules s) :
    Advances rules s := by
  have hacc : Acc (fun t s => Next (visit rules) s t) s :=
    next_acc hw (Sym.expand_acc (Sym.acc_of_acyclic (Finset.range rules.length)
      (fun a b h => Finset.mem_range.mpr (leftRef_lt h)) hcycle) _)
  obtain ⟨fuel, out, hrun⟩ := search_returns_of_acc hacc
    (fun t ht => visit_ne_stuck (hp.reaches hw ht)) []
  obtain ⟨t, ht, hkeep⟩ := exists_kept hacc fun t ht => by
    cases t with
    | nil => exact Or.inl rfl
    | cons pos base =>
      exact (visit_cases (hp.reaches hw ht pos List.mem_cons_self) base).imp id exists_next
  refine ⟨fuel, out, hrun, fun hnil => ?_⟩
  have hmem := (advanceStack_mem hrun t).mpr (Or.inr ⟨ht, hkeep⟩)
  rw [hnil] at hmem
  exact absurd hmem List.not_mem_nil

end GrammarRules

namespace RuleArrays

/-- What acceptance promises holds exactly when left recursion is nowhere hidden: where some rule
is left recursive, one is so behind rules that have an alternative without symbols. -/
theorem accepted_productive_iff (g : RuleArrays) :
    (g.Accepted → Productive g.copied g.startRule ∧
      ∀ r, ¬ TransGen (Sym.LeftRef (alts g.copied)) r r) ↔
    (undefinedRef g.copied = false → (∃ r, TransGen (Sym.LeftRef (alts g.copied)) r r) →
      ∃ r, TransGen (DirectRef g.copied) r r) := by
  constructor
  · rintro h hdef ⟨r, hr⟩
    have hw := wellformed hdef
    obtain ⟨b, hb, hiff⟩ := leftRecursive_spec hw
    rw [follows_eq hw] at hiff
    cases b with
    | true => exact hiff.mp rfl
    | false => exact absurd hr ((h ⟨hdef, hb⟩).2 r)
  · rintro h ⟨hdef, hrec⟩
    have hw := wellformed hdef
    obtain ⟨b, hb, hiff⟩ := leftRecursive_spec hw
    rw [follows_eq hw] at hiff
    obtain rfl : b = false := Option.some.inj (hb.symm.trans hrec)
    have hcycle : ∀ r, ¬ TransGen (Sym.LeftRef (alts g.copied)) r r := fun r hr =>
      absurd (hiff.mpr (h hdef ⟨r, hr⟩)) (by decide)
    refine ⟨⟨fun subpos hsub => ?_, fun s hs s' hmove => ?_⟩, hcycle⟩
    · exact advances_of_acyclic hw hcycle (proper_nil.push (alternates_not_modifier hw hsub))
    · exact advances_of_acyclic hw hcycle (hmove.proper hw (hs.proper hw))

end RuleArrays
end RocmFpx
