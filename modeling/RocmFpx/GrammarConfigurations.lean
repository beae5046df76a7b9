import RocmFpx.GrammarSymbols
import Mathlib.Data.Set.Finite.List

/-!
The pushdown configurations of a grammar: the stacks that leftmost derivations of the start rule
come to. The stacks kept after a string are exactly the settled configurations that have consumed
it, and the functions return where only finitely many configurations are reachable.
-/

namespace RocmFpx
namespace GrammarRules

open GrammarElement Worklist

/-- The stacks a leftmost derivation of the start rule has come to with a string consumed. -/
inductive Configuration (rules : GrammarRules) (startRule : ℕ) : List ℕ → GrammarStack → Prop
  | start {subpos} (h : subpos ∈ alternates rules startRule) :
      Configuration rules startRule [] (push rules subpos [])
  | expand {w pos base subpos} (h : Configuration rules startRule w (pos :: base))
      (href : (elem rules pos).type = .ruleRef)
      (hsub : subpos ∈ alternates rules (elem rules pos).value) :
      Configuration rules startRule w (push rules subpos (push rules (pos.add 1) base))
  | consume {w pos base chr} (h : Configuration rules startRule w (pos :: base))
      (hchar : (elem rules pos).isChar = true) (hchr : chr ∈ matchSet rules pos) :
      Configuration rules startRule (w ++ [chr]) (push rules (pastClass rules pos) base)

/-- The configurations not expanded yet: where a derivation starts or has just consumed. -/
inductive Begins (rules : GrammarRules) (startRule : ℕ) : List ℕ → GrammarStack → Prop
  | start {subpos} (h : subpos ∈ alternates rules startRule) :
      Begins rules startRule [] (push rules subpos [])
  | consume {w pos base chr} (h : Configuration rules startRule w (pos :: base))
      (hchar : (elem rules pos).isChar = true) (hchr : chr ∈ matchSet rules pos) :
      Begins rules startRule (w ++ [chr]) (push rules (pastClass rules pos) base)

variable {rules : GrammarRules} {startRule : ℕ} {w : List ℕ} {s t : GrammarStack}

theorem configuration_iff : Configuration rules startRule w t ↔
    ∃ s, Begins rules startRule w s ∧ Reaches (visit rules) s t := by
  constructor
  · intro h
    induction h with
    | start h => exact ⟨_, .start h, .refl⟩
    | expand _ href hsub ih =>
      obtain ⟨s, hs, hr⟩ := ih
      exact ⟨s, hs, hr.tail (next_iff.2 ⟨_, _, rfl, href, _, hsub, rfl⟩)⟩
    | consume h hchar hchr _ => exact ⟨_, .consume h hchar hchr, .refl⟩
  · rintro ⟨s, hs, hr⟩
    induction hr with
    | refl =>
      cases hs with
      | start h => exact .start h
      | consume h hchar hchr => exact .consume h hchar hchr
    | tail _ hn ih =>
      obtain ⟨pos, base, rfl, href, subpos, hsub, rfl⟩ := next_iff.1 hn
      exact .expand ih href hsub

/-! ## Configurations and leftmost derivations -/

theorem pastClass_not_modifier (pos : ElementPtr) :
    (elem rules (pastClass rules pos)).isModifier = false := by
  rw [elem, pastClass, behind_add]
  cases hb : behind rules pos with
  | nil => rfl
  | cons e es =>
    rw [List.tail_cons, Nat.add_comm, List.drop_succ_cons]
    clear hb
    induction es with
    | nil => rfl
    | cons x es ih =>
      rw [List.takeWhile_cons]
      split_ifs with hx
      · rw [List.length_cons, List.drop_succ_cons]
        exact ih
      · simpa using hx

theorem Configuration.proper (hw : Wellformed rules) (h : Configuration rules startRule w t) :
    Proper rules t := by
  induction h with
  | start h => exact proper_nil.push (alternates_not_modifier hw h)
  | expand _ href hsub ih => exact ih.next hw (next_iff.2 ⟨_, _, rfl, href, _, hsub, rfl⟩)
  | consume _ _ _ ih =>
    exact Proper.push (fun p hp => ih p (List.mem_cons_of_mem _ hp)) (pastClass_not_modifier _)

theorem form_char {pos : ElementPtr} {base : GrammarStack} (h : (elem rules pos).isChar = true) :
    form rules (pos :: base) =
      .terminal (matchSet rules pos) :: form rules (push rules (pastClass rules pos) base) := by
  rw [form_push, form, List.flatMap_cons, symbols_char h, List.cons_append, form]

theorem Configuration.leftmost (hw : Wellformed rules) (h : Configuration rules startRule w t) :
    Sym.Leftmost (alts rules) [.ref startRule] w (form rules t) := by
  induction h with
  | start h =>
    rw [form_push]
    exact .expand .refl ((mem_alts hw _ _).mpr ⟨_, h, rfl⟩)
  | expand _ href hsub ih =>
    rw [form_ref href] at ih
    rw [form_push, form_push]
    exact .expand ih ((mem_alts hw _ _).mpr ⟨_, hsub, rfl⟩)
  | consume _ hchar hchr ih =>
    rw [form_char hchar] at ih
    exact .consume ih hchr

theorem leftmost_configuration (hw : Wellformed rules) {β : List (Sym ℕ ℕ)}
    (h : Sym.Leftmost (alts rules) [.ref startRule] w β) :
    (w = [] ∧ β = [.ref startRule]) ∨ ∃ t, Configuration rules startRule w t ∧ form rules t = β := by
  induction h with
  | refl => exact Or.inl ⟨rfl, rfl⟩
  | expand _ hα ih =>
    rcases ih with ⟨rfl, hβ⟩ | ⟨t, ht, hform⟩
    · obtain ⟨hr, rfl⟩ := List.cons.inj hβ
      obtain rfl := Sym.ref.inj hr
      obtain ⟨subpos, hsub, rfl⟩ := (mem_alts hw _ _).mp hα
      exact Or.inr ⟨_, .start hsub, form_push⟩
    · obtain ⟨u, hn, hu⟩ := expand_next hw (ht.proper hw) (hform ▸ Sym.Expand.mk _ _ _ hα)
      obtain ⟨pos, base, rfl, href, subpos, hsub, rfl⟩ := next_iff.1 hn
      exact Or.inr ⟨_, .expand ht href hsub, hu⟩
  | consume _ hc ih =>
    rcases ih with ⟨-, hβ⟩ | ⟨t, ht, hform⟩
    · cases (List.cons.inj hβ).1
    · cases t with
      | nil => cases hform
      | cons pos base =>
        rcases visit_cases (ht.proper hw pos List.mem_cons_self) base with hs | href
        · rcases settled_cons_iff.1 hs with hchar | htoken
          · rw [form_char hchar] at hform
            obtain ⟨hS, rfl⟩ := List.cons.inj hform
            obtain rfl := Sym.terminal.inj hS
            exact Or.inr ⟨_, .consume ht hchar hc, rfl⟩
          · rw [form, List.flatMap_cons, symbols_token htoken] at hform
            obtain rfl := Sym.terminal.inj (List.cons.inj hform).1
            exact absurd hc (Set.notMem_empty _)
        · rw [form_ref href] at hform
          cases (List.cons.inj hform).1

theorem derives_iff_configuration (hw : Wellformed rules) :
    Sym.Derives (alts rules) [.ref startRule] w ↔ Configuration rules startRule w [] := by
  rw [Sym.derives_iff_leftmost]
  constructor
  · intro h
    rcases leftmost_configuration hw h with ⟨-, hβ⟩ | ⟨t, ht, hform⟩
    · nomatch hβ
    · rwa [eq_nil_of_form (ht.proper hw) hform] at ht
  · intro h
    exact h.leftmost hw

/-! ## The stacks that are kept -/

theorem advanceStack_mem {fuel : ℕ} {newStacks out : List GrammarStack}
    (h : advanceStack rules fuel s newStacks = some out) (t : GrammarStack) :
    t ∈ out ↔ t ∈ newStacks ∨ (Reaches (visit rules) s t ∧ Settled rules t) := by
  rw [mem_search h t]
  simp only [List.mem_singleton, exists_eq_left, Settled]

theorem advanceStack_mono (rules : GrammarRules) :
    Mono fun fuel newStacks s => advanceStack rules fuel s newStacks :=
  fun _ _ _ _ _ hle h => search_mono_le hle h

theorem advanceStack_mono' (rules : GrammarRules) :
    Mono fun fuel newStacks pos => advanceStack rules fuel (push rules pos []) newStacks :=
  fun _ _ _ _ _ hle h => search_mono_le hle h

/-- What a character makes of a stack. -/
def Consumes (rules : GrammarRules) (chr : ℕ) (s t : GrammarStack) : Prop :=
  ∃ pos base, s = pos :: base ∧ (elem rules pos).isChar = true ∧ chr ∈ matchSet rules pos ∧
    t = push rules (pastClass rules pos) base

theorem isToken_ne_isChar {e : GrammarElement} (h : e.isToken = true) : e.isChar = false := by
  obtain ⟨t, v⟩ := e
  cases t <;> simp_all [isChar, isToken]

theorem acceptChr_token {fuel chr : ℕ} {pos : ElementPtr} {base : GrammarStack}
    {newStacks : List GrammarStack} (h : (elem rules pos).isToken = true) :
    acceptChr rules fuel (pos :: base) chr newStacks = some newStacks := by
  rw [acceptChr, if_pos h]

theorem acceptChr_char (hw : Wellformed rules) {pos : ElementPtr}
    (h : (elem rules pos).isChar = true) (fuel chr : ℕ) (base : GrammarStack)
    (newStacks : List GrammarStack) :
    (chr ∈ matchSet rules pos ∧ acceptChr rules fuel (pos :: base) chr newStacks =
      advanceStack rules fuel (push rules (pastClass rules pos) base) newStacks) ∨
    (chr ∉ matchSet rules pos ∧
      acceptChr rules fuel (pos :: base) chr newStacks = some newStacks) := by
  have htoken : (elem rules pos).isToken ≠ true := fun ht => by
    rw [isToken_ne_isChar ht] at h
    exact absurd h (by decide)
  obtain ⟨m, hm, hfound, hpast⟩ := matchChar_spec hw h chr
  rw [acceptChr, if_neg htoken, hm, Option.bind_eq_bind, Option.bind_some, hpast]
  by_cases hin : chr ∈ matchSet rules pos
  · exact Or.inl ⟨hin, by rw [if_pos (hfound.mpr hin)]⟩
  · exact Or.inr ⟨hin, by rw [if_neg fun hf => hin (hfound.mp hf)]⟩

theorem acceptChr_other {fuel chr : ℕ} {pos : ElementPtr} {base : GrammarStack}
    {newStacks : List GrammarStack} (hchar : (elem rules pos).isChar ≠ true)
    (htoken : (elem rules pos).isToken ≠ true) :
    acceptChr rules fuel (pos :: base) chr newStacks = none := by
  rw [acceptChr, if_neg htoken, matchChar, if_neg hchar]
  rfl

theorem acceptChr_mem (hw : Wellformed rules) {fuel chr : ℕ} {newStacks out : List GrammarStack}
    (h : acceptChr rules fuel s chr newStacks = some out) (t : GrammarStack) :
    t ∈ out ↔ t ∈ newStacks ∨
      ∃ s', Consumes rules chr s s' ∧ Reaches (visit rules) s' t ∧ Settled rules t := by
  cases s with
  | nil =>
    obtain rfl : newStacks = out := by simpa [acceptChr] using h
    refine ⟨Or.inl, fun ht => ht.resolve_right ?_⟩
    rintro ⟨s', ⟨pos, base, hs, -⟩, -⟩
    nomatch hs
  | cons pos base =>
    have hnone (hno : ¬ ((elem rules pos).isChar = true ∧ chr ∈ matchSet rules pos)) :
        ¬ ∃ s', Consumes rules chr (pos :: base) s' ∧ Reaches (visit rules) s' t ∧
          Settled rules t := by
      rintro ⟨s', ⟨pos', base', hs, hchar, hchr, -⟩, -⟩
      obtain ⟨rfl, rfl⟩ := List.cons.inj hs
      exact hno ⟨hchar, hchr⟩
    by_cases hchar : (elem rules pos).isChar = true
    · rcases acceptChr_char hw hchar fuel chr base newStacks with ⟨hin, hrun⟩ | ⟨hin, hrun⟩
      · rw [hrun] at h
        rw [advanceStack_mem h t]
        refine or_congr_right ⟨fun ht => ⟨_, ⟨pos, base, rfl, hchar, hin, rfl⟩, ht⟩, ?_⟩
        rintro ⟨s', ⟨pos', base', hs, -, -, rfl⟩, ht⟩
        obtain ⟨rfl, rfl⟩ := List.cons.inj hs
        exact ht
      · obtain rfl : newStacks = out := Option.some.inj (hrun.symm.trans h)
        exact ⟨Or.inl, fun ht => ht.resolve_right (hnone fun hc => hin hc.2)⟩
    · by_cases htoken : (elem rules pos).isToken = true
      · obtain rfl : newStacks = out := Option.some.inj ((acceptChr_token htoken).symm.trans h)
        exact ⟨Or.inl, fun ht => ht.resolve_right (hnone fun hc => hchar hc.1)⟩
      · rw [acceptChr_other hchar htoken] at h
        nomatch h

theorem acceptChr_mono (hw : Wellformed rules) (chr : ℕ) :
    Mono fun fuel newStacks s => acceptChr rules fuel s chr newStacks := by
  intro fuel more newStacks s out hle h
  cases s with
  | nil => exact h
  | cons pos base =>
    by_cases hchar : (elem rules pos).isChar = true
    · rcases acceptChr_char hw hchar fuel chr base newStacks with ⟨hin, hrun⟩ | ⟨hin, hrun⟩
      · rcases acceptChr_char hw hchar more chr base newStacks with ⟨-, hrun'⟩ | ⟨hnot, -⟩
        · exact hrun'.trans (advanceStack_mono rules _ _ _ _ _ hle (hrun.symm.trans h))
        · exact absurd hin hnot
      · rcases acceptChr_char hw hchar more chr base newStacks with ⟨hnot, -⟩ | ⟨-, hrun'⟩
        · exact absurd hnot hin
        · exact hrun'.trans (hrun.symm.trans h)
    · by_cases htoken : (elem rules pos).isToken = true
      · exact (acceptChr_token htoken).trans ((acceptChr_token htoken).symm.trans h)
      · have h : acceptChr rules fuel (pos :: base) chr newStacks = some out := h
        rw [acceptChr_other hchar htoken] at h
        nomatch h

theorem accept_mem (hw : Wellformed rules) {fuel chr : ℕ} {stackList out : List GrammarStack}
    (h : accept rules fuel stackList chr = some out) (t : GrammarStack) :
    t ∈ out ↔ ∃ s ∈ stackList, ∃ s', Consumes rules chr s s' ∧ Reaches (visit rules) s' t ∧
      Settled rules t := by
  rw [mem_foldlM (f := fun acc s => acceptChr rules fuel s chr acc)
    (fun _ _ _ hx y => acceptChr_mem hw hx y) h t]
  exact ⟨fun ht => ht.resolve_left List.not_mem_nil, Or.inr⟩

theorem initialStacks_mem {fuel : ℕ} {out : List GrammarStack}
    (h : initialStacks rules fuel startRule = some out) (t : GrammarStack) :
    t ∈ out ↔ Settled rules t ∧ ∃ s, Begins rules startRule [] s ∧ Reaches (visit rules) s t := by
  rw [mem_foldlM (f := fun acc pos => advanceStack rules fuel (push rules pos []) acc)
    (fun _ _ _ hx y => advanceStack_mem hx y) h t]
  constructor
  · intro ht
    obtain ⟨subpos, hsub, hr, hs⟩ := ht.resolve_left List.not_mem_nil
    exact ⟨hs, _, .start hsub, hr⟩
  · rintro ⟨hs, s, hb, hr⟩
    generalize hw : ([] : List ℕ) = w at hb
    cases hb with
    | start hsub => exact Or.inr ⟨_, hsub, hr, hs⟩
    | consume => exact absurd hw.symm (by simp)

theorem consumes_begins {chr : ℕ} (h : Configuration rules startRule w s)
    (hc : Consumes rules chr s t) : Begins rules startRule (w ++ [chr]) t := by
  obtain ⟨pos, base, rfl, hchar, hchr, rfl⟩ := hc
  exact .consume h hchar hchr

theorem begins_consumes {chr : ℕ} (h : Begins rules startRule (w ++ [chr]) t) :
    ∃ s, Configuration rules startRule w s ∧ Settled rules s ∧ Consumes rules chr s t := by
  generalize hw : w ++ [chr] = w' at h
  cases h with
  | start => exact absurd hw (by simp)
  | consume h hchar hchr =>
    obtain ⟨rfl, hc⟩ := List.append_inj' hw rfl
    obtain rfl := List.singleton_inj.mp hc
    exact ⟨_, h, settled_cons_iff.2 (Or.inl hchar), _, _, rfl, hchar, hchr, rfl⟩

theorem acceptAll_append {fuel chr : ℕ} {out : List GrammarStack}
    (h : acceptAll rules fuel startRule (w ++ [chr]) = some out) :
    ∃ mid, acceptAll rules fuel startRule w = some mid ∧ accept rules fuel mid chr = some out := by
  rw [acceptAll] at h ⊢
  obtain ⟨init, hinit, h⟩ := Option.bind_eq_some_iff.mp h
  rw [List.foldlM_append] at h
  obtain ⟨mid, hmid, h⟩ := Option.bind_eq_some_iff.mp h
  refine ⟨mid, Option.bind_eq_some_iff.mpr ⟨init, hinit, hmid⟩, ?_⟩
  simpa using h

/-- The stacks kept after a string are exactly the settled configurations that consumed it. -/
theorem acceptAll_mem (hw : Wellformed rules) {fuel : ℕ} {out : List GrammarStack}
    (h : acceptAll rules fuel startRule w = some out) (t : GrammarStack) :
    t ∈ out ↔ Settled rules t ∧ Configuration rules startRule w t := by
  simp only [configuration_iff]
  induction w using List.reverseRecOn generalizing out t with
  | nil =>
    have h : initialStacks rules fuel startRule = some out := by simpa [acceptAll] using h
    exact initialStacks_mem h t
  | append_singleton w chr ih =>
    obtain ⟨mid, hmid, hout⟩ := acceptAll_append h
    rw [accept_mem hw hout t]
    constructor
    · rintro ⟨s, hs, s', hc, hr, hset⟩
      exact ⟨hset, s', consumes_begins (configuration_iff.2 ((ih hmid s).mp hs).2) hc, hr⟩
    · rintro ⟨hset, s', hb, hr⟩
      obtain ⟨s, hs, hsettled, hc⟩ := begins_consumes hb
      exact ⟨s, (ih hmid s).mpr ⟨hsettled, configuration_iff.1 hs⟩, s', hc, hr, hset⟩

/-! ## When the stacks are found -/

/-- Only finitely many stacks are reached by expanding. -/
def Bounded (rules : GrammarRules) (s : GrammarStack) : Prop :=
  {t | Reaches (visit rules) s t}.Finite

theorem advanceStack_bounded {fuel : ℕ} {newStacks out : List GrammarStack}
    (h : advanceStack rules fuel s newStacks = some out) : Bounded rules s := by
  obtain ⟨seen, hseen⟩ := search_complete h
  exact (List.finite_toSet seen).subset fun t ht => (hseen s (List.mem_singleton_self s) t ht).1

theorem advanceStack_returns (hw : Wellformed rules) (hp : Proper rules s)
    (h : Bounded rules s) (newStacks : List GrammarStack) :
    ∃ fuel out, advanceStack rules fuel s newStacks = some out := by
  refine search_returns (S := h.toFinset) (fun t ht => ?_) (fun t ht u hu => ?_) ?_ newStacks
  · exact visit_ne_stuck (hp.reaches hw (h.mem_toFinset.mp ht))
  · exact h.mem_toFinset.mpr ((h.mem_toFinset.mp ht).tail hu)
  · intro t ht
    exact h.mem_toFinset.mpr (List.mem_singleton.mp ht ▸ .refl)

theorem acceptAll_bounded (hw : Wellformed rules) {fuel : ℕ} {out : List GrammarStack}
    (h : acceptAll rules fuel startRule w = some out) (hb : Begins rules startRule w s) :
    Bounded rules s := by
  rcases List.eq_nil_or_concat w with rfl | ⟨w, chr, rfl⟩
  · have h : initialStacks rules fuel startRule = some out := by simpa [acceptAll] using h
    generalize hw : ([] : List ℕ) = w at hb
    cases hb with
    | start hsub =>
      obtain ⟨_, _, hadv⟩ := foldlM_step h hsub
      exact advanceStack_bounded hadv
    | consume => exact absurd hw.symm (by simp)
  · rw [List.concat_eq_append] at h hb
    obtain ⟨mid, hmid, hout⟩ := acceptAll_append h
    obtain ⟨u, hu, hsettled, pos, base, rfl, hchar, hchr, rfl⟩ := begins_consumes hb
    obtain ⟨_, _, hacc⟩ := foldlM_step hout ((acceptAll_mem hw hmid _).mpr ⟨hsettled, hu⟩)
    rcases acceptChr_char hw hchar fuel chr base _ with ⟨-, hrun⟩ | ⟨hnot, -⟩
    · exact advanceStack_bounded (hrun.symm.trans hacc)
    · exact absurd hchr hnot

theorem Begins.proper (hw : Wellformed rules) (h : Begins rules startRule w s) : Proper rules s :=
  (configuration_iff.2 ⟨s, h, .refl⟩).proper hw

theorem accept_mono (hw : Wellformed rules) : Mono (accept rules) :=
  fun _ _ _ chr _ hle h => foldlM_mono (acceptChr_mono hw chr) hle h

theorem acceptAll_mono (hw : Wellformed rules) {fuel more : ℕ} (hle : fuel ≤ more)
    {out : List GrammarStack} (h : acceptAll rules fuel startRule w = some out) :
    acceptAll rules more startRule w = some out := by
  obtain ⟨init, hinit, h⟩ := Option.bind_eq_some_iff.mp h
  exact Option.bind_eq_some_iff.mpr
    ⟨init, foldlM_mono (advanceStack_mono' rules) hle hinit, foldlM_mono (accept_mono hw) hle h⟩

theorem acceptAll_returns (hw : Wellformed rules)
    (h : ∀ w s, Begins rules startRule w s → Bounded rules s) (w : List ℕ) :
    ∃ fuel out, acceptAll rules fuel startRule w = some out := by
  induction w using List.reverseRecOn with
  | nil =>
    obtain ⟨fuel, out, hrun⟩ := foldlM_returns (advanceStack_mono' rules)
      (alternates rules startRule) (fun subpos hsub acc =>
        advanceStack_returns hw (Begins.proper hw (.start hsub)) (h _ _ (.start hsub)) acc) []
    exact ⟨fuel, out, Option.bind_eq_some_iff.mpr ⟨out, hrun, rfl⟩⟩
  | append_singleton w chr ih =>
    obtain ⟨n, mid, hmid⟩ := ih
    obtain ⟨m, out, hout⟩ := foldlM_returns (acceptChr_mono hw chr) mid
      (fun s hs acc => by
        obtain ⟨hsettled, hs⟩ := (acceptAll_mem hw hmid s).mp hs
        cases s with
        | nil => exact ⟨0, acc, rfl⟩
        | cons pos base =>
          rcases settled_cons_iff.1 hsettled with hchar | htoken
          · by_cases hin : chr ∈ matchSet rules pos
            · have hb : Begins rules startRule (w ++ [chr])
                  (push rules (pastClass rules pos) base) := .consume hs hchar hin
              obtain ⟨fuel, out, hadv⟩ := advanceStack_returns hw (hb.proper hw) (h _ _ hb) acc
              refine ⟨fuel, out, ?_⟩
              rcases acceptChr_char hw hchar fuel chr base acc with
                ⟨-, hrun⟩ | ⟨hnot, -⟩
              · exact hrun.trans hadv
              · exact absurd hin hnot
            · refine ⟨0, acc, ?_⟩
              rcases acceptChr_char hw hchar 0 chr base acc with
                ⟨hyes, -⟩ | ⟨-, hrun⟩
              · exact absurd hyes hin
              · exact hrun
          · exact ⟨0, acc, acceptChr_token htoken⟩) []
    obtain ⟨init, hinit, hfold⟩ :=
      Option.bind_eq_some_iff.mp (acceptAll_mono hw (le_max_left n m) hmid)
    refine ⟨max n m, out, Option.bind_eq_some_iff.mpr ⟨init, hinit, ?_⟩⟩
    rw [List.foldlM_append]
    refine Option.bind_eq_some_iff.mpr ⟨mid, hfold, ?_⟩
    have hacc : accept rules (max n m) mid chr = some out :=
      foldlM_mono (acceptChr_mono hw chr) (le_max_right n m) hout
    simpa using hacc

end GrammarRules
end RocmFpx
