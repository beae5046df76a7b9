import RocmFpx.GrammarRecognition

/-!
Which stacks grow for ever. Above the stack an advance begins with, each pointer stands in a rule
that comes, in leftmost position, to the rule of the pointer above it with something left over
behind. If no rule comes back to itself so, there are at most as many of them as rules, and the
advance ends; a rule that does lets the stack grow without bound.
-/

namespace RocmFpx
namespace GrammarRules

open GrammarElement Worklist Relation

variable {rules : GrammarRules} {startRule : ℕ} {w : List ℕ} {s t : GrammarStack}

abbrev Expands (rules : GrammarRules) : List (Sym ℕ ℕ) → List (Sym ℕ ℕ) → Prop :=
  ReflTransGen (Sym.Expand (alts rules))

/-- A leftmost derivation of the start rule comes to the rule. -/
def Entered (rules : GrammarRules) (startRule rule : ℕ) : Prop :=
  ∃ w β, Sym.Leftmost (alts rules) [.ref startRule] w (.ref rule :: β)

/-- The rule derives itself in leftmost position with something left over behind it. -/
def Grows (rules : GrammarRules) (rule : ℕ) : Prop :=
  ∃ γ, γ ≠ [] ∧ Expands rules [.ref rule] (.ref rule :: γ)

theorem Expands.append {α β : List (Sym ℕ ℕ)} (h : Expands rules α β) (γ : List (Sym ℕ ℕ)) :
    Expands rules (α ++ γ) (β ++ γ) := by
  induction h with
  | refl => exact .refl
  | tail _ he ih =>
    obtain ⟨r, α, β, hα⟩ := he
    refine ih.tail ?_
    rw [List.append_assoc]
    exact .mk r α (β ++ γ) hα

theorem expands_alternate (hw : Wellformed rules) {rule : ℕ} {subpos : ElementPtr}
    (h : subpos ∈ alternates rules rule) :
    Expands rules [.ref rule] (symbols (behind rules subpos)) := by
  have hexp : Sym.Expand (alts rules) [.ref rule] (symbols (behind rules subpos) ++ []) :=
    .mk rule _ [] ((mem_alts hw rule _).mpr ⟨subpos, h, rfl⟩)
  rw [List.append_nil] at hexp
  exact .single hexp

/-! ## The pointers above -/

/-- Each pointer's rule comes to the rule above with what the pointer has before it left over. -/
def Under (rules : GrammarRules) : ℕ → GrammarStack → Prop
  | _, [] => True
  | r, pos :: frames =>
    Expands rules [.ref pos.rule] (.ref r :: symbols (behind rules pos)) ∧
      Under rules pos.rule frames

def Framed (rules : GrammarRules) : GrammarStack → Prop
  | [] => True
  | pos :: frames =>
    Expands rules [.ref pos.rule] (symbols (behind rules pos)) ∧ Under rules pos.rule frames

theorem Under.trans {r r' : ℕ} {frames : GrammarStack} (h : Under rules r frames)
    (hr : Expands rules [.ref r] [.ref r']) : Under rules r' frames := by
  cases frames with
  | nil => trivial
  | cons pos frames => exact ⟨h.1.trans (hr.append _), h.2⟩

theorem Under.framed {r : ℕ} {frames : GrammarStack} (h : Under rules r frames)
    (hr : Expands rules [.ref r] []) : Framed rules frames := by
  cases frames with
  | nil => trivial
  | cons pos frames => exact ⟨h.1.trans (hr.append _), h.2⟩

theorem Framed.under {pos : ElementPtr} {frames : GrammarStack}
    (h : Framed rules (pos :: frames)) (href : (elem rules pos).type = .ruleRef) :
    Under rules (elem rules pos).value (push rules (pos.add 1) frames) := by
  obtain ⟨hexp, hunder⟩ := h
  rw [symbols_ref href] at hexp
  rw [push]
  split_ifs with hend
  · rw [symbols_of_end hend] at hexp
    exact hunder.trans hexp
  · exact ⟨hexp, hunder⟩

theorem Under.push (hw : Wellformed rules) {r : ℕ} {frames : GrammarStack}
    (h : Under rules r frames) {subpos : ElementPtr} (hsub : subpos ∈ alternates rules r) :
    Framed rules (push rules subpos frames) := by
  have hexp := expands_alternate hw hsub
  rw [GrammarRules.push]
  split_ifs with hend
  · rw [symbols_of_end hend] at hexp
    exact h.framed hexp
  · obtain ⟨i, -, rfl⟩ := List.mem_map.mp hsub
    exact ⟨hexp, h⟩

theorem push_append (pos : ElementPtr) (s t : GrammarStack) :
    push rules pos (s ++ t) = push rules pos s ++ t := by
  rw [push, push]
  split_ifs
  · rfl
  · rfl

/-- A stack consists of frames above what is left of the stack that was to be expanded. -/
structure Above (rules : GrammarRules) (startRule : ℕ) (s t frames base : GrammarStack) : Prop where
  split : t = frames ++ base
  base_le : base.length ≤ s.length
  framed : Framed rules frames
  entered : ∀ pos ∈ frames, Entered rules startRule pos.rule

theorem push_length_le (pos : ElementPtr) (s : GrammarStack) :
    (push rules pos s).length ≤ s.length + 1 := by
  rw [push]
  split_ifs
  · omega
  · rw [List.length_cons]

theorem entered_push {subpos : ElementPtr} {frames : GrammarStack} {r : ℕ}
    (hsub : subpos ∈ alternates rules r) (hr : Entered rules startRule r)
    (h : ∀ pos ∈ frames, Entered rules startRule pos.rule) :
    ∀ pos ∈ push rules subpos frames, Entered rules startRule pos.rule := by
  obtain ⟨i, -, rfl⟩ := List.mem_map.mp hsub
  rw [push]
  split_ifs
  · exact h
  · intro pos hpos
    rcases List.mem_cons.mp hpos with rfl | hpos
    · exact hr
    · exact h pos hpos

theorem exists_above (hw : Wellformed rules) (hb : Begins rules startRule w s)
    (h : Reaches (visit rules) s t) : ∃ frames base, Above rules startRule s t frames base := by
  induction h with
  | refl => exact ⟨[], s, rfl, le_rfl, trivial, fun _ h => absurd h List.not_mem_nil⟩
  | tail hr hn ih =>
    obtain ⟨frames, base, hsplit, hle, hframed, hent⟩ := ih
    have hconf := configuration_iff.2 ⟨s, hb, hr⟩
    obtain ⟨pos, rest, rfl, href, subpos, hsub, rfl⟩ := next_iff.1 hn
    have hrule : Entered rules startRule (elem rules pos).value :=
      ⟨w, _, form_ref href ▸ hconf.leftmost hw⟩
    cases frames with
    | nil =>
      rw [List.nil_append] at hsplit
      refine ⟨push rules subpos [], push rules (pos.add 1) rest, ?_, ?_, ?_, ?_⟩
      · rw [← push_append, List.nil_append]
      · refine (push_length_le _ _).trans ?_
        rw [← List.length_cons, hsplit]
        exact hle
      · have hunder : Under rules (elem rules pos).value [] := trivial
        exact hunder.push hw hsub
      · exact entered_push hsub hrule fun _ h => absurd h List.not_mem_nil
    | cons p frames =>
      obtain ⟨rfl, rfl⟩ := List.cons.inj hsplit
      refine ⟨push rules subpos (push rules (pos.add 1) frames), base, ?_, hle, ?_, ?_⟩
      · change push rules subpos (push rules (pos.add 1) (frames ++ base)) = _
        rw [push_append, push_append]
      · exact (hframed.under href).push hw hsub
      · refine entered_push hsub hrule fun p hp => ?_
        rw [push] at hp
        split_ifs at hp
        · exact hent p (List.mem_cons_of_mem _ hp)
        · rcases List.mem_cons.mp hp with rfl | hp
          · exact hent pos List.mem_cons_self
          · exact hent p (List.mem_cons_of_mem _ hp)

/-! ## No more frames than rules -/

theorem symbols_ne_nil {pos : ElementPtr} (h : Standing rules pos) :
    symbols (behind rules pos) ≠ [] := by
  obtain ⟨e, es, hb, he⟩ := behind_of_not_end h.1
  rw [hb]
  intro hnil
  have hend := (symbols_eq_nil_iff (he ▸ h.2)).mp hnil
  rw [← he, h.1] at hend
  exact absurd hend (by decide)

theorem Under.grows {r : ℕ} {frames : GrammarStack} (h : Under rules r frames)
    (hp : Proper rules frames) {pos : ElementPtr} (hpos : pos ∈ frames) :
    ∃ γ, γ ≠ [] ∧ Expands rules [.ref pos.rule] (.ref r :: γ) := by
  induction frames generalizing r with
  | nil => exact absurd hpos List.not_mem_nil
  | cons p frames ih =>
    obtain ⟨hexp, hunder⟩ := h
    rcases List.mem_cons.mp hpos with rfl | hpos
    · exact ⟨_, symbols_ne_nil (hp pos List.mem_cons_self), hexp⟩
    · obtain ⟨γ, -, hγ⟩ := ih hunder (fun q hq => hp q (List.mem_cons_of_mem _ hq)) hpos
      refine ⟨symbols (behind rules p) ++ γ, ?_, hγ.trans (hexp.append γ)⟩
      exact List.append_ne_nil_of_left_ne_nil (symbols_ne_nil (hp p List.mem_cons_self)) _

theorem under_not_mem (hgrows : ∀ r, Entered rules startRule r → ¬ Grows rules r)
    {p : ElementPtr} {frames : GrammarStack} (h : Under rules p.rule frames)
    (hp : Proper rules frames) (hent : Entered rules startRule p.rule) :
    p.rule ∉ frames.map ElementPtr.rule := by
  intro hmem
  obtain ⟨q, hq, hrule⟩ := List.mem_map.mp hmem
  obtain ⟨γ, hγ, hexp⟩ := h.grows hp hq
  rw [hrule] at hexp
  exact hgrows p.rule hent ⟨γ, hγ, hexp⟩

theorem under_nodup (hgrows : ∀ r, Entered rules startRule r → ¬ Grows rules r)
    {p : ElementPtr} {frames : GrammarStack} (h : Under rules p.rule frames)
    (hp : Proper rules frames) (hent : ∀ pos ∈ p :: frames, Entered rules startRule pos.rule) :
    ((p :: frames).map ElementPtr.rule).Nodup := by
  induction frames generalizing p with
  | nil => exact List.nodup_singleton _
  | cons q frames ih =>
    refine List.nodup_cons.mpr ⟨under_not_mem hgrows h hp (hent p List.mem_cons_self), ?_⟩
    exact ih h.2 (fun x hx => hp x (List.mem_cons_of_mem _ hx))
      fun x hx => hent x (List.mem_cons_of_mem _ hx)

theorem framed_nodup (hgrows : ∀ r, Entered rules startRule r → ¬ Grows rules r)
    {frames : GrammarStack} (h : Framed rules frames) (hp : Proper rules frames)
    (hent : ∀ pos ∈ frames, Entered rules startRule pos.rule) :
    (frames.map ElementPtr.rule).Nodup := by
  cases frames with
  | nil => exact List.nodup_nil
  | cons p frames =>
    exact under_nodup hgrows h.2 (fun x hx => hp x (List.mem_cons_of_mem _ hx)) hent

/-- The pointers into the rules. -/
def pointers (rules : GrammarRules) : Finset ElementPtr :=
  (Finset.range rules.length).biUnion fun r =>
    (Finset.range ((rules[r]?).getD []).length).image fun i => ⟨r, i⟩

theorem standing_mem {pos : ElementPtr} (h : Standing rules pos) : pos ∈ pointers rules := by
  obtain ⟨e, es, hb, -⟩ := behind_of_not_end h.1
  rw [behind] at hb
  have hat : pos.at_ < ((rules[pos.rule]?).getD []).length := by
    by_contra hno
    rw [List.drop_eq_nil_of_le (not_lt.mp hno)] at hb
    cases hb
  have hrule : pos.rule < rules.length := by
    by_contra hno
    rw [List.getElem?_eq_none (not_lt.mp hno)] at hat
    simp at hat
  exact Finset.mem_biUnion.mpr ⟨pos.rule, Finset.mem_range.mpr hrule,
    Finset.mem_image.mpr ⟨pos.at_, Finset.mem_range.mpr hat, rfl⟩⟩

theorem stacks_finite (P : Finset ElementPtr) (n : ℕ) :
    {t : GrammarStack | t.length ≤ n ∧ ∀ pos ∈ t, pos ∈ P}.Finite := by
  refine ((List.finite_length_le P n).image (List.map Subtype.val)).subset ?_
  rintro t ⟨hlen, hmem⟩
  refine ⟨t.pmap Subtype.mk hmem, ?_, ?_⟩
  · rw [Set.mem_ofPred_eq, List.length_pmap]
    exact hlen
  · rw [List.map_pmap, List.pmap_eq_map, List.map_id']

theorem bounded_of_not_grows (hw : Wellformed rules)
    (hgrows : ∀ r, Entered rules startRule r → ¬ Grows rules r)
    (hb : Begins rules startRule w s) : Bounded rules s := by
  refine (stacks_finite (pointers rules) (rules.length + s.length)).subset fun t ht => ?_
  have hproper : Proper rules t := (hb.proper hw).reaches hw ht
  obtain ⟨frames, base, rfl, hle, hframed, hent⟩ := exists_above hw hb ht
  have hp : Proper rules frames := fun p hp => hproper p (List.mem_append_left _ hp)
  refine ⟨?_, fun p hp => standing_mem (hproper p hp)⟩
  have hsub : frames.map ElementPtr.rule ⊆ List.range rules.length := by
    intro r hr
    obtain ⟨p, hpf, rfl⟩ := List.mem_map.mp hr
    obtain ⟨r', hr', hp'⟩ := Finset.mem_biUnion.mp (standing_mem (hp p hpf))
    obtain ⟨i, -, rfl⟩ := Finset.mem_image.mp hp'
    exact List.mem_range.mpr (Finset.mem_range.mp hr')
  have hcard := ((framed_nodup hgrows hframed hp hent).subperm hsub).length_le
  rw [List.length_map, List.length_range] at hcard
  rw [List.length_append]
  omega

/-! ## A rule that grows -/

theorem Grows.expands {r : ℕ} (h : Grows rules r) (β : List (Sym ℕ ℕ)) (n : ℕ) :
    ∃ γ, n ≤ γ.length ∧ Expands rules (.ref r :: β) (.ref r :: γ) := by
  obtain ⟨γ, hγ, hexp⟩ := h
  induction n with
  | zero => exact ⟨β, Nat.zero_le _, .refl⟩
  | succ n ih =>
    obtain ⟨δ, hδ, hreach⟩ := ih
    refine ⟨γ ++ δ, ?_, hreach.trans (hexp.append δ)⟩
    have := List.length_pos_iff.mpr hγ
    rw [List.length_append]
    omega

theorem not_bounded_of_grows (hw : Wellformed rules) (hp : Proper rules s)
    (hr : Reaches (visit rules) s t) {r : ℕ} {β : List (Sym ℕ ℕ)}
    (hform : form rules t = .ref r :: β) (hgrows : Grows rules r) : ¬ Bounded rules s := by
  intro hb
  obtain ⟨n, hn⟩ := (hb.image fun t => (form rules t).length).bddAbove
  obtain ⟨γ, hγ, hexp⟩ := hgrows.expands β n
  obtain ⟨u, hu, hform'⟩ := expand_reaches hw (hp.reaches hw hr) (hform ▸ hexp)
  have hle := hn (Set.mem_image_of_mem _ (hr.trans hu))
  rw [hform', List.length_cons] at hle
  omega

/-! ## What the stacks recognise -/

/-- The functions return after a string, and the stacks are the settled configurations that have
consumed it, the empty one among them exactly if the start rule derives the string. -/
def Recognises (rules : GrammarRules) (startRule : ℕ) (w : List ℕ) : Prop :=
  ∃ fuel out, acceptAll rules fuel startRule w = some out ∧
    ([] ∈ out ↔ Sym.Derives (alts rules) [.ref startRule] w) ∧
    ∀ t, t ∈ out ↔ Settled rules t ∧ Configuration rules startRule w t

theorem recognises_of_returns (hw : Wellformed rules) {fuel : ℕ} {out : List GrammarStack}
    (h : acceptAll rules fuel startRule w = some out) : Recognises rules startRule w := by
  refine ⟨fuel, out, h, ?_, acceptAll_mem hw h⟩
  rw [acceptAll_mem hw h, derives_iff_configuration hw]
  exact and_iff_right settled_nil

theorem not_recognises_of_grows (hw : Wellformed rules) {r : ℕ} {β : List (Sym ℕ ℕ)}
    (hent : Sym.Leftmost (alts rules) [.ref startRule] w (.ref r :: β)) (hgrows : Grows rules r) :
    ¬ Recognises rules startRule w := by
  rintro ⟨fuel, out, hrun, -⟩
  -- the derivation may stand before its first step, a configuration never does
  have hentered : ∃ t β, Configuration rules startRule w t ∧ form rules t = .ref r :: β := by
    rcases leftmost_configuration hw hent with ⟨rfl, hβ⟩ | ⟨t, ht, hform⟩
    · obtain ⟨hr, rfl⟩ := List.cons.inj hβ
      obtain rfl := Sym.ref.inj hr
      obtain ⟨γ, hγ, hexp⟩ := hgrows
      rcases hexp.cases_head with hself | ⟨α, he, hexp⟩
      · exact absurd (List.cons.inj hself).2.symm hγ
      · have hlater := (Sym.Leftmost.refl.expands (.single he)).expands hexp
        obtain ⟨t, ht, hform⟩ := (leftmost_configuration hw hlater).resolve_left
          fun h => hγ (List.cons.inj h.2).2
        exact ⟨t, γ, ht, hform⟩
    · exact ⟨t, _, ht, hform⟩
  obtain ⟨t, β, ht, hform⟩ := hentered
  obtain ⟨s, hs, hr⟩ := configuration_iff.1 ht
  exact not_bounded_of_grows hw (hs.proper hw) hr hform hgrows (acceptAll_bounded hw hrun hs)

end GrammarRules

namespace RuleArrays

open GrammarRules Relation

/-- An accepted rule set recognises every string rightly exactly when no rule that a derivation
comes to grows. -/
theorem recognises_iff (g : RuleArrays) (h : g.Accepted) :
    (∀ w, Recognises g.copied g.startRule w) ↔
      ∀ r, Entered g.copied g.startRule r → ¬ Grows g.copied r := by
  have hw := wellformed h.1
  constructor
  · rintro hrec r ⟨w, β, hent⟩ hgrows
    exact not_recognises_of_grows hw hent hgrows (hrec w)
  · intro hgrows w
    have hbounded : ∀ w s, Begins g.copied g.startRule w s → Bounded g.copied s :=
      fun _ _ hb => bounded_of_not_grows hw hgrows hb
    obtain ⟨fuel, out, hrun⟩ := acceptAll_returns hw hbounded w
    exact recognises_of_returns hw hrun

/-- `root ::= "a" list`, `list ::= skip list "x" | "y"`, `skip ::= blank`, `blank ::= | "b"`:
`skip` is empty only through `blank`, so `list` comes back to itself unnoticed. -/
def hidden : RuleArrays where
  rules := [[⟨.char, 97⟩, ⟨.ruleRef, 1⟩],
    [⟨.ruleRef, 2⟩, ⟨.ruleRef, 1⟩, ⟨.char, 120⟩, ⟨.alt, 0⟩, ⟨.char, 121⟩],
    [⟨.ruleRef, 3⟩],
    [⟨.alt, 0⟩, ⟨.char, 98⟩]]
  startRule := 0
  formed := by decide
  startRule_lt := by decide

theorem hidden_accepted : hidden.Accepted := by decide

theorem recognises_iff_hidden : (∀ w, Recognises hidden.copied hidden.startRule w) ↔
    ∀ r, Entered hidden.copied hidden.startRule r → ¬ Grows hidden.copied r :=
  recognises_iff hidden (by decide)

theorem hidden_grows : Grows hidden.copied 1 := by
  have hw := wellformed hidden_accepted.1
  have hlist : (⟨1, 0⟩ : ElementPtr) ∈ alternates hidden.copied 1 := by decide
  have hskip : (⟨2, 0⟩ : ElementPtr) ∈ alternates hidden.copied 2 := by decide
  have hblank : (⟨3, 0⟩ : ElementPtr) ∈ alternates hidden.copied 3 := by decide
  have hempty : Expands hidden.copied [.ref 2] [] :=
    (expands_alternate hw hskip).trans (expands_alternate hw hblank)
  exact ⟨_, List.cons_ne_nil _ _, (expands_alternate hw hlist).trans (hempty.append _)⟩

theorem hidden_begins : Begins hidden.copied 0 [97] [⟨0, 1⟩] := by
  have hsub : (⟨0, 0⟩ : ElementPtr) ∈ alternates hidden.copied 0 := by decide
  have hstart : Configuration hidden.copied 0 [] [⟨0, 0⟩] := .start hsub
  have hmatch : 97 ∈ matchSet hidden.copied ⟨0, 0⟩ :=
    ⟨fun _ => by decide, fun _ => Or.inl (by decide)⟩
  exact .consume hstart (by decide) hmatch

theorem hidden_not_bounded : ¬ Bounded hidden.copied [⟨0, 1⟩] := by
  have hw := wellformed hidden_accepted.1
  exact not_bounded_of_grows hw (hidden_begins.proper hw) .refl rfl hidden_grows

theorem hidden_not_recognised :
    hidden.Accepted ∧ ¬ ∀ w, Recognises hidden.copied hidden.startRule w := by
  refine ⟨hidden_accepted, fun h => ?_⟩
  obtain ⟨fuel, out, hrun, -⟩ := h [97]
  exact hidden_not_bounded
    (acceptAll_bounded (wellformed hidden_accepted.1) hrun hidden_begins)

theorem hidden_leftRef : Sym.LeftRef (alts hidden.copied) 1 1 := by
  have hw := wellformed hidden_accepted.1
  have hlist : (⟨1, 0⟩ : ElementPtr) ∈ alternates hidden.copied 1 := by decide
  have hskip : (⟨2, 0⟩ : ElementPtr) ∈ alternates hidden.copied 2 := by decide
  have hblank : (⟨3, 0⟩ : ElementPtr) ∈ alternates hidden.copied 3 := by decide
  refine ⟨[.ref 2], _, (mem_alts hw 1 _).mpr ⟨_, hlist, rfl⟩, ?_⟩
  exact .ref ((mem_alts hw 2 _).mpr ⟨_, hskip, rfl⟩)
    (.ref ((mem_alts hw 3 _).mpr ⟨_, hblank, rfl⟩) .nil .nil) .nil

theorem hidden_not_productive :
    hidden.Accepted ∧ ¬ Productive hidden.copied hidden.startRule ∧
      ∃ r, TransGen (Sym.LeftRef (alts hidden.copied)) r r := by
  refine ⟨hidden_accepted, fun h => ?_, 1, .single hidden_leftRef⟩
  have hsub : (⟨0, 0⟩ : ElementPtr) ∈ alternates hidden.copied 0 := by decide
  have hadv : advanceStack hidden.copied 3 [⟨0, 0⟩] [] = some [[⟨0, 0⟩]] := by decide
  have hreach : ReachableStack hidden.copied 0 [⟨0, 0⟩] := .start hsub hadv List.mem_cons_self
  have hmove : Moves hidden.copied [⟨0, 0⟩] [⟨0, 1⟩] :=
    ⟨⟨0, 0⟩, [], rfl, Or.inl ⟨97, (true, ⟨0, 1⟩), by decide, rfl, by decide⟩⟩
  obtain ⟨fuel, out, hrun, -⟩ := h.2 _ hreach _ hmove
  exact hidden_not_bounded (advanceStack_bounded hrun)

end RuleArrays
end RocmFpx
