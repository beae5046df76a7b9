import Mathlib.Data.Finset.Basic
import Mathlib.Data.Finite.Prod

/-!
Context-free rules whose terminals are sets of characters: the strings a form derives, its
leftmost derivations, and when replacing the leftmost reference comes to an end. It does unless
some rule refers to itself behind symbols that derive the empty string.
-/

namespace RocmFpx

/-- A symbol of a rule: a reference to a rule, or a terminal for each character of a set. -/
inductive Sym (ν τ : Type*) where
  | ref (r : ν)
  | terminal (S : Set τ)

namespace Sym

variable {ν τ : Type*}

/-- The strings a form derives, its symbols in turn. -/
inductive Derives (alts : ν → Set (List (Sym ν τ))) : List (Sym ν τ) → List τ → Prop
  | nil : Derives alts [] []
  | terminal {S c β w} (hc : c ∈ S) (hw : Derives alts β w) :
      Derives alts (.terminal S :: β) (c :: w)
  | ref {r α β u v} (hα : α ∈ alts r) (hu : Derives alts α u) (hv : Derives alts β v) :
      Derives alts (.ref r :: β) (u ++ v)

/-- What is left of `start` after a leftmost derivation has produced a string. -/
inductive Leftmost (alts : ν → Set (List (Sym ν τ))) (start : List (Sym ν τ)) :
    List τ → List (Sym ν τ) → Prop
  | refl : Leftmost alts start [] start
  | expand {r α β w} (h : Leftmost alts start w (.ref r :: β)) (hα : α ∈ alts r) :
      Leftmost alts start w (α ++ β)
  | consume {S c β w} (h : Leftmost alts start w (.terminal S :: β)) (hc : c ∈ S) :
      Leftmost alts start (w ++ [c]) β

variable {alts : ν → Set (List (Sym ν τ))} {α β γ : List (Sym ν τ)} {u v w : List τ} {r : ν}

theorem derives_append (hu : Derives alts α u) (hv : Derives alts β v) :
    Derives alts (α ++ β) (u ++ v) := by
  induction hu with
  | nil => exact hv
  | terminal hc _ ih => exact .terminal hc ih
  | ref hα hu _ _ ih =>
    rw [List.append_assoc]
    exact .ref hα hu ih

theorem derives_append_iff :
    Derives alts (α ++ β) w ↔ ∃ u v, w = u ++ v ∧ Derives alts α u ∧ Derives alts β v := by
  refine ⟨fun h => ?_, fun ⟨u, v, hw, hu, hv⟩ => hw ▸ derives_append hu hv⟩
  induction α generalizing w with
  | nil => exact ⟨[], w, rfl, .nil, h⟩
  | cons x α ih =>
    cases h with
    | terminal hc hw =>
      obtain ⟨u, v, rfl, hu, hv⟩ := ih hw
      exact ⟨_, v, rfl, .terminal hc hu, hv⟩
    | ref hα hu hw =>
      obtain ⟨u', v, rfl, hu', hv⟩ := ih hw
      exact ⟨_, v, (List.append_assoc ..).symm, .ref hα hu hu', hv⟩

theorem derives_ref_iff : Derives alts [.ref r] w ↔ ∃ α ∈ alts r, Derives alts α w := by
  constructor
  · intro h
    cases h with
    | ref hα hu hv =>
      cases hv with
      | nil => exact ⟨_, hα, by rwa [List.append_nil]⟩
  · rintro ⟨α, hα, hu⟩
    have h := Derives.ref hα hu Derives.nil
    rwa [List.append_nil] at h

theorem Leftmost.derives (h : Leftmost alts α u β) (hv : Derives alts β v) :
    Derives alts α (u ++ v) := by
  induction h generalizing v with
  | refl => exact hv
  | expand _ hα ih =>
    obtain ⟨x, y, rfl, hx, hy⟩ := derives_append_iff.1 hv
    exact ih (.ref hα hx hy)
  | consume _ hc ih =>
    rw [List.append_assoc]
    exact ih (.terminal hc hv)

theorem Leftmost.append_derives (h : Leftmost alts α u (β ++ γ)) (hv : Derives alts β v) :
    Leftmost alts α (u ++ v) γ := by
  induction hv generalizing u γ with
  | nil => rwa [List.append_nil]
  | terminal hc _ ih =>
    rw [← List.singleton_append, ← List.append_assoc]
    exact ih (.consume h hc)
  | ref hα _ _ ihu ihv =>
    rw [← List.append_assoc]
    exact ihv (ihu (.expand h hα))

theorem derives_iff_leftmost : Derives alts α w ↔ Leftmost alts α w [] := by
  constructor
  · intro h
    have hrefl : Leftmost alts α [] (α ++ []) := (List.append_nil α).symm ▸ .refl
    exact hrefl.append_derives h
  · intro h
    rw [← List.append_nil w]
    exact h.derives .nil

/-! ## Replacing the leftmost reference -/

/-- The leftmost symbol is a reference and is replaced by an alternative of its rule. -/
inductive Expand (alts : ν → Set (List (Sym ν τ))) : List (Sym ν τ) → List (Sym ν τ) → Prop
  | mk (r : ν) (α β : List (Sym ν τ)) (hα : α ∈ alts r) : Expand alts (.ref r :: β) (α ++ β)

/-- An alternative of `r` refers to `r'` behind symbols that derive the empty string. -/
def LeftRef (alts : ν → Set (List (Sym ν τ))) (r r' : ν) : Prop :=
  ∃ α β, α ++ .ref r' :: β ∈ alts r ∧ Derives alts α []

theorem Leftmost.expands {start : List (Sym ν τ)} (h : Leftmost alts start w α)
    (hexp : Relation.ReflTransGen (Expand alts) α β) : Leftmost alts start w β := by
  induction hexp with
  | refl => exact h
  | tail _ he ih =>
    obtain ⟨r, α, β, hα⟩ := he
    exact .expand ih hα

theorem not_expand_nil : ¬ Expand alts [] β := by
  rintro ⟨⟩

theorem not_expand_terminal {S : Set τ} : ¬ Expand alts (.terminal S :: α) β := by
  rintro ⟨⟩

/-- If no chain of left references from `r` goes on for ever, neither do the expansions of a form
that begins with `r`, provided those of the rest do not where `r` derives the empty string. -/
theorem expand_acc_ref (hacc : Acc (fun r' r => LeftRef alts r r') r)
    (hβ : Derives alts [.ref r] [] → Acc (fun t s => Expand alts s t) β) :
    Acc (fun t s => Expand alts s t) (.ref r :: β) := by
  induction hacc generalizing β with
  | intro r _ ih =>
    refine Acc.intro _ ?_
    rintro _ ⟨_, α, _, hα⟩
    -- along the alternative, behind a part of it that derives the empty string
    have hsuffix : ∀ suf pre, pre ++ suf = α → Derives alts pre [] →
        Acc (fun t s => Expand alts s t) (suf ++ β) := by
      intro suf
      induction suf with
      | nil =>
        intro pre hpre hempty
        rw [List.append_nil] at hpre
        exact hβ (derives_ref_iff.2 ⟨α, hα, hpre ▸ hempty⟩)
      | cons x suf ihsuf =>
        intro pre hpre hempty
        cases x with
        | terminal S => exact Acc.intro _ fun t ht => absurd ht not_expand_terminal
        | ref r' =>
          refine ih r' ⟨pre, suf, hpre ▸ hα, hempty⟩ fun hnull => ?_
          refine ihsuf (pre ++ [.ref r']) ?_ ?_
          · rw [List.append_assoc, List.singleton_append, hpre]
          · exact derives_append hempty hnull
    exact hsuffix α [] rfl .nil

theorem expand_acc (hacc : ∀ r, Acc (fun r' r => LeftRef alts r r') r) (β : List (Sym ν τ)) :
    Acc (fun t s => Expand alts s t) β := by
  induction β with
  | nil => exact Acc.intro _ fun t ht => absurd ht not_expand_nil
  | cons x β ih =>
    cases x with
    | terminal S => exact Acc.intro _ fun t ht => absurd ht not_expand_terminal
    | ref r => exact expand_acc_ref (hacc r) fun _ => ih

theorem acc_of_acyclic {R : ν → ν → Prop} (S : Finset ν) (hdom : ∀ a b, R a b → a ∈ S)
    (hcycle : ∀ a, ¬ Relation.TransGen R a a) (a : ν) : Acc (fun b a => R a b) a := by
  have hwf : WellFounded fun b a : S => Relation.TransGen R a b := by
    have : IsTrans S fun b a => Relation.TransGen R a b := ⟨fun _ _ _ hab hbc => hbc.trans hab⟩
    have : Std.Irrefl fun b a : S => Relation.TransGen R a b := ⟨fun a => hcycle a⟩
    exact Finite.wellFounded_of_trans_of_irrefl _
  have hin : ∀ a : S, Acc (fun b a => R a b) (a : ν) := by
    intro a
    induction a using hwf.induction with
    | _ a ih =>
      refine Acc.intro _ fun b hb => ?_
      by_cases hbS : b ∈ S
      · exact ih ⟨b, hbS⟩ (.single hb)
      · exact Acc.intro _ fun c hc => absurd (hdom b c hc) hbS
  by_cases haS : a ∈ S
  · exact hin ⟨a, haS⟩
  · exact Acc.intro _ fun b hb => absurd (hdom a b hb) haS

end Sym
end RocmFpx
