import Mathlib.Data.List.Infix
import Mathlib.Data.Set.Basic

/-!
Longest suffixes in a set of words that holds every prefix of its words. A text is read symbol by
symbol; what is kept of it is its longest suffix in the set. When the next symbol does not extend
that suffix, the search falls back to the longest suffix of its tail, and so on.
-/

namespace RocmFpx.LongestSuffix

variable {α : Type*}

/-- A set of words with the empty word and, with a word, all its prefixes. -/
structure PrefixClosed (P : Set (List α)) : Prop where
  nil_mem : [] ∈ P
  of_concat : ∀ w c, w ++ [c] ∈ P → w ∈ P

/-- `x` is the longest suffix of `w` in the set. -/
structure IsLongest (P : Set (List α)) (w x : List α) : Prop where
  mem : x ∈ P
  suffix : x <:+ w
  longest : ∀ y ∈ P, y <:+ w → y <:+ x

/-- Every suffix of `w` that `c` extends within the set is a suffix of `x`. -/
structure Covers (P : Set (List α)) (w : List α) (c : α) (x : List α) : Prop where
  suffix : x <:+ w
  covers : ∀ y, y ++ [c] ∈ P → y <:+ w → y <:+ x

variable {P : Set (List α)} {w x f t : List α} {a c : α}

theorem PrefixClosed.of_prefix (hP : PrefixClosed P) (hw : w ∈ P) (hx : x <+: w) : x ∈ P := by
  obtain ⟨y, rfl⟩ := hx
  induction y using List.reverseRecOn with
  | nil => rwa [List.append_nil] at hw
  | append_singleton y c ih => exact ih (hP.of_concat _ c (by rwa [← List.append_assoc] at hw))

theorem IsLongest.nil (hP : PrefixClosed P) : IsLongest P [] [] :=
  ⟨hP.nil_mem, List.suffix_rfl, fun _ _ h => h⟩

/-- A word of the set ends the text exactly if it ends the longest suffix. -/
theorem IsLongest.suffix_iff (h : IsLongest P w x) (hf : f ∈ P) : f <:+ x ↔ f <:+ w :=
  ⟨fun hfx => hfx.trans h.suffix, h.longest f hf⟩

theorem IsLongest.covers (hP : PrefixClosed P) (h : IsLongest P w x) (c : α) : Covers P w c x :=
  ⟨h.suffix, fun y hy hyw => h.longest y (hP.of_concat y c hy) hyw⟩

theorem Covers.fall (hP : PrefixClosed P) (h : Covers P w c (a :: t)) (hx : a :: t ++ [c] ∉ P)
    (hf : IsLongest P t f) : Covers P w c f := by
  refine ⟨hf.suffix.trans ((List.suffix_cons a t).trans h.suffix), fun y hy hyw => ?_⟩
  obtain rfl | hyt := List.suffix_cons_iff.mp (h.covers y hy hyw)
  · exact absurd hy hx
  · exact hf.longest y (hP.of_concat y c hy) hyt

theorem Covers.take (h : Covers P w c x) (hx : x ++ [c] ∈ P) : IsLongest P (w ++ [c]) (x ++ [c]) := by
  refine ⟨hx, List.suffix_concat_iff.mpr (Or.inr ⟨x, rfl, h.suffix⟩), fun y hy hyw => ?_⟩
  obtain rfl | ⟨t, rfl, ht⟩ := List.suffix_concat_iff.mp hyw
  · exact List.nil_suffix
  · exact List.suffix_concat_iff.mpr (Or.inr ⟨t, rfl, h.covers t hy ht⟩)

theorem Covers.miss (hP : PrefixClosed P) (h : Covers P w c []) (hx : [c] ∉ P) :
    IsLongest P (w ++ [c]) [] := by
  refine ⟨hP.nil_mem, List.nil_suffix, fun y hy hyw => ?_⟩
  obtain rfl | ⟨t, rfl, ht⟩ := List.suffix_concat_iff.mp hyw
  · exact List.nil_suffix
  · obtain rfl := List.suffix_nil.mp (h.covers t hy ht)
    exact absurd hy hx

end RocmFpx.LongestSuffix

/-!
Longest prefixes in a set of words that holds every suffix of its words. A text is read from its
end; what is kept of the text read so far is its longest prefix in the set. The prefixes of the kept
word that are in the set are tried in turn, the longest first: the first that the next symbol
extends gives the new word.
-/

namespace RocmFpx.LongestPrefix

variable {α : Type*}

/-- A property of words that holds of the empty word and, with a word, of all its suffixes. -/
structure SuffixClosed (P : List α → Prop) : Prop where
  nil_mem : P []
  of_cons : ∀ c w, P (c :: w) → P w

/-- `w` is the longest prefix of `u` with the property. -/
structure IsLongest (P : List α → Prop) (u w : List α) : Prop where
  mem : P w
  isPrefix : w <+: u
  longest : ∀ y, P y → y <+: u → y <+: w

variable {P : List α → Prop} {u w x y : List α} {c : α}

theorem IsLongest.nil (hP : SuffixClosed P) : IsLongest P [] [] :=
  ⟨hP.nil_mem, List.prefix_rfl, fun _ _ h => h⟩

section
variable [DecidablePred P]

/-- The prefixes of a word that have the property, the longest first. -/
def prefixes (P : List α → Prop) [DecidablePred P] (w : List α) : List (List α) :=
  w.inits.reverse.filter fun x => P x

theorem mem_prefixes : x ∈ prefixes P w ↔ x <+: w ∧ P x := by
  rw [prefixes, List.mem_filter, List.mem_reverse, List.mem_inits, decide_eq_true_iff]

theorem pairwise_inits (w : List α) : w.inits.Pairwise fun x y => x <+: y := by
  induction w with
  | nil => exact List.pairwise_singleton _ _
  | cons c w ih =>
    rw [List.inits_cons, List.pairwise_cons]
    refine ⟨fun x _ => List.nil_prefix, List.pairwise_map.mpr (ih.imp fun h => ?_)⟩
    exact (List.prefix_cons_inj c).mpr h

theorem pairwise_prefixes (w : List α) : (prefixes P w).Pairwise fun x y => y <+: x :=
  (List.pairwise_reverse.mpr (pairwise_inits w)).filter _

theorem longest_of_find? {p : List α → Bool} (h : (prefixes P w).find? p = some x)
    (hy : y <+: w) (hmem : P y) (hp : p y) : y <+: x := by
  obtain ⟨-, before, after, heq, hbefore⟩ := List.find?_eq_some_iff_append.mp h
  have hpairwise := pairwise_prefixes (P := P) w
  have hin : y ∈ prefixes P w := mem_prefixes.2 ⟨hy, hmem⟩
  rw [heq] at hpairwise hin
  rcases List.mem_append.mp hin with hin | hin
  · have hnot := hbefore y hin
    rw [hp] at hnot
    cases hnot
  · rcases List.mem_cons.mp hin with rfl | hin
    · exact List.prefix_rfl
    · exact (List.pairwise_cons.mp (List.pairwise_append.mp hpairwise).2.1).1 y hin

theorem IsLongest.cons (hP : SuffixClosed P) (h : IsLongest P u w) (c : α) :
    IsLongest P (c :: u)
      (((prefixes P w).find? fun x => P (c :: x)).elim [] fun x => c :: x) := by
  cases hfind : (prefixes P w).find? fun x => P (c :: x) with
  | none =>
    refine ⟨hP.nil_mem, List.nil_prefix, fun y hy hyu => ?_⟩
    rcases List.prefix_cons_iff.mp hyu with rfl | ⟨t, rfl, ht⟩
    · exact List.nil_prefix
    · -- its tail begins the kept word, so the search would have found it
      have htail := hP.of_cons c t hy
      have hnot := List.find?_eq_none.mp hfind t (mem_prefixes.2 ⟨h.longest t htail ht, htail⟩)
      exact absurd (decide_eq_true hy) hnot
  | some x =>
    have hx : P (c :: x) := by simpa using List.find?_some hfind
    have hxw := (mem_prefixes.1 (List.mem_of_find?_eq_some hfind)).1
    refine ⟨hx, (List.prefix_cons_inj c).mpr (hxw.trans h.isPrefix), fun y hy hyu => ?_⟩
    rcases List.prefix_cons_iff.mp hyu with rfl | ⟨t, rfl, ht⟩
    · exact List.nil_prefix
    · have htail := hP.of_cons c t hy
      refine (List.prefix_cons_inj c).mpr ?_
      exact longest_of_find? hfind (h.longest t htail ht) htail (decide_eq_true hy)

end

end RocmFpx.LongestPrefix
