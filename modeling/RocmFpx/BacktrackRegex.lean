import Mathlib.Data.List.Basic
import Mathlib.Algebra.Order.Group.Nat
import Mathlib.Algebra.Ring.Nat

/-!
Regular expressions as a backtracking matcher reads them. `rests r s` lists what can be left of
`s` behind a match of `r` at its front, in the order in which the matcher tries the ways to match;
the match is the first of them. `split` cuts a text at its successive leftmost matches.
-/

namespace RocmFpx

inductive Regex (α : Type) where
  | one (p : α → Bool)
  | seq (r r' : Regex α)
  | alt (r r' : Regex α)
  | opt (r : Regex α)
  | star (r : Regex α)
  | notAhead (p : α → Bool)

namespace Regex

variable {α : Type}

/-- The greedy repetition of `f`: another round first, stopping here last. A round that matches
nothing is not repeated. -/
def again (f : List α → List (List α)) : ℕ → List α → List (List α)
  | 0, s => [s]
  | n + 1, s => ((f s).filter fun t => t.length < s.length).flatMap (again f n) ++ [s]

def rests : Regex α → List α → List (List α)
  | one p, s => match s with
    | [] => []
    | a :: t => if p a then [t] else []
  | seq r r', s => (r.rests s).flatMap r'.rests
  | alt r r', s => r.rests s ++ r'.rests s
  | opt r, s => r.rests s ++ [s]
  | star r, s => again r.rests s.length s
  | notAhead p, s => if s.head?.any p then [] else [s]

def plus (r : Regex α) : Regex α := seq r (star r)

/-- What is left of `s` behind the match of `r` at its front. -/
def matchAt (r : Regex α) (s : List α) : Option (List α) := (r.rests s).head?

theorem matchAt_alt (r r' : Regex α) (s : List α) :
    (alt r r').matchAt s = (r.matchAt s).or (r'.matchAt s) := by
  rw [matchAt, rests, List.head?_append, matchAt, matchAt]

theorem matchAt_seq (r r' : Regex α) (s : List α) :
    (seq r r').matchAt s = (r.rests s).findSome? r'.matchAt := by
  rw [matchAt, rests, List.head?_flatMap]
  rfl

@[simp] theorem rests_one_cons (p : α → Bool) (a : α) (s : List α) :
    (one p).rests (a :: s) = if p a then [s] else [] := rfl

theorem rests_opt_one_cons (p : α → Bool) (a : α) (s : List α) :
    (opt (one p)).rests (a :: s) = if p a then [s, a :: s] else [a :: s] := by
  rw [rests, rests_one_cons]
  split <;> rfl

/-! ## Repetitions of single elements -/

/-- What a greedy run of `p` can leave, the shortest rest first. -/
def runs (p : α → Bool) : List α → List (List α)
  | [] => [[]]
  | a :: s => if p a then runs p s ++ [a :: s] else [a :: s]

theorem head?_runs (p : α → Bool) (s : List α) : (runs p s).head? = some (s.dropWhile p) := by
  induction s with
  | nil => rfl
  | cons a s ih =>
    rw [runs, List.dropWhile_cons]
    by_cases hp : p a
    · rw [if_pos hp, if_pos hp, List.head?_append, ih]
      rfl
    · rw [if_neg hp, if_neg hp]
      rfl

/-- `r` matches one element of `p`, perhaps in several ways. -/
structure OneOf (r : Regex α) (p : α → Bool) : Prop where
  nil : r.rests [] = []
  cons : ∀ a s, ∃ m, r.rests (a :: s) = List.replicate m s ∧ (0 < m ↔ p a = true)

theorem oneOf_one (p : α → Bool) : OneOf (one p) p where
  nil := rfl
  cons a s := by
    rw [rests_one_cons]
    by_cases hp : p a
    · exact ⟨1, if_pos hp, by simp [hp]⟩
    · exact ⟨0, if_neg hp, by simp [hp]⟩

theorem OneOf.alt {r r' : Regex α} {p p' : α → Bool} (h : OneOf r p) (h' : OneOf r' p') :
    OneOf (alt r r') fun a => p a || p' a where
  nil := by rw [rests, h.nil, h'.nil, List.append_nil]
  cons a s := by
    obtain ⟨m, hm, hp⟩ := h.cons a s
    obtain ⟨m', hm', hp'⟩ := h'.cons a s
    refine ⟨m + m', by rw [rests, hm, hm', List.replicate_append_replicate], ?_⟩
    rw [Bool.or_eq_true, ← hp, ← hp']
    omega

theorem findSome?_flatMap {β γ : Type} (f : α → List β) (g : β → Option γ) (l : List α) :
    (l.flatMap f).findSome? g = l.findSome? fun a => (f a).findSome? g := by
  induction l with
  | nil => rfl
  | cons a l ih =>
    rw [List.flatMap_cons, List.findSome?_append, ih, List.findSome?_cons]
    cases (f a).findSome? g <;> rfl

theorem findSome?_some (l : List α) : l.findSome? some = l.head? := by
  cases l <;> rfl

theorem findSome?_again {r : Regex α} {p : α → Bool} (h : OneOf r p) {β : Type}
    (g : List α → Option β) {n : ℕ} {s : List α} (hn : s.length ≤ n) :
    (again r.rests n s).findSome? g = (runs p s).findSome? g := by
  induction n generalizing s with
  | zero =>
    obtain rfl := List.length_eq_zero_iff.mp (Nat.le_zero.mp hn)
    rfl
  | succ n ih =>
    cases s with
    | nil =>
      rw [again, h.nil]
      rfl
    | cons a s =>
      obtain ⟨m, hm, hp⟩ := h.cons a s
      have hkeep : (List.replicate m s).filter (fun t => t.length < (a :: s).length) =
          List.replicate m s :=
        List.filter_eq_self.mpr fun t ht => by
          rw [List.eq_of_mem_replicate ht]
          simp
      rw [again, hm, hkeep, List.findSome?_append, findSome?_flatMap, runs]
      by_cases hpa : p a
      · rw [if_pos hpa, List.findSome?_append, List.findSome?_replicate_of_pos (hp.mpr hpa),
          ih (Nat.le_of_succ_le_succ hn)]
      · obtain rfl : m = 0 := Nat.eq_zero_of_not_pos fun hpos => hpa (hp.mp hpos)
        rw [if_neg hpa]
        rfl

theorem findSome?_star {r : Regex α} {p : α → Bool} (h : OneOf r p) {β : Type}
    (g : List α → Option β) (s : List α) :
    ((star r).rests s).findSome? g = (runs p s).findSome? g := findSome?_again h g le_rfl

theorem findSome?_plus {r : Regex α} {p : α → Bool} (h : OneOf r p) {β : Type}
    (g : List α → Option β) (a : α) (s : List α) :
    ((plus r).rests (a :: s)).findSome? g = if p a then (runs p s).findSome? g else none := by
  obtain ⟨m, hm, hp⟩ := h.cons a s
  rw [plus, rests, hm, findSome?_flatMap]
  by_cases hpa : p a
  · rw [if_pos hpa, List.findSome?_replicate_of_pos (hp.mpr hpa), findSome?_star h]
  · obtain rfl : m = 0 := Nat.eq_zero_of_not_pos fun hpos => hpa (hp.mp hpos)
    rw [if_neg hpa]
    rfl

theorem matchAt_star {r : Regex α} {p : α → Bool} (h : OneOf r p) (s : List α) :
    (star r).matchAt s = some (s.dropWhile p) := by
  rw [matchAt, ← findSome?_some, findSome?_star h, findSome?_some, head?_runs]

theorem matchAt_plus {r : Regex α} {p : α → Bool} (h : OneOf r p) (s : List α) :
    (plus r).matchAt s = if s.head?.any p then some (s.dropWhile p) else none := by
  cases s with
  | nil =>
    rw [plus, matchAt_seq, h.nil]
    rfl
  | cons a s =>
    rw [matchAt, ← findSome?_some, findSome?_plus h, findSome?_some, head?_runs, List.head?_cons,
      Option.any_some, List.dropWhile_cons]
    by_cases hp : p a
    · rw [if_pos hp, if_pos hp, if_pos hp]
    · rw [if_neg hp, if_neg hp]

/-- A run that is followed by something that always matches is never given back. -/
theorem findSome?_runs {p : α → Bool} {s : List α} {β : Type} {g : List α → Option β}
    {b : β} (h : g (s.dropWhile p) = some b) : (runs p s).findSome? g = some b := by
  have hhead := head?_runs p s
  cases hr : runs p s with
  | nil => rw [hr] at hhead; cases hhead
  | cons t ts =>
    rw [hr] at hhead
    obtain rfl := Option.some.inj hhead
    rw [List.findSome?_cons, h]

theorem matchAt_plus_star {r r' : Regex α} {p q : α → Bool} (h : OneOf r p) (h' : OneOf r' q)
    (s : List α) : (seq (plus r) (star r')).matchAt s =
      if s.head?.any p then some ((s.dropWhile p).dropWhile q) else none := by
  cases s with
  | nil =>
    rw [matchAt_seq, plus, rests, h.nil]
    rfl
  | cons a s =>
    rw [matchAt_seq, findSome?_plus h, List.head?_cons, Option.any_some, List.dropWhile_cons]
    by_cases hp : p a
    · rw [if_pos hp, if_pos hp, if_pos hp, findSome?_runs (matchAt_star h' _)]
    · rw [if_neg hp, if_neg hp]

/-- An optional element is taken where the rest of the pattern matches behind it. -/
theorem matchAt_opt_seq (p : α → Bool) (r : Regex α) (a : α) (s : List α) :
    (seq (opt (one p)) r).matchAt (a :: s) =
      if p a then (r.matchAt s).or (r.matchAt (a :: s)) else r.matchAt (a :: s) := by
  rw [matchAt_seq, rests_opt_one_cons]
  by_cases hp : p a
  · rw [if_pos hp, if_pos hp, List.findSome?_cons, List.findSome?_singleton]
    cases r.matchAt s <;> rfl
  · rw [if_neg hp, if_neg hp, List.findSome?_singleton]

theorem findSome?_runs_plus {p q : α → Bool} (hqp : ∀ a, q a → p a) (a : α) (s : List α) :
    (runs p (a :: s)).findSome? (plus (one q)).matchAt =
      if p a then ((runs p s).findSome? (plus (one q)).matchAt).or (if q a then some s else none)
      else none := by
  have hplus := fun t => matchAt_plus (oneOf_one q) t
  rw [runs]
  by_cases hp : p a
  · rw [if_pos hp, if_pos hp, List.findSome?_append]
    cases hrec : (runs p s).findSome? (plus (one q)).matchAt with
    | some t => rfl
    | none =>
      rw [Option.none_or, Option.none_or, List.findSome?_singleton, hplus, List.head?_cons,
        Option.any_some]
      by_cases hq : q a
      · rw [if_pos hq, if_pos hq, List.dropWhile_cons, if_pos hq]
        -- nothing behind `a` in the run is a `q`, so the run of `q` is `a` alone
        cases s with
        | nil => rfl
        | cons b s =>
          have hb : ¬ q b = true := by
            intro hb
            rw [runs, if_pos (hqp b hb), List.findSome?_append, List.findSome?_singleton, hplus,
              List.head?_cons, Option.any_some, if_pos hb] at hrec
            cases h : (runs p s).findSome? (plus (one q)).matchAt <;> rw [h] at hrec <;> cases hrec
          rw [List.dropWhile_cons, if_neg hb]
      · rw [if_neg hq, if_neg hq]
  · rw [if_neg hp, if_neg hp, List.findSome?_singleton, hplus, List.head?_cons, Option.any_some,
      if_neg fun hq => hp (hqp a hq)]

theorem findSome?_runs_notAhead {p : α → Bool} (s : List α) :
    (runs p s).findSome? (notAhead fun a => !p a).matchAt =
      if s.dropWhile p = [] then some []
      else if 0 < (s.takeWhile p).length then some (s.drop ((s.takeWhile p).length - 1))
      else none := by
  induction s with
  | nil => rfl
  | cons a s ih =>
    rw [runs, List.dropWhile_cons, List.takeWhile_cons]
    by_cases hp : p a
    · have hstop : (notAhead fun a => !p a).matchAt (a :: s) = some (a :: s) := by
        simp [matchAt, rests, hp]
      rw [if_pos hp, if_pos hp, if_pos hp, List.findSome?_append, ih, List.findSome?_singleton,
        hstop, List.length_cons, Nat.add_sub_cancel, if_pos (Nat.succ_pos _)]
      split_ifs with h1 h2
      · rfl
      · rw [Option.some_or]
        conv_rhs => rw [← Nat.sub_add_cancel h2, List.drop_succ_cons]
      · rw [Option.none_or, Nat.eq_zero_of_not_pos h2, List.drop_zero]
    · rw [if_neg hp, if_neg hp, if_neg hp, List.findSome?_singleton,
        if_neg (List.cons_ne_nil a s), if_neg (by simp)]
      simp [matchAt, rests, hp]

/-! ## Runs of two kinds that overlap -/

/-- What is left behind a run of `p` and a run of `q` that has something: of the run of `p` as much
is given back as the other needs. -/
def overlap (p q : α → Bool) : List α → Option (List α)
  | [] => none
  | a :: s =>
    if p a then (overlap p q s).or (if q a then some s else none)
    else if q a then some (s.dropWhile q) else none

section
variable {p q : α → Bool}

theorem isSome_overlap_cons {a : α} (ha : q a) (s : List α) :
    ∃ e, overlap p q (a :: s) = some e := by
  rw [overlap, if_pos ha, if_pos ha]
  split_ifs
  · cases overlap p q s with
    | none => exact ⟨s, rfl⟩
    | some e => exact ⟨e, rfl⟩
  · exact ⟨_, rfl⟩

theorem findSome?_runs_overlap (k : List α → List α) (s : List α) :
    (runs p s).findSome? (fun t => if t.head?.any q then some (k (t.dropWhile q)) else none) =
      (overlap p q s).map k := by
  induction s with
  | nil => rfl
  | cons a s ih =>
    rw [runs, overlap]
    by_cases hp : p a
    · rw [if_pos hp, if_pos hp, List.findSome?_append, ih, List.findSome?_singleton,
        List.head?_cons, Option.any_some, List.dropWhile_cons]
      cases hs : overlap p q s with
      | some e => rfl
      | none =>
        -- no run of `q` is left in front of `s`
        have hrest : s.dropWhile q = s := by
          cases s with
          | nil => rfl
          | cons b s =>
            rw [List.dropWhile_cons, if_neg]
            intro hb
            obtain ⟨e, he⟩ := isSome_overlap_cons (p := p) hb s
            rw [hs] at he
            cases he
        by_cases hq : q a
        · rw [if_pos hq, if_pos hq, if_pos hq, hrest]
          rfl
        · rw [if_neg hq, if_neg hq]
          rfl
    · rw [if_neg hp, if_neg hp, List.findSome?_singleton, List.head?_cons, Option.any_some,
        List.dropWhile_cons]
      by_cases hq : q a
      · rw [if_pos hq, if_pos hq, if_pos hq]
        rfl
      · rw [if_neg hq, if_neg hq]
        rfl

theorem overlap_suffix {s e : List α} (h : overlap p q s = some e) :
    e <:+ s ∧ e.length < s.length := by
  induction s with
  | nil => cases h
  | cons a s ih =>
    have htail : ∀ e, e <:+ s → e <:+ a :: s ∧ e.length < (a :: s).length := fun e he =>
      ⟨he.trans (List.suffix_cons a s), Nat.lt_succ_of_le he.length_le⟩
    rw [overlap] at h
    split_ifs at h
    · rcases Option.or_eq_some_iff.mp h with h | ⟨-, h⟩
      · exact htail e (ih h).1
      · obtain rfl := Option.some.inj h
        exact htail s List.suffix_rfl
    · rw [Option.or_none] at h
      exact htail e (ih h).1
    · obtain rfl := Option.some.inj h
      exact htail _ (List.dropWhile_suffix q)

/-- The two runs make up the whole of `x`. -/
def Whole (p q : α → Bool) (x : List α) : Prop :=
  (∀ c ∈ x.dropWhile p, q c = true) ∧ ∃ c, x.getLast? = some c ∧ q c = true

theorem dropWhile_append_of_all {x : List α} (h : ∀ c ∈ x, q c = true) (s : List α) :
    (x ++ s).dropWhile q = s.dropWhile q := by
  induction x with
  | nil => rfl
  | cons a x ih =>
    obtain ⟨ha, hx⟩ := List.forall_mem_cons.mp h
    rw [List.cons_append, List.dropWhile_cons, if_pos ha, ih hx]

theorem head?_dropWhile (p : α → Bool) (s : List α) : (s.dropWhile p).head?.any p = false := by
  have hnot := List.head?_dropWhile_not p s
  cases h : s.dropWhile p with
  | nil => rfl
  | cons a t =>
    rw [h] at hnot
    exact hnot

theorem exists_cons_of_any {s : List α} (h : s.head?.any p = true) :
    ∃ a t, s = a :: t ∧ p a = true := by
  cases s with
  | nil => cases h
  | cons a t => exact ⟨a, t, rfl, h⟩

theorem takeWhile_dropWhile_of_any {s : List α} (h : s.head?.any p = true) :
    s.takeWhile p ≠ [] ∧ (s.dropWhile p).length < s.length := by
  obtain ⟨a, t, rfl, ha⟩ := exists_cons_of_any h
  rw [List.takeWhile_cons, List.dropWhile_cons, if_pos ha, if_pos ha]
  exact ⟨List.cons_ne_nil _ _, Nat.lt_succ_of_le (List.dropWhile_suffix _).length_le⟩

theorem length_dropWhile_append {x : List α} (h : ¬ ∀ c ∈ x, q c = true) (s : List α) :
    s.length < ((x ++ s).dropWhile q).length := by
  induction x with
  | nil => exact absurd (fun c hc => absurd hc List.not_mem_nil) h
  | cons a x ih =>
    rw [List.cons_append, List.dropWhile_cons]
    split_ifs with ha
    · exact ih fun hx => h (List.forall_mem_cons.mpr ⟨ha, hx⟩)
    · rw [List.length_cons, List.length_append]
      omega

variable {x after : List α}

theorem overlap_of_outside (hafter : ∀ c ∈ after.head?, p c = false ∧ q c = false) :
    overlap p q after = none ∧ after.dropWhile q = after := by
  cases after with
  | nil => exact ⟨rfl, rfl⟩
  | cons c after =>
    obtain ⟨hp, hq⟩ := hafter c rfl
    rw [overlap, hp, hq, List.dropWhile_cons, hq]
    exact ⟨rfl, rfl⟩

theorem overlap_eq_none (hx : ∀ c ∈ x, p c = true ∨ q c = true)
    (hafter : ∀ c ∈ after.head?, p c = false ∧ q c = false) (hno : ∀ c ∈ x, q c = false) :
    overlap p q (x ++ after) = none := by
  induction x with
  | nil => exact (overlap_of_outside hafter).1
  | cons a x ih =>
    obtain ⟨ha, hx⟩ := List.forall_mem_cons.mp hx
    obtain ⟨hqa, hno⟩ := List.forall_mem_cons.mp hno
    have hpa : p a = true := ha.resolve_right (by rw [hqa]; exact Bool.false_ne_true)
    rw [List.cons_append, overlap, if_pos hpa, ih hx hno, hqa]
    rfl

theorem overlap_run (hx : ∀ c ∈ x, p c = true ∨ q c = true)
    (hafter : ∀ c ∈ after.head?, p c = false ∧ q c = false) (hsome : ∃ c ∈ x, q c = true) :
    ∃ e, overlap p q (x ++ after) = some e ∧
      (Whole p q x ∧ e = after ∨ ¬ Whole p q x ∧ after.length < e.length) := by
  induction x with
  | nil =>
    obtain ⟨c, hc, -⟩ := hsome
    cases hc
  | cons a x ih =>
    obtain ⟨ha, hx⟩ := List.forall_mem_cons.mp hx
    rw [List.cons_append, overlap]
    by_cases hp : p a
    · have hdrop : (a :: x).dropWhile p = x.dropWhile p := by rw [List.dropWhile_cons, if_pos hp]
      rw [if_pos hp]
      by_cases hmore : ∃ c ∈ x, q c = true
      · obtain ⟨e, he, hwhole⟩ := ih hx hmore
        have hne : x ≠ [] := by
          rintro rfl
          obtain ⟨c, hc, -⟩ := hmore
          cases hc
        refine ⟨e, by rw [he, Option.some_or], ?_⟩
        rwa [Whole, hdrop, List.getLast?_cons_of_ne_nil hne]
      · have hno : ∀ c ∈ x, q c = false := fun c hc =>
          Bool.eq_false_iff.mpr fun hq => hmore ⟨c, hc, hq⟩
        have hqa : q a = true := by
          obtain ⟨c, hc, hq⟩ := hsome
          rcases List.mem_cons.mp hc with rfl | hc
          · exact hq
          · exact absurd ⟨c, hc, hq⟩ hmore
        refine ⟨x ++ after, by rw [overlap_eq_none hx hafter hno, if_pos hqa, Option.none_or], ?_⟩
        rw [Whole, hdrop]
        cases hlast : x.getLast? with
        | none =>
          obtain rfl := List.getLast?_eq_none_iff.mp hlast
          exact .inl ⟨⟨fun c hc => absurd hc List.not_mem_nil, a, rfl, hqa⟩, rfl⟩
        | some c =>
          have hmem := List.mem_of_getLast? hlast
          have hlt : after.length < (x ++ after).length := by
            have := List.length_pos_of_mem hmem
            rw [List.length_append]
            omega
          refine .inr ⟨fun hwhole => ?_, hlt⟩
          obtain ⟨d, hd, hq⟩ := hwhole.2
          rw [List.getLast?_cons_of_ne_nil (List.ne_nil_of_mem hmem), hlast] at hd
          obtain rfl := Option.some.inj hd
          exact Bool.noConfusion ((hno c hmem).symm.trans hq)
    · have hq := ha.resolve_left hp
      have hdrop : (a :: x).dropWhile p = a :: x := by rw [List.dropWhile_cons, if_neg hp]
      refine ⟨_, by rw [if_neg hp, if_pos hq], ?_⟩
      rw [Whole, hdrop]
      by_cases hall : ∀ c ∈ x, q c = true
      · have hall' : ∀ c ∈ a :: x, q c = true := List.forall_mem_cons.mpr ⟨hq, hall⟩
        refine .inl ⟨⟨hall', ?_⟩, ?_⟩
        · cases hlast : (a :: x).getLast? with
          | none => exact absurd (List.getLast?_eq_none_iff.mp hlast) (List.cons_ne_nil a x)
          | some c => exact ⟨c, rfl, hall' c (List.mem_of_getLast? hlast)⟩
        · rw [dropWhile_append_of_all hall, (overlap_of_outside hafter).2]
      · exact .inr ⟨fun hwhole => hall (List.forall_mem_cons.mp hwhole.1).2,
          length_dropWhile_append hall after⟩

theorem overlap_ne {m : α} (hx : ∀ c ∈ x, p c = true ∨ q c = true) (hqm : q m = true)
    (rest : List α) :
    ∃ e, overlap p q (x ++ m :: rest) = some e ∧ e ≠ m :: rest := by
  induction x with
  | nil =>
    obtain ⟨e, he⟩ := isSome_overlap_cons (p := p) hqm rest
    refine ⟨e, he, fun heq => ?_⟩
    have := (overlap_suffix he).2
    rw [heq] at this
    exact lt_irrefl _ this
  | cons a x ih =>
    obtain ⟨ha, hx⟩ := List.forall_mem_cons.mp hx
    rw [List.cons_append, overlap]
    by_cases hp : p a
    · obtain ⟨e, he, hne⟩ := ih hx
      exact ⟨e, by rw [if_pos hp, he, Option.some_or], hne⟩
    · refine ⟨_, by rw [if_neg hp, if_pos (ha.resolve_left hp)], fun heq => ?_⟩
      have hlen := congrArg List.length heq
      by_cases hall : ∀ c ∈ x, q c = true
      · rw [dropWhile_append_of_all hall, List.dropWhile_cons, if_pos hqm] at hlen
        have := (List.dropWhile_suffix (l := rest) q).length_le
        rw [List.length_cons] at hlen
        omega
      · have := length_dropWhile_append hall (m :: rest)
        omega

theorem overlap_both {m : List α} (hne : m ≠ []) (hm : ∀ c ∈ m, p c = true ∧ q c = true)
    (s : List α) : overlap p q (m ++ s) = some ((overlap p q s).getD s) := by
  induction m with
  | nil => exact absurd rfl hne
  | cons a m ih =>
    obtain ⟨⟨hp, hq⟩, hm⟩ := List.forall_mem_cons.mp hm
    rw [List.cons_append, overlap, if_pos hp, if_pos hq]
    by_cases hmore : m = []
    · rw [hmore, List.nil_append]
      cases overlap p q s <;> rfl
    · rw [ih hmore hm, Option.some_or]

theorem matchAt_opt (r : Regex α) (s : List α) :
    (opt r).matchAt s = some ((r.matchAt s).getD s) := by
  rw [matchAt, rests, List.head?_append, matchAt]
  cases (r.rests s).head? <;> rfl

theorem matchAt_plus_opt (r : Regex α) (s : List α) :
    (seq (plus (one q)) (opt r)).matchAt s =
      if s.head?.any q then some ((r.matchAt (s.dropWhile q)).getD (s.dropWhile q)) else none := by
  cases s with
  | nil => rfl
  | cons a s =>
    rw [matchAt_seq, findSome?_plus (oneOf_one q), List.head?_cons, Option.any_some,
      List.dropWhile_cons]
    by_cases hq : q a
    · rw [if_pos hq, if_pos hq, if_pos hq, findSome?_runs (matchAt_opt r _)]
    · rw [if_neg hq, if_neg hq]

theorem matchAt_overlap (r : Regex α) (s : List α) :
    (seq (star (one p)) (seq (plus (one q)) (opt r))).matchAt s =
      (overlap p q s).map fun e => (r.matchAt e).getD e := by
  rw [matchAt_seq, findSome?_star (oneOf_one p), ← findSome?_runs_overlap]
  congr 1
  funext t
  exact matchAt_plus_opt r t

theorem matchAt_plus_star_opt (r : Regex α) (s : List α) :
    (seq (plus (one p)) (seq (star (one q)) (opt r))).matchAt s =
      if s.head?.any p then
        some ((r.matchAt ((s.dropWhile p).dropWhile q)).getD ((s.dropWhile p).dropWhile q))
      else none := by
  have hrest : ∀ t, (seq (star (one q)) (opt r)).matchAt t =
      some ((r.matchAt (t.dropWhile q)).getD (t.dropWhile q)) := by
    intro t
    rw [matchAt_seq, findSome?_star (oneOf_one q), findSome?_runs (matchAt_opt r _)]
  cases s with
  | nil => rfl
  | cons a s =>
    rw [matchAt_seq, findSome?_plus (oneOf_one p), List.head?_cons, Option.any_some,
      List.dropWhile_cons]
    by_cases hp : p a
    · rw [if_pos hp, if_pos hp, if_pos hp, findSome?_runs (hrest _)]
    · rw [if_neg hp, if_neg hp]

end

/-! ## Cutting a text at the matches -/

def piece (k : ℕ) : List ℕ := if k = 0 then [] else [k]

/-- The lengths of the pieces of `s`, behind `gap` elements that belong to no match. A match of
nothing is passed over. -/
def splitFrom (r : Regex α) : ℕ → ℕ → List α → List ℕ
  | _, gap, [] => piece gap
  | 0, gap, _ :: _ => piece gap
  | n + 1, gap, a :: s =>
    match (r.matchAt (a :: s)).filter fun t => t.length ≤ s.length with
    | some t => piece gap ++ (s.length + 1 - t.length) :: splitFrom r n 0 t
    | none => splitFrom r n (gap + 1) s

def split (r : Regex α) (s : List α) : List ℕ := splitFrom r s.length 0 s

theorem splitFrom_fuel (r : Regex α) {n m gap : ℕ} {s : List α} (hn : s.length ≤ n)
    (hm : s.length ≤ m) : splitFrom r n gap s = splitFrom r m gap s := by
  induction n generalizing m gap s with
  | zero =>
    obtain rfl := List.length_eq_zero_iff.mp (Nat.le_zero.mp hn)
    cases m <;> rfl
  | succ n ih =>
    cases s with
    | nil => cases m <;> rfl
    | cons a s =>
      cases m with
      | zero => cases hm
      | succ m =>
        have hn' : s.length ≤ n := Nat.le_of_succ_le_succ hn
        have hm' : s.length ≤ m := Nat.le_of_succ_le_succ hm
        rw [splitFrom, splitFrom]
        cases hmatch : (r.matchAt (a :: s)).filter fun t => t.length ≤ s.length with
        | none => exact ih hn' hm'
        | some t =>
          have ht : t.length ≤ s.length := by simpa using (Option.filter_eq_some_iff.mp hmatch).2
          simp only
          rw [ih (ht.trans hn') (ht.trans hm')]

theorem piece_sum (k : ℕ) : (piece k).sum = k ∧ ∀ n ∈ piece k, 0 < n := by
  rw [piece]
  split_ifs with h
  · exact ⟨h.symm, fun n hn => absurd hn List.not_mem_nil⟩
  · exact ⟨List.sum_singleton, by simpa using Nat.pos_of_ne_zero h⟩

theorem splitFrom_sum (r : Regex α) {n gap : ℕ} {s : List α} (hn : s.length ≤ n) :
    (splitFrom r n gap s).sum = gap + s.length ∧ ∀ k ∈ splitFrom r n gap s, 0 < k := by
  induction n generalizing gap s with
  | zero =>
    obtain rfl := List.length_eq_zero_iff.mp (Nat.le_zero.mp hn)
    exact piece_sum gap
  | succ n ih =>
    cases s with
    | nil => exact piece_sum gap
    | cons a s =>
      have hn' : s.length ≤ n := Nat.le_of_succ_le_succ hn
      rw [splitFrom]
      cases hmatch : (r.matchAt (a :: s)).filter fun t => t.length ≤ s.length with
      | none =>
        obtain ⟨hsum, hpos⟩ := @ih (gap + 1) s hn'
        exact ⟨by rw [hsum, List.length_cons]; omega, hpos⟩
      | some t =>
        have ht : t.length ≤ s.length := by simpa using (Option.filter_eq_some_iff.mp hmatch).2
        obtain ⟨hsum, hpos⟩ := @ih 0 t (ht.trans hn')
        obtain ⟨hgap, hgpos⟩ := piece_sum gap
        constructor
        · rw [List.sum_append, List.sum_cons, hgap, hsum, List.length_cons]
          omega
        · intro k hk
          rcases List.mem_append.mp hk with hk | hk
          · exact hgpos k hk
          · rcases List.mem_cons.mp hk with rfl | hk
            · omega
            · exact hpos k hk

/-- A match at the front is a piece. -/
theorem split_of_matchAt {r : Regex α} {s t : List α} (h : r.matchAt s = some t)
    (hlt : t.length < s.length) : r.split s = (s.length - t.length) :: r.split t := by
  cases s with
  | nil => cases hlt
  | cons a s =>
    have ht : t.length ≤ s.length := Nat.le_of_lt_succ hlt
    have hf : (r.matchAt (a :: s)).filter (fun t => t.length ≤ s.length) = some t :=
      Option.filter_eq_some_iff.mpr ⟨h, by simpa using ht⟩
    rw [split, List.length_cons, splitFrom, hf]
    change [] ++ (s.length + 1 - t.length) :: splitFrom r s.length 0 t = _
    rw [List.nil_append, split, splitFrom_fuel r ht le_rfl]

/-- Matches one behind the other lead from the front of a text to `rest`, which is not empty. -/
inductive Begins (r : Regex α) : List α → List α → Prop
  | here (a : α) (s : List α) : Begins r (a :: s) (a :: s)
  | next {s t rest : List α} (hmatch : r.matchAt s = some t) (hlt : t.length < s.length)
      (h : Begins r t rest) : Begins r s rest

theorem not_begins_nil {r : Regex α} {rest : List α} : ¬ Begins r [] rest := by
  intro h
  cases h with
  | next _ hlt _ => cases hlt

/-- What cuts off the piece that is matched where `P` holds, and only there, cuts a text at the
matches exactly when `P` holds wherever one begins. -/
theorem eq_split_iff {r : Regex α} {f : List α → List ℕ} {P : List α → Prop} {s : List α}
    (hnil : f [] = [])
    (hstep : ∀ t, t ≠ [] → t <:+ s → ∃ rest, r.matchAt t = some rest ∧ rest <:+ t ∧
      rest.length < t.length ∧ (P t → f t = (t.length - rest.length) :: f rest) ∧
      (¬ P t → ∀ more, f t ≠ (t.length - rest.length) :: more)) :
    f s = r.split s ↔ ∀ rest, Begins r s rest → P rest := by
  induction hlen : s.length using Nat.strong_induction_on generalizing s with
  | _ n ih =>
    cases s with
    | nil => exact iff_of_true hnil fun rest h => absurd h not_begins_nil
    | cons a s =>
      obtain ⟨rest, hmatch, hsuffix, hlt, hyes, hno⟩ :=
        hstep (a :: s) (List.cons_ne_nil a s) List.suffix_rfl
      have hrest := ih rest.length (hlen ▸ hlt)
        (fun t hne ht => hstep t hne (ht.trans hsuffix)) rfl
      rw [split_of_matchAt hmatch hlt]
      by_cases hP : P (a :: s)
      · rw [hyes hP, List.cons_inj_right, hrest]
        constructor
        · intro h t ht
          cases ht with
          | here => exact hP
          | next hmatch' _ ht =>
            obtain rfl := Option.some.inj (hmatch.symm.trans hmatch')
            exact h t ht
        · exact fun h t ht => h t (.next hmatch hlt ht)
      · exact iff_of_false (hno hP _) fun h => hP (h _ (.here a s))

end Regex

end RocmFpx
