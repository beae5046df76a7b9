import Mathlib.Data.List.Basic
import Mathlib.Order.Lattice

/-!
Greedy merging of words. While two adjacent words have a key, the pair of the greatest key is
joined, the leftmost of several.
-/

namespace RocmFpx
namespace GreedyMerge

section
variable {α K : Type} {key : List α → List α → Option K}

/-- The keys of all adjacent words satisfy `p`. -/
def Keys (key : List α → List α → Option K) (p : K → Prop) : List (List α) → Prop
  | a :: b :: ws => (∀ k, key a b = some k → p k) ∧ Keys key p (b :: ws)
  | _ => True

theorem ne_pair {ws pre post : List (List α)} {a b : List α} (h : ws.length < 2) :
    ws ≠ pre ++ a :: b :: post := by
  rintro rfl
  rw [List.length_append, List.length_cons, List.length_cons] at h
  omega

theorem keys_iff {p : K → Prop} {ws : List (List α)} : Keys key p ws ↔
    ∀ pre a b post, ws = pre ++ a :: b :: post → ∀ k, key a b = some k → p k := by
  induction ws with
  | nil => exact ⟨fun _ _ _ _ _ h => absurd h (ne_pair Nat.zero_lt_two), fun _ => trivial⟩
  | cons x ws ih =>
    cases ws with
    | nil => exact ⟨fun _ _ _ _ _ h => absurd h (ne_pair Nat.one_lt_two), fun _ => trivial⟩
    | cons y ws =>
      rw [Keys, ih]
      constructor
      · rintro ⟨hfirst, hrest⟩ pre a b post h
        cases pre with
        | nil =>
          obtain ⟨ha, h⟩ := List.cons.inj h
          obtain ⟨hb, -⟩ := List.cons.inj h
          exact ha ▸ hb ▸ hfirst
        | cons z pre => exact hrest pre a b post (List.cons.inj h).2
      · intro hall
        refine ⟨hall [] x y ws rfl, fun pre a b post h => hall (x :: pre) a b post ?_⟩
        rw [h, List.cons_append]

theorem Keys.imp {p q : K → Prop} (h : ∀ k, p k → q k) {ws : List (List α)}
    (hws : Keys key p ws) : Keys key q ws :=
  keys_iff.2 fun pre a b post he k hk => h k (keys_iff.1 hws pre a b post he k hk)

/-- In front of a word there is one more pair. -/
theorem keys_cons {p : K → Prop} {x y a : List α} {ws pre rest : List (List α)}
    (h : y :: ws = pre ++ a :: rest) : Keys key p (x :: pre ++ [a]) ↔
      (∀ k, key x y = some k → p k) ∧ Keys key p (pre ++ [a]) := by
  cases pre with
  | nil =>
    obtain ⟨rfl, -⟩ := List.cons.inj h
    exact Iff.rfl
  | cons z pre =>
    obtain ⟨rfl, -⟩ := List.cons.inj h
    exact Iff.rfl

variable [LinearOrder K]

/-- The key of the pair to be joined, and the words with it joined. -/
def pick (key : List α → List α → Option K) : List (List α) → Option (K × List (List α))
  | a :: b :: ws =>
    match key a b, pick key (b :: ws) with
    | none, none => none
    | none, some p => some (p.1, a :: p.2)
    | some k, none => some (k, (a ++ b) :: ws)
    | some k, some p => if k < p.1 then some (p.1, a :: p.2) else some (k, (a ++ b) :: ws)
  | _ => none

theorem pick_none {ws : List (List α)} : pick key ws = none ↔ Keys key (fun _ => False) ws := by
  induction ws with
  | nil => exact ⟨fun _ => trivial, fun _ => rfl⟩
  | cons a ws ih =>
    cases ws with
    | nil => exact ⟨fun _ => trivial, fun _ => rfl⟩
    | cons b ws =>
      rw [pick, Keys, ← ih]
      cases hab : key a b with
      | none => cases pick key (b :: ws) <;> simp
      | some k =>
        cases pick key (b :: ws)
        · simp
        · dsimp only
          split_ifs <;> simp

/-- A pair is the best one: no key is greater, and all before it are less. -/
def Best (key : List α → List α → Option K) (ws : List (List α)) (k : K) (ws' : List (List α)) :
    Prop :=
  ∃ pre a b post, ws = pre ++ a :: b :: post ∧ ws' = pre ++ (a ++ b) :: post ∧
    key a b = some k ∧ Keys key (· < k) (pre ++ [a]) ∧ Keys key (· ≤ k) (b :: post)

theorem Best.cons {x y : List α} {ws ws' : List (List α)} {k : K} (h : Best key (y :: ws) k ws')
    (hxy : ∀ k', key x y = some k' → k' < k) : Best key (x :: y :: ws) k (x :: ws') := by
  obtain ⟨pre, a, b, post, hws, rfl, hkey, hpre, hpost⟩ := h
  refine ⟨x :: pre, a, b, post, ?_, rfl, hkey, (keys_cons hws).mpr ⟨hxy, hpre⟩, hpost⟩
  rw [hws, List.cons_append]

theorem Best.le {ws ws' : List (List α)} {k : K} (h : Best key ws k ws') :
    Keys key (· ≤ k) ws := by
  obtain ⟨pre, a, b, post, rfl, -, hkey, hpre, hpost⟩ := h
  induction pre with
  | nil => exact ⟨fun k' hk' => (Option.some.inj (hkey.symm.trans hk')).ge, hpost⟩
  | cons x pre ih =>
    cases pre with
    | nil => exact ⟨fun k' hk' => (hpre.1 k' hk').le, ih trivial⟩
    | cons y pre => exact ⟨fun k' hk' => (hpre.1 k' hk').le, ih hpre.2⟩

theorem pick_eq_some {ws ws' : List (List α)} {k : K} :
    pick key ws = some (k, ws') ↔ Best key ws k ws' := by
  induction ws generalizing k ws' with
  | nil =>
    refine ⟨(fun h => by cases h), ?_⟩
    rintro ⟨_, _, _, _, h, _⟩
    exact absurd h (ne_pair Nat.zero_lt_two)
  | cons x ws ih =>
    cases ws with
    | nil =>
      refine ⟨(fun h => by cases h), ?_⟩
      rintro ⟨_, _, _, _, h, _⟩
      exact absurd h (ne_pair Nat.one_lt_two)
    | cons y ws =>
      rw [pick]
      constructor
      · intro h
        cases hxy : key x y with
        | none =>
          cases hp : pick key (y :: ws) with
          | none => simp [hxy, hp] at h
          | some p =>
            rw [hxy, hp] at h
            obtain ⟨rfl, rfl⟩ := Prod.mk.inj (Option.some.inj h)
            exact (ih.mp hp).cons fun k' hk' => by simp [hxy] at hk'
        | some k' =>
          cases hp : pick key (y :: ws) with
          | none =>
            rw [hxy, hp] at h
            obtain ⟨rfl, rfl⟩ := Prod.mk.inj (Option.some.inj h)
            exact ⟨[], x, y, ws, rfl, rfl, hxy, trivial, (pick_none.1 hp).imp fun _ => False.elim⟩
          | some p =>
            rw [hxy, hp] at h
            dsimp only at h
            by_cases hlt : k' < p.1
            · rw [if_pos hlt] at h
              obtain ⟨rfl, rfl⟩ := Prod.mk.inj (Option.some.inj h)
              refine (ih.mp hp).cons fun k'' hk'' => ?_
              rwa [← Option.some.inj (hxy.symm.trans hk'')]
            · rw [if_neg hlt] at h
              obtain ⟨rfl, rfl⟩ := Prod.mk.inj (Option.some.inj h)
              exact ⟨[], x, y, ws, rfl, rfl, hxy, trivial,
                (ih.mp hp).le.imp fun _ hle => hle.trans (not_lt.mp hlt)⟩
      · rintro ⟨pre, a, b, post, hws, rfl, hkey, hpre, hpost⟩
        cases pre with
        | nil =>
          obtain ⟨rfl, htail⟩ := List.cons.inj hws
          obtain ⟨rfl, rfl⟩ := List.cons.inj htail
          rw [hkey]
          cases hp : pick key (y :: ws) with
          | none => rfl
          | some p =>
            have hle : p.1 ≤ k := by
              obtain ⟨pre, a, b, post, he, -, hk, -⟩ := ih.mp hp
              exact keys_iff.1 hpost pre a b post he p.1 hk
            exact if_neg hle.not_gt
        | cons z pre =>
          obtain ⟨rfl, htail⟩ := List.cons.inj hws
          obtain ⟨hxy, hpre⟩ := (keys_cons htail).mp hpre
          rw [ih.mpr ⟨pre, a, b, post, htail, rfl, hkey, hpre, hpost⟩]
          cases hkey' : key x y with
          | none => rfl
          | some k' => exact if_pos (hxy k' hkey')

theorem pick_length {ws : List (List α)} {p : K × List (List α)} (h : pick key ws = some p) :
    p.2.length < ws.length := by
  obtain ⟨pre, a, b, post, hws, hws', -⟩ := pick_eq_some.1 h
  rw [hws, hws', List.length_append, List.length_append, List.length_cons, List.length_cons,
    List.length_cons]
  omega

/-- Joins the best pair while there is one. -/
def greedy (key : List α → List α → Option K) (ws : List (List α)) : List (List α) :=
  match _h : pick key ws with
  | none => ws
  | some p => greedy key p.2
  termination_by ws.length
  decreasing_by exact pick_length _h

theorem greedy_of_none {ws : List (List α)} (h : Keys key (fun _ => False) ws) :
    greedy key ws = ws := by
  rw [greedy]
  split
  · rfl
  · next p hp => exact absurd (hp.symm.trans (pick_none.2 h)) (Option.some_ne_none p)

theorem greedy_of_best {ws ws' : List (List α)} {k : K} (h : Best key ws k ws') :
    greedy key ws = greedy key ws' := by
  rw [greedy]
  split
  · next hnone => exact absurd (hnone.symm.trans (pick_eq_some.2 h)) (Option.some_ne_none _).symm
  · next p hp =>
    obtain rfl : p = (k, ws') := Option.some.inj (hp.symm.trans (pick_eq_some.2 h))
    rfl

theorem greedy_induction {P : List (List α) → Prop}
    (step : ∀ ws k ws', Best key ws k ws' → P ws → P ws') {ws : List (List α)} (h : P ws) :
    P (greedy key ws) := by
  fun_induction greedy key ws with
  | case1 ws hnone => exact h
  | case2 ws p hpick ih => exact ih (step _ _ _ (pick_eq_some.1 hpick) h)

end

end GreedyMerge
end RocmFpx
