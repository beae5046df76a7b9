import Mathlib.Data.List.Perm.Basic
import Mathlib.Order.Lattice

/-!
A priority queue, by what it holds. What comes out is below nothing that it held; which of several
such elements it is, the queue decides.
-/

namespace RocmFpx

structure PriorityQueue (E : Type) (less : E → E → Bool) where
  Carrier : Type
  elems : Carrier → List E
  empty : Carrier
  push : Carrier → E → Carrier
  pop : Carrier → Option (E × Carrier)
  elems_empty : elems empty = []
  elems_push (q : Carrier) (e : E) : (elems (push q e)).Perm (e :: elems q)
  elems_of_pop_none {q : Carrier} : pop q = none → elems q = []
  elems_of_pop {q rest : Carrier} {e : E} : pop q = some (e, rest) →
    (elems q).Perm (e :: elems rest)
  not_less_of_pop {q rest : Carrier} {e x : E} : pop q = some (e, rest) → x ∈ elems q →
    less e x = false

namespace PriorityQueue

variable {E : Type} {less : E → E → Bool}

theorem mem_push (pq : PriorityQueue E less) {q : pq.Carrier} {e x : E} :
    x ∈ pq.elems (pq.push q e) ↔ x = e ∨ x ∈ pq.elems q := by
  rw [(pq.elems_push q e).mem_iff, List.mem_cons]

theorem length_push (pq : PriorityQueue E less) (q : pq.Carrier) (e : E) :
    (pq.elems (pq.push q e)).length = (pq.elems q).length + 1 :=
  (pq.elems_push q e).length_eq

/-! ## A list as a queue -/

/-- The first of the greatest elements, and the others. -/
def takeMax (less : E → E → Bool) : List E → Option (E × List E)
  | [] => none
  | e :: l =>
    match takeMax less l with
    | none => some (e, [])
    | some (m, rest) => if less e m then some (m, e :: rest) else some (e, m :: rest)

theorem takeMax_none {l : List E} (h : takeMax less l = none) : l = [] := by
  cases l with
  | nil => rfl
  | cons e l =>
    rw [takeMax] at h
    cases hm : takeMax less l with
    | none =>
      rw [hm] at h
      cases h
    | some p =>
      rw [hm] at h
      dsimp only at h
      split_ifs at h

theorem takeMax_perm {l rest : List E} {e : E} (h : takeMax less l = some (e, rest)) :
    l.Perm (e :: rest) := by
  induction l generalizing e rest with
  | nil => cases h
  | cons x l ih =>
    rw [takeMax] at h
    cases hm : takeMax less l with
    | none =>
      rw [hm] at h
      obtain ⟨rfl, rfl⟩ := Prod.mk.inj (Option.some.inj h)
      rw [takeMax_none hm]
    | some p =>
      obtain ⟨m, rest'⟩ := p
      have hperm := ih hm
      rw [hm] at h
      dsimp only at h
      split_ifs at h
      · obtain ⟨rfl, rfl⟩ := Prod.mk.inj (Option.some.inj h)
        exact (hperm.cons x).trans (List.Perm.swap m x rest')
      · obtain ⟨rfl, rfl⟩ := Prod.mk.inj (Option.some.inj h)
        exact hperm.cons x

section
variable {P : Type} [LinearOrder P] {prio : E → P}

theorem takeMax_le (hless : ∀ x y, less x y = true ↔ prio x < prio y) {l rest : List E} {e x : E}
    (h : takeMax less l = some (e, rest)) (hx : x ∈ l) : prio x ≤ prio e := by
  induction l generalizing e rest x with
  | nil => cases hx
  | cons y l ih =>
    rw [takeMax] at h
    cases hm : takeMax less l with
    | none =>
      rw [hm] at h
      obtain ⟨rfl, rfl⟩ := Prod.mk.inj (Option.some.inj h)
      rw [takeMax_none hm, List.mem_singleton] at hx
      exact (congrArg prio hx).le
    | some p =>
      obtain ⟨m, rest'⟩ := p
      rw [hm] at h
      dsimp only at h
      by_cases hlt : less y m = true
      · rw [if_pos hlt] at h
        obtain ⟨rfl, rfl⟩ := Prod.mk.inj (Option.some.inj h)
        obtain rfl | hx := List.mem_cons.mp hx
        · exact ((hless _ _).mp hlt).le
        · exact ih hm hx
      · rw [if_neg hlt] at h
        obtain ⟨rfl, rfl⟩ := Prod.mk.inj (Option.some.inj h)
        obtain rfl | hx := List.mem_cons.mp hx
        · exact le_rfl
        · exact (ih hm hx).trans (not_lt.mp (mt (hless _ _).mpr hlt))

/-- The list queue of an order that compares priorities. -/
def ofList (less : E → E → Bool) (prio : E → P)
    (hless : ∀ x y, less x y = true ↔ prio x < prio y) : PriorityQueue E less where
  Carrier := List E
  elems q := q
  empty := []
  push q e := e :: q
  pop := takeMax less
  elems_empty := rfl
  elems_push _ _ := List.Perm.refl _
  elems_of_pop_none := takeMax_none
  elems_of_pop := takeMax_perm
  not_less_of_pop h hx := by
    rw [Bool.eq_false_iff, ne_eq, hless]
    exact (takeMax_le hless h hx).not_gt

end

end PriorityQueue
end RocmFpx
