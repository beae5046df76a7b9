import Mathlib.Data.List.Basic
import Mathlib.Data.Nat.Find

/-!
`naive_trie`: the children of a node by byte, with a value where a key ends.
-/

namespace RocmFpx

inductive NaiveTrie (α : Type) where
  | node (value : Option α) (children : UInt8 → Option (NaiveTrie α))

namespace NaiveTrie

variable {α : Type}

def empty : NaiveTrie α := node none fun _ => none

def value : NaiveTrie α → Option α
  | node value _ => value

def traverse : NaiveTrie α → UInt8 → Option (NaiveTrie α)
  | node _ children => children

def insert : List UInt8 → α → NaiveTrie α → NaiveTrie α
  | [], v, node _ children => node (some v) children
  | c :: key, v, node value children =>
    node value (Function.update children c (some (insert key v ((children c).getD empty))))

/-- The value at the end of a walk along a key. -/
def find : List UInt8 → NaiveTrie α → Option α
  | [], t => t.value
  | c :: key, t => (t.traverse c).bind (find key)

theorem find_empty (key : List UInt8) : find key (empty : NaiveTrie α) = none := by
  cases key <;> rfl

theorem find_insert (key key' : List UInt8) (v : α) (t : NaiveTrie α) :
    find key' (insert key v t) = if key' = key then some v else find key' t := by
  induction key generalizing key' t with
  | nil =>
    obtain ⟨value, children⟩ := t
    cases key' <;> rfl
  | cons c key ih =>
    obtain ⟨value, children⟩ := t
    cases key' with
    | nil => rfl
    | cons d key' =>
      rw [insert, find, traverse]
      by_cases hd : d = c
      · obtain rfl := hd
        rw [Function.update_self, Option.bind_some, ih]
        by_cases hk : key' = key
        · rw [if_pos hk, if_pos (by rw [hk])]
        · rw [if_neg hk, if_neg fun h => hk (List.cons.inj h).2, find, traverse]
          cases children d with
          | none => exact find_empty key'
          | some child => rfl
      · rw [Function.update_of_ne hd, if_neg fun h => hd (List.cons.inj h).1]
        rfl

/-! ## Walks -/

/-- The node at the end of a walk along a key. -/
def descend : List UInt8 → NaiveTrie α → Option (NaiveTrie α)
  | [], t => some t
  | c :: key, t => (t.traverse c).bind (descend key)

theorem find_eq (key : List UInt8) (t : NaiveTrie α) : find key t = (descend key t).bind value := by
  induction key generalizing t with
  | nil => rfl
  | cons c key ih =>
    rw [find, descend]
    cases t.traverse c with
    | none => rfl
    | some child => exact ih child

theorem descend_append (p q : List UInt8) (t : NaiveTrie α) :
    descend (p ++ q) t = (descend p t).bind (descend q) := by
  induction p generalizing t with
  | nil => rfl
  | cons c p ih =>
    rw [List.cons_append, descend, descend]
    cases t.traverse c with
    | none => rfl
    | some child => exact ih child

theorem descend_singleton (c : UInt8) (t : NaiveTrie α) : descend [c] t = t.traverse c :=
  Option.bind_fun_some (t.traverse c)

theorem descend_none_of_prefix {p q : List UInt8} {t : NaiveTrie α} (hpq : p <+: q)
    (h : descend p t = none) : descend q t = none := by
  obtain ⟨r, rfl⟩ := hpq
  rw [descend_append, h, Option.bind_none]

theorem find_none_of_descend {p q : List UInt8} {t : NaiveTrie α} (hpq : p <+: q)
    (h : descend p t = none) : find q t = none := by
  rw [find_eq, descend_none_of_prefix hpq h, Option.bind_none]

theorem isSome_descend_insert (p key : List UInt8) (v : α) (t : NaiveTrie α) :
    (descend p (insert key v t)).isSome ↔ p <+: key ∨ (descend p t).isSome := by
  induction p generalizing key t with
  | nil => exact iff_of_true rfl (.inl List.nil_prefix)
  | cons c p ih =>
    obtain ⟨value, children⟩ := t
    cases key with
    | nil =>
      rw [insert, List.prefix_nil]
      exact (or_iff_right (List.cons_ne_nil c p)).symm
    | cons d key =>
      rw [insert, List.cons_prefix_cons, descend, descend, traverse, traverse]
      by_cases hc : c = d
      · obtain rfl := hc
        rw [Function.update_self, Option.bind_some, ih, and_iff_right rfl]
        cases children c with
        | some child => rfl
        | none =>
          -- below a new node there is nothing but the key
          cases p with
          | nil => exact iff_of_true (.inl List.nil_prefix) (.inl List.nil_prefix)
          | cons e p => rfl
      · rw [Function.update_of_ne hc]
        exact (or_iff_right fun h => hc h.1).symm

/-- The trie of a list of keys with their values, the later ones replacing the earlier. -/
def insertAll (entries : List (List UInt8 × α)) (t : NaiveTrie α) : NaiveTrie α :=
  entries.foldl (fun t e => t.insert e.1 e.2) t

section

variable {entries : List (List UInt8 × α)} {key p : List UInt8} {t : NaiveTrie α} {v : α}

theorem isSome_descend_insertAll :
    (descend p (insertAll entries t)).isSome ↔ (∃ e ∈ entries, p <+: e.1) ∨ (descend p t).isSome := by
  induction entries generalizing t with
  | nil => exact (or_iff_right fun ⟨_, he, _⟩ => List.not_mem_nil he).symm
  | cons e entries ih =>
    rw [insertAll, List.foldl_cons, ← insertAll, ih, isSome_descend_insert, List.exists_mem_cons_iff,
      or_assoc, or_left_comm]

theorem mem_of_find_insertAll (h : find key (insertAll entries t) = some v) :
    (key, v) ∈ entries ∨ find key t = some v := by
  induction entries generalizing t with
  | nil => exact .inr h
  | cons e entries ih =>
    rcases ih h with hmem | hfind
    · exact .inl (List.mem_cons_of_mem e hmem)
    · rw [find_insert] at hfind
      split_ifs at hfind with hkey
      · obtain rfl := hkey
        rw [← Option.some.inj hfind]
        exact .inl List.mem_cons_self
      · exact .inr hfind

theorem isSome_find_insertAll :
    (find key (insertAll entries t)).isSome ↔ (∃ e ∈ entries, e.1 = key) ∨ (find key t).isSome := by
  induction entries generalizing t with
  | nil => exact (or_iff_right fun ⟨_, he, _⟩ => List.not_mem_nil he).symm
  | cons e entries ih =>
    rw [insertAll, List.foldl_cons, ← insertAll, ih, List.exists_mem_cons_iff, find_insert, or_assoc,
      or_left_comm]
    split_ifs with hkey
    · exact or_congr_right (iff_of_true rfl (.inl hkey.symm))
    · exact or_congr_right (or_iff_right (Ne.symm hkey)).symm

end

theorem descend_empty {p : List UInt8} (hne : p ≠ []) : descend p (empty : NaiveTrie α) = none := by
  cases p with
  | nil => exact absurd rfl hne
  | cons c p => rfl

/-! ## The longest path -/

/-- `get_longest_prefix` behind an offset: the length of the longest walk that the text begins. -/
def getLongestPrefix : List UInt8 → ℕ → NaiveTrie α → ℕ
  | [], offset, _ => offset
  | c :: key, offset, t =>
    match t.traverse c with
    | some child => getLongestPrefix key (offset + 1) child
    | none => offset

theorem getLongestPrefix_spec (key : List UInt8) (offset : ℕ) (t : NaiveTrie α) :
    ∃ p r, key = p ++ r ∧ getLongestPrefix key offset t = offset + p.length ∧
      (descend p t).isSome ∧ ∀ c ∈ r.head?, descend (p ++ [c]) t = none := by
  induction key generalizing offset t with
  | nil => exact ⟨[], [], rfl, rfl, rfl, nofun⟩
  | cons c key ih =>
    rw [getLongestPrefix]
    cases hchild : t.traverse c with
    | none =>
      refine ⟨[], c :: key, rfl, rfl, rfl, fun d hd => ?_⟩
      obtain rfl := Option.some.inj hd
      rw [List.nil_append, descend_singleton, hchild]
    | some child =>
      obtain ⟨p, r, rfl, hlen, hwalk, hend⟩ := ih (offset + 1) child
      refine ⟨c :: p, r, rfl, ?_, ?_, fun d hd => ?_⟩
      · dsimp only
        rw [hlen, List.length_cons, Nat.add_right_comm, Nat.add_assoc]
      · rw [descend, hchild]
        exact hwalk
      · rw [List.cons_append, descend, hchild]
        exact hend d hd

/-! ## The longest key -/

/-- A key that is not empty is a prefix of the bytes. -/
structure Begins (keys : List (List UInt8)) (rest key : List UInt8) : Prop where
  ne_nil : key ≠ []
  mem : key ∈ keys
  isPrefix : key <+: rest

structure LongestKey (keys : List (List UInt8)) (rest key : List UInt8) : Prop
    extends Begins keys rest key where
  longest : ∀ key', Begins keys rest key' → key'.length ≤ key.length

section

variable {keys : List (List UInt8)} {rest key key' : List UInt8}

theorem LongestKey.eq (h : LongestKey keys rest key) (h' : LongestKey keys rest key') : key = key' := by
  have hlen := Nat.le_antisymm (h'.longest key h.toBegins) (h.longest key' h'.toBegins)
  rw [List.prefix_iff_eq_take.mp h.isPrefix, List.prefix_iff_eq_take.mp h'.isPrefix, hlen]

theorem exists_longestKey (h : Begins keys rest key) : ∃ key, LongestKey keys rest key := by
  classical
  have hfind : ∃ key, Begins keys rest key ∧
      key.length = Nat.findGreatest (fun n => ∃ key, Begins keys rest key ∧ key.length = n)
        rest.length :=
    Nat.findGreatest_spec (P := fun n => ∃ key, Begins keys rest key ∧ key.length = n)
      h.isPrefix.length_le ⟨key, h, rfl⟩
  obtain ⟨key, hkey, hlen⟩ := hfind
  refine ⟨key, hkey, fun key' hkey' => ?_⟩
  rw [hlen]
  exact Nat.le_findGreatest hkey'.isPrefix.length_le ⟨key', hkey', rfl⟩

end

end NaiveTrie
end RocmFpx
