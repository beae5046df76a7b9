import Mathlib.Data.List.Infix
import RocmFpx.TextTokenizer

/-!
Escaping spaces and back. What is searched for is the encoding of a code point, and it is found in
an encoded text only where the text has that code point.
-/

namespace RocmFpx
namespace MergeTokenizer

open Unicode

/-- A text of code points. -/
def encoded (cpts : List ℕ) : List UInt8 := cpts.flatMap utf8Bytes

@[simp]
theorem encoded_nil : encoded [] = [] := rfl

theorem encoded_cons (c : ℕ) (cpts : List ℕ) : encoded (c :: cpts) = utf8Bytes c ++ encoded cpts :=
  List.flatMap_cons

theorem encoded_append (g h : List ℕ) : encoded (g ++ h) = encoded g ++ encoded h :=
  List.flatMap_append

theorem encoded_ne_nil {cpts : List ℕ} (h : cpts ≠ []) : encoded cpts ≠ [] := by
  obtain ⟨c, cpts, rfl⟩ := List.exists_cons_of_ne_nil h
  rw [encoded_cons]
  exact List.append_ne_nil_of_left_ne_nil (utf8Bytes_ne_nil c) _

theorem utf8Bytes_eq_cons {c : ℕ} (h : c ≤ maxCpt) : ∃ b s, utf8Bytes c = b :: s ∧
    isContinuation b = false ∧ ∀ x ∈ s, isContinuation x = true := by
  have hdiv : ∀ n, isContinuation (.ofNat (0x80 + n % 64)) := fun n =>
    Unicode.isContinuation_ofNat (Nat.mod_lt n (by decide))
  have hfirst : ∀ n, n < 256 → n / 64 ≠ 2 → isContinuation (.ofNat n) = false := by
    intro n hn hne
    rw [isContinuation, UInt8.toNat_ofNat', Nat.mod_eq_of_lt hn]
    exact beq_eq_false_iff_ne.mpr hne
  rw [maxCpt] at h
  rw [utf8Bytes]
  split_ifs
  · exact ⟨_, [], rfl, hfirst _ (by omega) (by omega), fun _ hx => by cases hx⟩
  · refine ⟨_, _, rfl, hfirst _ (by omega) (by omega), ?_⟩
    simp only [List.mem_singleton, forall_eq, hdiv]
  · refine ⟨_, _, rfl, hfirst _ (by omega) (by omega), ?_⟩
    simp only [List.mem_cons, List.not_mem_nil, or_false, forall_eq_or_imp, forall_eq, hdiv, and_self]
  · refine ⟨_, _, rfl, hfirst _ (by omega) (by omega), ?_⟩
    simp only [List.mem_cons, List.not_mem_nil, or_false, forall_eq_or_imp, forall_eq, hdiv, and_self]

theorem utf8Bytes_isPrefixOf {c d : ℕ} (hc : c ≤ maxCpt) (hd : d ≤ maxCpt) (rest : List UInt8) :
    (utf8Bytes d).isPrefixOf (utf8Bytes c ++ rest) = true ↔ c = d := by
  rw [List.isPrefixOf_iff_prefix]
  constructor
  · rintro ⟨t, ht⟩
    have hdec := cptFromUtf8_utf8Bytes hd t
    rw [ht, cptFromUtf8_utf8Bytes hc] at hdec
    exact (Prod.mk.inj (Option.some.inj hdec)).1
  · rintro rfl
    exact List.prefix_append _ _

section
variable {d : ℕ} {replace : List UInt8}

theorem replaceFrom_continuation (hd : d ≤ maxCpt) {t : List UInt8}
    (ht : ∀ b ∈ t, isContinuation b = true) (rest : List UInt8) (n : ℕ) :
    replaceFrom (utf8Bytes d) replace (t.length + n) (t ++ rest) =
      t ++ replaceFrom (utf8Bytes d) replace n rest := by
  induction t with
  | nil => rw [List.length_nil, Nat.zero_add, List.nil_append, List.nil_append]
  | cons b t ih =>
    obtain ⟨hb, ht⟩ := List.forall_mem_cons.mp ht
    obtain ⟨a, s, ha, hcont, -⟩ := utf8Bytes_eq_cons hd
    have hno : (utf8Bytes d).isPrefixOf (b :: (t ++ rest)) = false := by
      rw [ha, List.isPrefixOf, beq_eq_false_iff_ne.mpr, Bool.false_and]
      rintro rfl
      rw [hcont] at hb
      cases hb
    rw [List.length_cons, Nat.add_right_comm, List.cons_append, replaceFrom, hno,
      if_neg Bool.false_ne_true, ih ht, List.cons_append]

theorem replaceFrom_encoded (hd : d ≤ maxCpt) {cpts : List ℕ} (h : ∀ c ∈ cpts, c ≤ maxCpt) {n : ℕ}
    (hn : (encoded cpts).length ≤ n) : replaceFrom (utf8Bytes d) replace n (encoded cpts) =
      cpts.flatMap fun c => if c = d then replace else utf8Bytes c := by
  induction cpts generalizing n with
  | nil => cases n <;> rfl
  | cons c cpts ih =>
    obtain ⟨hc, h⟩ := List.forall_mem_cons.mp h
    obtain ⟨b, s, hb, -, hs⟩ := utf8Bytes_eq_cons hc
    have hfront := utf8Bytes_isPrefixOf hc hd (encoded cpts)
    rw [encoded_cons, List.length_append, hb, List.length_cons] at hn
    obtain ⟨n, rfl⟩ : ∃ m, n = s.length + m + 1 := ⟨n - s.length - 1, by omega⟩
    rw [encoded_cons, List.flatMap_cons]
    by_cases hcd : c = d
    · have hyes := hfront.mpr hcd
      rw [if_pos hcd, ← ih h (by omega : (encoded cpts).length ≤ s.length + n)]
      rw [hb, List.cons_append] at hyes ⊢
      rw [replaceFrom, if_pos hyes, ← hcd, hb, ← List.cons_append, List.drop_left']
      rfl
    · have hno := mt hfront.mp hcd
      rw [if_neg hcd, ← ih h (by omega : (encoded cpts).length ≤ n)]
      rw [hb, List.cons_append] at hno ⊢
      rw [replaceFrom, if_neg hno, replaceFrom_continuation hd hs, List.cons_append]

end

theorem replaceAll_encoded {d e : ℕ} (hd : d ≤ maxCpt) {cpts : List ℕ}
    (h : ∀ c ∈ cpts, c ≤ maxCpt) : replaceAll (encoded cpts) (utf8Bytes d) (utf8Bytes e) =
      encoded (cpts.map fun c => if c = d then e else c) := by
  have hne : (utf8Bytes d).isEmpty = false := by simpa using utf8Bytes_ne_nil d
  rw [replaceAll, hne, if_neg Bool.false_ne_true, replaceFrom_encoded hd h le_rfl, encoded,
    List.flatMap_map]
  refine List.flatMap_congr fun c _ => ?_
  split_ifs <;> rfl

def escapeCpt (c : ℕ) : ℕ := if c = 0x20 then 0x2581 else c

def unescapeCpt (c : ℕ) : ℕ := if c = 0x2581 then 0x20 else c

theorem llamaEscapeWhitespace_encoded {cpts : List ℕ} (h : ∀ c ∈ cpts, c ≤ maxCpt) :
    llamaEscapeWhitespace (encoded cpts) = encoded (cpts.map escapeCpt) :=
  replaceAll_encoded (d := 0x20) (e := 0x2581) (by decide) h

theorem llamaUnescapeWhitespace_encoded {cpts : List ℕ} (h : ∀ c ∈ cpts, c ≤ maxCpt) :
    llamaUnescapeWhitespace (encoded cpts) = encoded (cpts.map unescapeCpt) :=
  replaceAll_encoded (d := 0x2581) (e := 0x20) (by decide) h

theorem unescapeCpt_escapeCpt {c : ℕ} (h : c ≠ 0x2581) : unescapeCpt (escapeCpt c) = c := by
  rw [unescapeCpt, escapeCpt]
  by_cases hc : c = 0x20
  · rw [if_pos hc, if_pos rfl, hc]
  · rw [if_neg hc, if_neg h]

theorem escapeCpt_le {c : ℕ} (h : c ≤ maxCpt) : escapeCpt c ≤ maxCpt := by
  rw [escapeCpt]
  split_ifs
  · decide
  · exact h

end MergeTokenizer
end RocmFpx
