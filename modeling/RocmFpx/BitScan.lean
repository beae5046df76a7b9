import Mathlib.Data.List.Sort
import Mathlib.Tactic

/-!
Enumerating the set bits of a word from the lowest one up, by clearing it in each round,
and a list of words as a set of numbers.
-/

namespace RocmFpx.BitScan

variable {w : ℕ}

/-- The loop `while (x) { visit(ctz(x)); x &= x - 1; }`. -/
def setBits : ℕ → BitVec w → List ℕ
  | 0, _ => []
  | fuel + 1, x => if x = 0 then [] else x.ctz.toNat :: setBits fuel (x &&& (x - 1))

theorem toNat_sub_one {x : BitVec w} (hx : x ≠ 0) : (x - 1).toNat = x.toNat - 1 := by
  have hpos : 0 < x.toNat :=
    Nat.pos_of_ne_zero fun h => hx (BitVec.eq_of_toNat_eq (by simpa using h))
  have hlt := x.isLt
  have hw : 1 < 2 ^ w := by omega
  have hone : (1 : BitVec w).toNat = 1 := by
    rw [BitVec.ofNat_eq_ofNat, BitVec.toNat_ofNat, Nat.mod_eq_of_lt hw]
  rw [BitVec.toNat_sub, hone]
  have hsum : 2 ^ w - 1 + x.toNat = x.toNat - 1 + 2 ^ w := by omega
  rw [hsum, Nat.add_mod_right, Nat.mod_eq_of_lt (by omega)]

theorem getLsbD_clear {x : BitVec w} (hx : x ≠ 0) (i : ℕ) :
    (x &&& (x - 1)).getLsbD i = (x.getLsbD i && decide (i ≠ x.ctz.toNat)) := by
  have hlow : x.toNat % 2 ^ (x.ctz.toNat + 1) = 2 ^ x.ctz.toNat := by
    refine Nat.eq_of_testBit_eq fun j => ?_
    rw [Nat.testBit_mod_two_pow, Nat.testBit_two_pow]
    rcases lt_trichotomy j x.ctz.toNat with hlt | rfl | hgt
    · have hzero : x.toNat.testBit j = false := BitVec.getLsbD_false_of_lt_ctz hlt
      simp [hzero, hlt.ne']
    · have hone : x.toNat.testBit x.ctz.toNat = true := BitVec.getLsbD_true_ctz_of_ne_zero hx
      simp [hone]
    · have hout : ¬ j < x.ctz.toNat + 1 := by omega
      simp [hout, hgt.ne]
  have hsplit := Nat.div_add_mod x.toNat (2 ^ (x.ctz.toNat + 1))
  rw [hlow] at hsplit
  have hpow : 2 ^ x.ctz.toNat < 2 ^ (x.ctz.toNat + 1) := Nat.pow_lt_pow_right (by decide) (by omega)
  have hpos : 0 < 2 ^ x.ctz.toNat := by positivity
  have hpred : (x - 1).toNat = 2 ^ (x.ctz.toNat + 1) * (x.toNat / 2 ^ (x.ctz.toNat + 1)) +
      (2 ^ x.ctz.toNat - 1) := by
    rw [toNat_sub_one hx]
    omega
  have hx' : x.getLsbD i = (2 ^ (x.ctz.toNat + 1) * (x.toNat / 2 ^ (x.ctz.toNat + 1)) +
      2 ^ x.ctz.toNat).testBit i := by
    rw [hsplit]
    rfl
  rw [BitVec.getLsbD_and, hx', BitVec.getLsbD, hpred, Nat.testBit_two_pow_mul_add _ hpow,
    Nat.testBit_two_pow_mul_add _ (by omega : 2 ^ x.ctz.toNat - 1 < 2 ^ (x.ctz.toNat + 1)),
    Nat.testBit_two_pow, Nat.testBit_two_pow_sub_one]
  split_ifs with hi
  · rcases Nat.lt_or_ge i x.ctz.toNat with hlt | hge
    · simp [hlt.ne']
    · simp [(by omega : i = x.ctz.toNat)]
  · have hne : i ≠ x.ctz.toNat := by omega
    rw [decide_eq_true hne, Bool.and_true, Bool.and_self]

theorem setBits_spec (fuel : ℕ) {x : BitVec w} (low : ℕ)
    (hlow : ∀ i < low, x.getLsbD i = false) (hfuel : w ≤ low + fuel) :
    (∀ i, i ∈ setBits fuel x ↔ x.getLsbD i = true) ∧ (setBits fuel x).Pairwise (· < ·) := by
  induction fuel generalizing x low with
  | zero =>
    have hnone : ∀ i, x.getLsbD i = false := fun i => by
      rcases Nat.lt_or_ge i low with hlt | hge
      · exact hlow i hlt
      · exact BitVec.getLsbD_of_ge x i (by omega)
    exact ⟨fun i => by simp [setBits, hnone i], List.Pairwise.nil⟩
  | succ fuel ih =>
    rw [setBits]
    split_ifs with hzero
    · exact ⟨fun i => by simp [hzero], List.Pairwise.nil⟩
    · have hbit := BitVec.getLsbD_true_ctz_of_ne_zero hzero
      have hge : low ≤ x.ctz.toNat := by
        by_contra hlt
        rw [hlow _ (not_le.mp hlt)] at hbit
        exact Bool.false_ne_true hbit
      have hrest : ∀ i < x.ctz.toNat + 1, (x &&& (x - 1)).getLsbD i = false := by
        intro i hi
        rw [getLsbD_clear hzero]
        rcases Nat.lt_or_ge i x.ctz.toNat with hlt | hge
        · rw [BitVec.getLsbD_false_of_lt_ctz hlt, Bool.false_and]
        · rw [decide_eq_false (by omega), Bool.and_false]
      obtain ⟨hmem, hsorted⟩ := ih _ hrest (by omega)
      refine ⟨fun i => ?_, List.pairwise_cons.mpr ⟨fun i hi => ?_, hsorted⟩⟩
      · rw [List.mem_cons, hmem, getLsbD_clear hzero]
        by_cases hi : i = x.ctz.toNat
        · simp [hi, hbit]
        · simp [hi]
      · rw [hmem] at hi
        by_contra hle
        rw [hrest i (by omega)] at hi
        exact Bool.false_ne_true hi

theorem setBits_eq_filter (x : BitVec w) :
    setBits w x = (List.range w).filter fun i => x.getLsbD i := by
  obtain ⟨hmem, hsorted⟩ := setBits_spec w (x := x) 0 (by simp) (by simp)
  have hrange : ((List.range w).filter fun i => x.getLsbD i).Pairwise (· < ·) :=
    List.pairwise_lt_range.filter _
  refine hsorted.eq_of_mem_iff hrange fun i => ?_
  rw [hmem, List.mem_filter, List.mem_range]
  refine ⟨fun h => ⟨?_, h⟩, And.right⟩
  by_contra hge
  rw [BitVec.getLsbD_of_ge x i (not_lt.mp hge)] at h
  exact Bool.false_ne_true h

/-! ## A bitmap -/

/-- Bit `local` of a list of words. -/
def bitAt (words : List (BitVec w)) (i : ℕ) : Bool := (words.getD (i / w) 0).getLsbD (i % w)

/-- `words[i / w] |= 1 << (i % w)`. -/
def mark (words : List (BitVec w)) (i : ℕ) : List (BitVec w) :=
  words.set (i / w) (words.getD (i / w) 0 ||| (1 : BitVec w) <<< (i % w))

def enumerate (words : List (BitVec w)) : List ℕ :=
  (List.range words.length).flatMap fun word =>
    (setBits w (words.getD word 0)).map fun bit => word * w + bit

@[simp] theorem mark_length (words : List (BitVec w)) (i : ℕ) :
    (mark words i).length = words.length := by
  simp [mark]

theorem bitAt_mark (hw : 0 < w) {words : List (BitVec w)} {i : ℕ} (hi : i / w < words.length)
    (j : ℕ) : bitAt (mark words i) j = (bitAt words j || decide (j = i)) := by
  have hj : j % w < w := Nat.mod_lt j hw
  have hbit : ((1 : BitVec w) <<< (i % w)).getLsbD (j % w) = decide (j % w = i % w) := by
    have hone : (1 : BitVec w) <<< (i % w) = BitVec.twoPow w (i % w) := by
      rw [BitVec.twoPow]
      rfl
    rw [hone, BitVec.getLsbD_twoPow]
    have hiw : i % w < w := Nat.mod_lt i hw
    simp [hiw, eq_comm]
  unfold bitAt mark
  by_cases hword : j / w = i / w
  · have hsame : (j = i) ↔ j % w = i % w := by
      refine ⟨fun h => by rw [h], fun h => ?_⟩
      rw [← Nat.div_add_mod j w, ← Nat.div_add_mod i w, hword, h]
    rw [hword, List.getD_eq_getElem?_getD, List.getElem?_set_self hi, Option.getD_some,
      BitVec.getLsbD_or, hbit, decide_eq_decide.mpr hsame]
  · have hne : j ≠ i := fun h => hword (by rw [h])
    rw [List.getD_eq_getElem?_getD, List.getElem?_set_ne (Ne.symm hword), decide_eq_false hne,
      Bool.or_false, ← List.getD_eq_getElem?_getD]

theorem foldl_mark_length (is : List ℕ) (words : List (BitVec w)) :
    (is.foldl mark words).length = words.length := by
  induction is generalizing words with
  | nil => rfl
  | cons i is ih => exact (ih _).trans (mark_length words i)

theorem bitAt_foldl_mark (hw : 0 < w) (is : List ℕ) {words : List (BitVec w)}
    (his : ∀ i ∈ is, i / w < words.length) (j : ℕ) :
    bitAt (is.foldl mark words) j = (bitAt words j || decide (j ∈ is)) := by
  induction is generalizing words with
  | nil => simp
  | cons i is ih =>
    rw [List.foldl_cons, ih fun k hk => by
      rw [mark_length]
      exact his k (List.mem_cons_of_mem i hk)]
    rw [bitAt_mark hw (his i List.mem_cons_self), Bool.or_assoc]
    simp [List.mem_cons]

theorem bitAt_replicate (n j : ℕ) : bitAt (List.replicate n (0 : BitVec w)) j = false := by
  have hword : (List.replicate n (0 : BitVec w)).getD (j / w) 0 = 0 := by
    rw [List.getD_eq_getElem?_getD, List.getElem?_replicate]
    split_ifs <;> rfl
  rw [bitAt, hword]
  exact BitVec.getLsbD_zero

theorem enumerate_eq (words : List (BitVec w)) :
    enumerate words = (List.range (words.length * w)).filter fun i => bitAt words i := by
  have hwords : ∀ n, ((List.range n).flatMap fun word =>
      (setBits w (words.getD word 0)).map fun bit => word * w + bit) =
        (List.range (n * w)).filter fun i => bitAt words i := by
    intro n
    induction n with
    | zero => simp
    | succ n ih =>
      rw [List.range_succ, List.flatMap_append, ih, Nat.succ_mul, List.range_add,
        List.filter_append, List.filter_map, List.flatMap_singleton, setBits_eq_filter]
      congr 2
      refine List.filter_congr fun bit hbit => ?_
      have hlt := List.mem_range.mp hbit
      have hpos : 0 < w := by omega
      have hdiv : (n * w + bit) / w = n := by
        rw [mul_comm, Nat.mul_add_div hpos, Nat.div_eq_of_lt hlt, add_zero]
      have hmod : (n * w + bit) % w = bit := by
        rw [mul_comm, Nat.mul_add_mod, Nat.mod_eq_of_lt hlt]
      simp only [Function.comp_apply, bitAt, hdiv, hmod]
  exact hwords words.length

end RocmFpx.BitScan
