import Mathlib.Data.Finset.Card
import Mathlib.Data.Fintype.EquivFin
import Mathlib.Tactic

/-!
A table of cells, the sequences that each cell lists, and a pointer back from each sequence to
its cell (`-1` for none). Operations that keep the two sides of the table in step.
-/

namespace RocmFpx

/-- The sequences that point to cell `c`. -/
def owners (size : ℕ) (tail : ℕ → ℤ) (c : ℕ) : Finset ℕ :=
  (Finset.range size).filter fun q => tail q = c

theorem mem_owners {size : ℕ} {tail : ℕ → ℤ} {c q : ℕ} :
    q ∈ owners size tail c ↔ q < size ∧ tail q = c := by
  rw [owners, Finset.mem_filter, Finset.mem_range]

/-- One sequence moves to cell `e`. -/
theorem owners_move {size : ℕ} {tail tail' : ℕ → ℤ} {q e : ℕ} (hq : q < size)
    (htail : ∀ r, tail' r = if r = q then (e : ℤ) else tail r) (c : ℕ) :
    owners size tail' c =
      if c = e then insert q (owners size tail e) else (owners size tail c).erase q := by
  ext r
  rw [mem_owners, htail]
  by_cases hrq : r = q
  · subst hrq
    rw [if_pos rfl]
    split_ifs with hce
    · exact iff_of_true ⟨hq, by rw [hce]⟩ (Finset.mem_insert_self ..)
    · exact iff_of_false (fun h => hce (Int.ofNat_inj.mp h.2).symm) (Finset.notMem_erase r _)
  · rw [if_neg hrq]
    split_ifs with hce
    · rw [Finset.mem_insert, mem_owners, hce]
      exact (or_iff_right hrq).symm
    · rw [Finset.mem_erase, mem_owners]
      exact (and_iff_right hrq).symm

/-- Each cell lists its owners, and each pointer names a cell or nothing. -/
structure Owned (size : ℕ) (ids : ℕ → Finset ℕ) (tail : ℕ → ℤ) : Prop where
  ids_eq : ∀ c < size, ids c = owners size tail c
  tail_range : ∀ q < size, tail q = -1 ∨ ∃ c < size, tail q = (c : ℤ)

namespace Owned

variable {size : ℕ} {ids ids' : ℕ → Finset ℕ} {tail tail' : ℕ → ℤ}

theorem mem_iff (h : Owned size ids tail) {c q : ℕ} (hc : c < size) :
    q ∈ ids c ↔ q < size ∧ tail q = c := by
  rw [h.ids_eq c hc, mem_owners]

theorem congr (h : Owned size ids tail) (hids : ∀ c < size, ids' c = ids c)
    (htail : ∀ q < size, tail' q = tail q) : Owned size ids' tail' where
  ids_eq c hc := by
    ext q
    rw [hids c hc, h.mem_iff hc, mem_owners]
    exact and_congr_right fun hq => by rw [htail q hq]
  tail_range q hq := by
    rw [htail q hq]
    exact h.tail_range q hq

/-- A sequence leaves its cell. -/
theorem detach (h : Owned size ids tail) {q : ℕ} (hids : ∀ c < size, ids' c = (ids c).erase q)
    (htail : ∀ r < size, tail' r = if r = q then -1 else tail r) : Owned size ids' tail' where
  ids_eq c hc := by
    ext r
    rw [hids c hc, Finset.mem_erase, h.mem_iff hc, mem_owners]
    constructor
    · rintro ⟨hne, hr, heq⟩
      exact ⟨hr, by rw [htail r hr, if_neg hne, heq]⟩
    · rintro ⟨hr, heq⟩
      rw [htail r hr] at heq
      by_cases hne : r = q
      · rw [if_pos hne] at heq
        omega
      · rw [if_neg hne] at heq
        exact ⟨hne, hr, heq⟩
  tail_range r hr := by
    rw [htail r hr]
    split_ifs
    · exact .inl rfl
    · exact h.tail_range r hr

theorem attach (h : Owned size ids tail) {q e : ℕ} (hq : q < size) (he : e < size)
    (hfree : tail q = -1) (hids : ∀ c < size, ids' c = if c = e then insert q (ids c) else ids c)
    (htail : ∀ r < size, tail' r = if r = q then (e : ℤ) else tail r) :
    Owned size ids' tail' where
  ids_eq c hc := by
    ext r
    rw [hids c hc, mem_owners]
    have hmem : r ∈ (if c = e then insert q (ids c) else ids c) ↔
        c = e ∧ r = q ∨ r < size ∧ tail r = c := by
      split_ifs with hce
      · rw [Finset.mem_insert, h.mem_iff hc]
        simp [hce]
      · rw [h.mem_iff hc]
        simp [hce]
    rw [hmem]
    by_cases hrq : r = q
    · subst hrq
      rw [htail r hq, if_pos rfl, hfree]
      constructor
      · rintro (⟨rfl, -⟩ | ⟨-, hneg⟩)
        · exact ⟨hq, rfl⟩
        · omega
      · rintro ⟨-, heq⟩
        exact .inl ⟨(Int.ofNat_inj.mp heq).symm, rfl⟩
    · constructor
      · rintro (⟨-, heq⟩ | ⟨hr, heq⟩)
        · exact absurd heq hrq
        · exact ⟨hr, by rw [htail r hr, if_neg hrq, heq]⟩
      · rintro ⟨hr, heq⟩
        rw [htail r hr, if_neg hrq] at heq
        exact .inr ⟨hr, heq⟩
  tail_range r hr := by
    rw [htail r hr]
    split_ifs
    · exact .inr ⟨e, he, rfl⟩
    · exact h.tail_range r hr

theorem restrict (h : Owned size ids tail) (keep : ℕ → Prop) [DecidablePred keep]
    (hids : ∀ c < size, ids' c = (ids c).filter keep)
    (htail : ∀ r < size, tail' r = if keep r then tail r else -1) : Owned size ids' tail' where
  ids_eq c hc := by
    ext r
    rw [hids c hc, Finset.mem_filter, h.mem_iff hc, mem_owners]
    constructor
    · rintro ⟨⟨hr, heq⟩, hkeep⟩
      exact ⟨hr, by rw [htail r hr, if_pos hkeep, heq]⟩
    · rintro ⟨hr, heq⟩
      rw [htail r hr] at heq
      by_cases hkeep : keep r
      · rw [if_pos hkeep] at heq
        exact ⟨⟨hr, heq⟩, hkeep⟩
      · rw [if_neg hkeep] at heq
        omega
  tail_range r hr := by
    rw [htail r hr]
    split_ifs
    · exact h.tail_range r hr
    · exact .inl rfl

end Owned

theorem exists_ring {size e c : ℕ} (he : e < size) (hc : c < size) :
    ∃ k < size, (e + k) % size = c := by
  by_cases hle : e ≤ c
  · exact ⟨c - e, by omega, by rw [Nat.add_sub_of_le hle, Nat.mod_eq_of_lt hc]⟩
  · refine ⟨c + size - e, by omega, ?_⟩
    rw [Nat.add_sub_of_le (by omega), Nat.add_mod_right, Nat.mod_eq_of_lt hc]

theorem ring_inj {size e j k : ℕ} (hj : j < size) (hk : k < size)
    (h : (e + j) % size = (e + k) % size) : j = k := by
  have hmod := Nat.ModEq.add_left_cancel' e h
  rwa [Nat.ModEq, Nat.mod_eq_of_lt hj, Nat.mod_eq_of_lt hk] at hmod

/-- A pointer that follows a swap of two cells. -/
def followSwap (a b : ℕ) (x : ℤ) : ℤ := if x = b then a else if x = a then b else x

theorem followSwap_eq (a b c : ℕ) (x : ℤ) :
    followSwap a b x = c ↔ x = (Equiv.swap a b c : ℕ) := by
  rw [followSwap, Equiv.swap_apply_def]
  split_ifs <;> omega

/-- When one cell in a range has no source, some cell of the range is not a source, provided the
cells outside have no source but themselves. -/
theorem exists_unreferenced {size lo hi : ℕ} {src : ℕ → ℤ}
    (hout : ∀ c < size, c ∉ Finset.Icc lo hi → src c = -1 ∨ src c = (c : ℤ)) {c : ℕ}
    (hc : c ∈ Finset.Icc lo hi) (hnone : src c < 0) :
    ∃ i ∈ Finset.Icc lo hi, ∀ j < size, src j ≠ (i : ℤ) := by
  by_contra hall
  push Not at hall
  choose! f hf using hall
  have hmaps : Set.MapsTo f (Finset.Icc lo hi) (Finset.Icc lo hi) := fun i hi => by
    by_contra hnot
    rcases hout (f i) (hf i hi).1 hnot with heq | heq
    · rw [(hf i hi).2] at heq
      omega
    · rw [(hf i hi).2] at heq
      exact hnot (Int.ofNat_inj.mp heq ▸ hi)
  have hinj : Set.InjOn f (Finset.Icc lo hi) := fun i hi j hj heq => by
    have hsrc := (hf i hi).2
    rw [heq, (hf j hj).2] at hsrc
    exact (Int.ofNat_inj.mp hsrc).symm
  obtain ⟨i, hi, heq⟩ := Finset.surjOn_of_injOn_of_card_le f hmaps hinj le_rfl hc
  have hsrc := (hf i hi).2
  rw [heq] at hsrc
  omega

theorem exists_free {size : ℕ} {tail : ℕ → ℤ} {q : ℕ} (hq : q < size)
    (hshared : ∀ c < size, owners size tail c ≠ {q}) : ∃ e < size, owners size tail e = ∅ := by
  by_contra hnone
  push Not at hnone
  have howner : ∀ c : Fin size, ∃ r : Fin size, tail r = (c : ℕ) := fun c => by
    obtain ⟨r, hr⟩ := Finset.nonempty_iff_ne_empty.mpr (hnone c c.isLt).ne_empty
    exact ⟨⟨r, (mem_owners.1 hr).1⟩, (mem_owners.1 hr).2⟩
  choose f hf using howner
  -- picking an owner of each cell is injective, hence reaches every sequence
  have hinj : Function.Injective f := fun c d heq => by
    have hcd := (hf c).symm.trans ((congrArg (fun r : Fin size => tail r) heq).trans (hf d))
    exact Fin.ext (Int.ofNat_inj.mp hcd)
  have hsurj := Finite.surjective_of_injective hinj
  obtain ⟨c, hc⟩ := hsurj ⟨q, hq⟩
  refine hshared c c.isLt (Finset.eq_singleton_iff_unique_mem.mpr ⟨?_, fun r hr => ?_⟩)
  · exact mem_owners.2 ⟨hq, by simpa [hc] using hf c⟩
  · obtain ⟨hr, heq⟩ := mem_owners.1 hr
    obtain ⟨d, hd⟩ := hsurj ⟨r, hr⟩
    have hdr : tail r = (d : ℕ) := by simpa [hd] using hf d
    have hcd : c = d := Fin.ext (Int.ofNat_inj.mp (heq.symm.trans hdr))
    rw [← hcd, hc] at hd
    exact (congrArg Fin.val hd).symm

end RocmFpx
