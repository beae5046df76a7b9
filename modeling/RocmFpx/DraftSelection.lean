import RocmFpx.DraftSelect

/-!
The ids that the draft vocabulary selector returns, and the vocabulary whose rows it fills.
-/

namespace RocmFpx
namespace DraftSelect

open BitScan NthElement

/-- `a` is ranked above `b`: the higher score, or the lower id of two equal scores. -/
def Outranks (scores : ℕ → BitVec 32) (a b : ℕ) : Prop :=
  orderedBits (scores b) < orderedBits (scores a) ∨
    orderedBits (scores b) = orderedBits (scores a) ∧ a < b

instance (scores : ℕ → BitVec 32) (a b : ℕ) : Decidable (Outranks scores a b) :=
  inferInstanceAs (Decidable (_ ∨ _))

/-- One of the best of the remaining ids, as many as there is room for. -/
def BestRemaining (scores : ℕ → BitVec 32) (vocabulary budget : ℕ) (previous : ℤ) (id : ℕ) :
    Prop :=
  id ∈ remaining (permanent budget) vocabulary previous ∧
    ((remaining (permanent budget) vocabulary previous).filter
      (Outranks scores · id)).length < wanted vocabulary budget previous

/-- What a selection is for. -/
structure Selects (scores : ℕ → BitVec 32) (vocabulary budget : ℕ) (previous : ℤ)
    (ids : List ℕ) : Prop where
  length_eq : ids.length = budget
  increasing : ids.Pairwise (· < ·)
  mem_iff : ∀ id, id ∈ ids ↔ id < permanent budget ∨
    (permanent budget < budget ∧ reservePrevious vocabulary budget previous = true ∧
      (id : ℤ) = previous) ∨
    BestRemaining scores vocabulary budget previous id

theorem Selects.unique {scores : ℕ → BitVec 32} {vocabulary budget : ℕ} {previous : ℤ}
    {ids ids' : List ℕ} (h : Selects scores vocabulary budget previous ids)
    (h' : Selects scores vocabulary budget previous ids') : ids = ids' :=
  h.increasing.eq_of_mem_iff h'.increasing fun id => (h.mem_iff id).trans (h'.mem_iff id).symm

section
variable {scores : ℕ → BitVec 32} {vocabulary budget : ℕ} {previous : ℤ}

/-! ## Keys and tokens -/

theorem above_everything {first stop id : ℕ} (hstop : stop ≤ 2 ^ 31) (hid : id < 2 ^ 31) :
    (above (everything scores first stop previous) (rank (scores id) id)).length =
      ((remaining first stop previous).filter (Outranks scores · id)).length := by
  rw [everything_eq, above, List.filter_map, List.length_map]
  congr 1
  refine List.filter_congr fun token htoken => decide_eq_decide.mpr ?_
  have hlt := (mem_remaining.1 htoken).2.1
  exact rank_lt_rank (by omega) (by omega)

theorem mem_chosen (nth : NthElement (BitVec 64)) (scores : ℕ → BitVec 32) (budget : ℕ)
    (previous : ℤ) (cutoff : BitVec 64) (hvocabulary : vocabulary ≤ 2 ^ 31) (key : BitVec 64) :
    key ∈ (nth.front (wanted vocabulary budget previous)
        (pool scores previous cutoff (permanent budget) vocabulary
          (wanted vocabulary budget previous))).take (wanted vocabulary budget previous) ↔
      ∃ id, BestRemaining scores vocabulary budget previous id ∧ key = rank (scores id) id := by
  rw [mem_front_pool nth cutoff _ hvocabulary, everything_eq, List.mem_map]
  constructor
  · rintro ⟨⟨id, hid, rfl⟩, hfew⟩
    have hlt := (mem_remaining.1 hid).2.1
    rw [← everything_eq, above_everything hvocabulary (by omega)] at hfew
    exact ⟨id, ⟨hid, hfew⟩, rfl⟩
  · rintro ⟨id, ⟨hid, hfew⟩, rfl⟩
    have hlt := (mem_remaining.1 hid).2.1
    refine ⟨⟨id, hid, rfl⟩, ?_⟩
    rwa [← everything_eq, above_everything hvocabulary (by omega)]

theorem remaining_length (vocabulary budget : ℕ) (previous : ℤ) :
    vocabulary - permanent budget ≤
      (remaining (permanent budget) vocabulary previous).length +
        (reservePrevious vocabulary budget previous).toNat := by
  by_cases hreserve : reservePrevious vocabulary budget previous = true
  · obtain ⟨hge, hlt⟩ := of_decide_eq_true hreserve
    have hmem : previous.toNat ∈
        List.range' (permanent budget) (vocabulary - permanent budget) := by
      rw [List.mem_range'_1]
      omega
    have herase : remaining (permanent budget) vocabulary previous =
        (List.range' (permanent budget) (vocabulary - permanent budget)).erase
          previous.toNat := by
      rw [List.Nodup.erase_eq_filter List.nodup_range', remaining]
      refine List.filter_congr fun token _ => ?_
      rw [Bool.eq_iff_iff, bne_iff_ne, decide_eq_true_eq]
      omega
    rw [herase, List.length_erase_of_mem hmem, List.length_range', hreserve]
    simp only [Bool.toNat_true]
    omega
  · have hall : remaining (permanent budget) vocabulary previous =
        List.range' (permanent budget) (vocabulary - permanent budget) := by
      refine List.filter_eq_self.mpr fun token htoken => ?_
      rw [List.mem_range'_1] at htoken
      simp only [reservePrevious, decide_eq_true_eq] at hreserve
      simp only [ne_eq, decide_eq_true_eq]
      omega
    rw [hall, List.length_range']
    omega

theorem wanted_le_remaining (previous : ℤ) (hbudget : budget ≤ vocabulary) :
    wanted vocabulary budget previous ≤
      (remaining (permanent budget) vocabulary previous).length := by
  have hlength := remaining_length vocabulary budget previous
  simp only [wanted]
  omega

/-! ## The bitmap -/

theorem markReserved_length (vocabulary budget : ℕ) (previous : ℤ) :
    (markReserved vocabulary budget previous).length =
      (vocabulary - permanent budget + 63) / 64 := by
  simp only [markReserved]
  split_ifs <;> simp

theorem markChosen_length (candidates : List (BitVec 64)) :
    (markChosen vocabulary budget previous candidates).length =
      (vocabulary - permanent budget + 63) / 64 := by
  rw [markChosen, foldl_mark_length, markReserved_length]

theorem bitAt_markReserved (i : ℕ) :
    bitAt (markReserved vocabulary budget previous) i = true ↔
      reservePrevious vocabulary budget previous = true ∧
        ((permanent budget + i : ℕ) : ℤ) = previous := by
  simp only [markReserved]
  by_cases hreserve : reservePrevious vocabulary budget previous = true
  · obtain ⟨hge, hlt⟩ := of_decide_eq_true hreserve
    have hword : (previous - permanent budget).toNat / 64 <
        (List.replicate ((vocabulary - permanent budget + 63) / 64) (0 : BitVec 64)).length := by
      rw [List.length_replicate]
      omega
    rw [if_pos hreserve, bitAt_mark (by decide) hword, bitAt_replicate, Bool.false_or,
      decide_eq_true_eq]
    constructor
    · rintro rfl
      exact ⟨hreserve, by omega⟩
    · rintro ⟨-, heq⟩
      omega
  · rw [if_neg hreserve, bitAt_replicate]
    exact ⟨fun h => absurd h Bool.false_ne_true, fun h => absurd h.1 hreserve⟩

theorem bitAt_markChosen {candidates : List (BitVec 64)} (hvocabulary : vocabulary ≤ 2 ^ 31)
    (hchosen : ∀ key, key ∈ candidates.take (wanted vocabulary budget previous) ↔
      ∃ id, BestRemaining scores vocabulary budget previous id ∧ key = rank (scores id) id)
    (i : ℕ) :
    bitAt (markChosen vocabulary budget previous candidates) i = true ↔
      reservePrevious vocabulary budget previous = true ∧
        ((permanent budget + i : ℕ) : ℤ) = previous ∨
      BestRemaining scores vocabulary budget previous (permanent budget + i) := by
  have hlocal : ∀ {id}, BestRemaining scores vocabulary budget previous id →
      (tokenOf (rank (scores id) id) - permanent budget).toNat = id - permanent budget ∧
        permanent budget ≤ id ∧ id < vocabulary := by
    intro id hbest
    obtain ⟨hge, hlt, -⟩ := mem_remaining.1 hbest.1
    rw [tokenOf_rank (by omega)]
    omega
  rw [markChosen, bitAt_foldl_mark (by decide), Bool.or_eq_true, bitAt_markReserved,
    decide_eq_true_eq]
  · refine or_congr Iff.rfl ?_
    simp only [List.mem_map, hchosen]
    constructor
    · rintro ⟨key, ⟨id, hbest, rfl⟩, heq⟩
      obtain ⟨hid, hge, -⟩ := hlocal hbest
      rwa [← heq, hid, Nat.add_sub_cancel' hge]
    · intro hbest
      obtain ⟨hid, -, -⟩ := hlocal hbest
      exact ⟨_, ⟨_, hbest, rfl⟩, by rw [hid, Nat.add_sub_cancel_left]⟩
  · intro j hj
    simp only [List.mem_map, hchosen] at hj
    obtain ⟨key, ⟨id, hbest, rfl⟩, rfl⟩ := hj
    obtain ⟨hid, hge, hlt⟩ := hlocal hbest
    rw [markReserved_length, hid]
    omega

/-- The ids read off the bitmap, after the permanent ones. -/
def emitted (vocabulary budget : ℕ) (previous : ℤ) (candidates : List (BitVec 64)) : List ℕ :=
  List.range (permanent budget) ++
    (enumerate (markChosen vocabulary budget previous candidates)).map (permanent budget + ·)

theorem emitted_increasing (candidates : List (BitVec 64)) :
    (emitted vocabulary budget previous candidates).Pairwise (· < ·) := by
  rw [emitted, enumerate_eq, List.pairwise_append]
  refine ⟨List.pairwise_lt_range, ?_, fun a ha b hb => ?_⟩
  · exact List.Pairwise.map _ (fun a b hlt => by omega) (List.pairwise_lt_range.filter _)
  · obtain ⟨i, -, rfl⟩ := List.mem_map.mp hb
    have hlt := List.mem_range.mp ha
    omega

theorem mem_emitted {candidates : List (BitVec 64)} (hvocabulary : vocabulary ≤ 2 ^ 31)
    (hchosen : ∀ key, key ∈ candidates.take (wanted vocabulary budget previous) ↔
      ∃ id, BestRemaining scores vocabulary budget previous id ∧ key = rank (scores id) id)
    (id : ℕ) :
    id ∈ emitted vocabulary budget previous candidates ↔
      id < permanent budget ∨
        (reservePrevious vocabulary budget previous = true ∧ (id : ℤ) = previous) ∨
        BestRemaining scores vocabulary budget previous id := by
  have hword : (vocabulary - permanent budget + 63) / 64 * 64 ≥ vocabulary - permanent budget := by
    omega
  rw [emitted, enumerate_eq, markChosen_length, List.mem_append, List.mem_range, List.mem_map]
  refine or_congr Iff.rfl ?_
  constructor
  · rintro ⟨i, hi, rfl⟩
    exact (bitAt_markChosen hvocabulary hchosen i).mp (List.mem_filter.mp hi).2
  · intro hid
    have hrange : permanent budget ≤ id ∧ id < vocabulary := by
      rcases hid with ⟨hreserve, heq⟩ | hbest
      · obtain ⟨hge, hlt⟩ := of_decide_eq_true hreserve
        omega
      · obtain ⟨hge, hlt, -⟩ := mem_remaining.1 hbest.1
        exact ⟨hge, hlt⟩
    have hsum : permanent budget + (id - permanent budget) = id := by omega
    refine ⟨id - permanent budget, List.mem_filter.mpr ⟨List.mem_range.mpr (by omega), ?_⟩, hsum⟩
    rw [bitAt_markChosen hvocabulary hchosen, hsum]
    exact hid

theorem emitted_length {candidates : List (BitVec 64)} (hvocabulary : vocabulary ≤ 2 ^ 31)
    (hchosen : ∀ key, key ∈ candidates.take (wanted vocabulary budget previous) ↔
      ∃ id, BestRemaining scores vocabulary budget previous id ∧ key = rank (scores id) id)
    (hnodup : (candidates.take (wanted vocabulary budget previous)).Nodup)
    (hlength : (candidates.take (wanted vocabulary budget previous)).length =
      wanted vocabulary budget previous) (hbudget : budget ≠ 0) :
    (emitted vocabulary budget previous candidates).length = budget := by
  let picked := candidates.take (wanted vocabulary budget previous)
  let reserved := if reservePrevious vocabulary budget previous then [previous.toNat] else []
  have hreserved : ∀ id, id ∈ reserved ↔
      reservePrevious vocabulary budget previous = true ∧ (id : ℤ) = previous := by
    intro id
    by_cases hreserve : reservePrevious vocabulary budget previous = true
    · obtain ⟨hge, hlt⟩ := of_decide_eq_true hreserve
      simp only [reserved, hreserve, if_true, List.mem_singleton, true_and]
      omega
    · simp [reserved, hreserve]
  have htoken : ∀ id, id ∈ picked.map (fun key => (tokenOf key).toNat) ↔
      BestRemaining scores vocabulary budget previous id := by
    intro id
    simp only [picked, List.mem_map, hchosen]
    have hback : ∀ {id}, BestRemaining scores vocabulary budget previous id →
        (tokenOf (rank (scores id) id)).toNat = id := by
      intro id hbest
      have hlt := (mem_remaining.1 hbest.1).2.1
      rw [tokenOf_rank (by omega), Int.toNat_natCast]
    constructor
    · rintro ⟨key, ⟨id', hbest, rfl⟩, rfl⟩
      rwa [hback hbest]
    · exact fun hbest => ⟨_, ⟨id, hbest, rfl⟩, hback hbest⟩
  have hpicked : (picked.map fun key => (tokenOf key).toNat).Nodup := by
    refine List.Nodup.map_on (fun a ha b hb heq => ?_) hnodup
    obtain ⟨i, hi, rfl⟩ := (hchosen a).mp ha
    obtain ⟨j, hj, rfl⟩ := (hchosen b).mp hb
    have hi' := (mem_remaining.1 hi.1).2.1
    have hj' := (mem_remaining.1 hj.1).2.1
    rw [tokenOf_rank (by omega), tokenOf_rank (by omega), Int.toNat_natCast,
      Int.toNat_natCast] at heq
    rw [heq]
  have htail : (reserved ++ picked.map fun key => (tokenOf key).toNat).Nodup := by
    refine List.nodup_append.mpr ⟨?_, hpicked, fun a ha b hb heq => ?_⟩
    · simp only [reserved]
      split_ifs <;> simp
    · rw [hreserved] at ha
      rw [htoken, ← heq] at hb
      exact (mem_remaining.1 hb.1).2.2 ha.2
  have hall : (List.range (permanent budget) ++
      (reserved ++ picked.map fun key => (tokenOf key).toNat)).Nodup := by
    refine List.nodup_append.mpr ⟨List.nodup_range, htail, fun a ha b hb heq => ?_⟩
    have hlt := List.mem_range.mp ha
    rw [List.mem_append, hreserved, htoken, ← heq] at hb
    rcases hb with ⟨hreserve, hid⟩ | hbest
    · have hge := (of_decide_eq_true hreserve).1
      omega
    · have hge := (mem_remaining.1 hbest.1).1
      omega
  have hperm := (List.perm_ext_iff_of_nodup
    (emitted_increasing candidates).nodup hall).mpr fun id => by
      rw [mem_emitted hvocabulary hchosen, List.mem_append, List.mem_append, List.mem_range,
        hreserved, htoken]
  have hsize : reserved.length = (reservePrevious vocabulary budget previous).toNat := by
    simp only [reserved]
    cases reservePrevious vocabulary budget previous <;> rfl
  rw [hperm.length_eq, List.length_append, List.length_append, List.length_range,
    List.length_map, hlength, hsize, wanted, permanent]
  have hbool := Bool.toNat_le (reservePrevious vocabulary budget previous)
  omega

/-! ## The result -/

/-- The `int` sums of the vector loop and of the bitmap's size stay in range. -/
def Fits (sse2 : Bool) (vocabulary budget : ℕ) : Prop :=
  vocabulary - permanent budget + 63 ≤ intMax ∧
    (sse2 = true →
      permanent budget + 4 * ((vocabulary - permanent budget) / 4 + 1) ≤ intMax)

theorem selectAbove_spec (nth : NthElement (BitVec 64)) (scores : ℕ → BitVec 32) (sse2 : Bool)
    (previous : ℤ) (cutoff : BitVec 64) (samples : List (BitVec 64)) (hvocabulary : vocabulary ≤ 2 ^ 31) (hbudget : budget ≠ 0)
    (hle : budget ≤ vocabulary) (hfits : Fits sse2 vocabulary budget) :
    ∃ s, selectAbove nth scores sse2 vocabulary budget previous cutoff samples = .ok s ∧
      Selects scores vocabulary budget previous s.result := by
  have hroom := wanted_le_remaining previous hle
  have hchosen := mem_chosen nth scores budget previous cutoff hvocabulary
  have hnodup := nth.front_take_nodup (k := wanted vocabulary budget previous)
    (pool_nodup scores previous (permanent budget) cutoff (wanted vocabulary budget previous)
      hvocabulary)
  have hlength := nth.front_take_length (le_pool_length scores cutoff hroom)
  have hcollect : ¬ (sse2 = true ∧
      intMax < permanent budget + 4 * ((vocabulary - permanent budget) / 4 + 1)) :=
    fun h => not_lt_of_ge (hfits.2 h.1) h.2
  have hsize : ¬ intMax < vocabulary - permanent budget + 63 := not_lt_of_ge hfits.1
  rw [selectAbove, collect_eq, if_neg hcollect, List.nil_append]
  refine ⟨_, if_neg hsize, ?_, emitted_increasing _, fun id => ?_⟩
  · exact emitted_length hvocabulary hchosen hnodup hlength hbudget
  · have hmem := mem_emitted hvocabulary hchosen id
    have hhalf : permanent budget < budget := by
      rw [permanent]
      omega
    refine hmem.trans (or_congr Iff.rfl (or_congr ?_ Iff.rfl))
    exact ⟨fun h => ⟨hhalf, h⟩, And.right⟩

theorem selectAbove_overflow (nth : NthElement (BitVec 64)) (sse2 : Bool) (cutoff : BitVec 64)
    (samples : List (BitVec 64)) (hover : ¬ Fits sse2 vocabulary budget) :
    selectAbove nth scores sse2 vocabulary budget previous cutoff samples =
      .error .signedOverflow := by
  rw [selectAbove, collect_eq]
  by_cases hcollect : sse2 = true ∧
      intMax < permanent budget + 4 * ((vocabulary - permanent budget) / 4 + 1)
  · rw [if_pos hcollect]
    rfl
  · have hsize : intMax < vocabulary - permanent budget + 63 := by
      by_contra hle
      exact hover ⟨not_lt.mp hle, fun h => not_lt.mp fun hlt => hcollect ⟨h, hlt⟩⟩
    rw [if_neg hcollect]
    exact if_pos hsize

theorem selects_unchosen (scores : ℕ → BitVec 32) (hwanted : wanted vocabulary budget previous = 0)
    (hbudget : budget ≠ 0) :
    Selects scores vocabulary budget previous (List.range (permanent budget) ++
      if reservePrevious vocabulary budget previous then [previous.toNat] else []) := by
  have hhalf : permanent budget < budget := by
    rw [permanent]
    omega
  have hreserve : reservePrevious vocabulary budget previous = true := by
    by_contra hnot
    rw [wanted, Bool.eq_false_iff.mpr hnot, Bool.toNat_false] at hwanted
    omega
  have hsize : permanent budget + 1 = budget := by
    rw [wanted, hreserve, Bool.toNat_true] at hwanted
    omega
  obtain ⟨hge, hlt⟩ := of_decide_eq_true hreserve
  rw [if_pos hreserve]
  refine ⟨by simpa using hsize, ?_, fun id => ?_⟩
  · refine List.pairwise_append.mpr ⟨List.pairwise_lt_range, List.pairwise_singleton _ _, ?_⟩
    intro a ha b hb
    have ha' := List.mem_range.mp ha
    have hb' := List.mem_singleton.mp hb
    omega
  · have hnone : ¬ BestRemaining scores vocabulary budget previous id := fun h => by
      have hfew := h.2
      omega
    simp only [List.mem_append, List.mem_range, List.mem_singleton, hnone, or_false, hhalf,
      hreserve, true_and]
    omega

theorem selects_nil (scores : ℕ → BitVec 32) (vocabulary : ℕ) (previous : ℤ) :
    Selects scores vocabulary 0 previous [] := by
  refine ⟨rfl, List.Pairwise.nil, fun id => ?_⟩
  simp [permanent, BestRemaining, wanted]

end

/-! ## The selector -/

section
variable {scores : ℕ → BitVec 32} {vocabulary budget previous : Int32}

theorem select_of_valid (nth : NthElement (BitVec 64)) (sse2 : Bool) (selector : DraftSelector)
    (scores : ℕ → BitVec 32) (previous : Int32) (hbudget : 0 ≤ budget.toInt)
    (hle : budget.toInt ≤ vocabulary.toInt) :
    select nth sse2 selector (some scores) vocabulary budget previous =
      if budget.toInt.toNat = 0 then .ok { selector with result := [] }
      else if wanted vocabulary.toInt.toNat budget.toInt.toNat previous.toInt = 0 then
        .ok { selector with
          result := List.range (permanent budget.toInt.toNat) ++
            if reservePrevious vocabulary.toInt.toNat budget.toInt.toNat previous.toInt
              then [previous.toInt.toNat] else [] }
      else
        let sampled := sampledCutoff nth
          (wanted vocabulary.toInt.toNat budget.toInt.toNat previous.toInt)
          (vocabulary.toInt.toNat - permanent budget.toInt.toNat)
          (sample scores (permanent budget.toInt.toNat)
            (vocabulary.toInt.toNat - permanent budget.toInt.toNat) previous.toInt)
        selectAbove nth scores sse2 vocabulary.toInt.toNat budget.toInt.toNat previous.toInt
          sampled.2 sampled.1 := by
  rw [select, if_neg]
  · rfl
  · rintro (h | h | h | h)
    · omega
    · omega
    · omega
    · exact Option.some_ne_none _ h.2

/-- One list is right, and it comes back on either path, whatever the selector held before and
whatever the cutoff. -/
def SelectsAlways (scores : ℕ → BitVec 32) (vocabulary budget previous : Int32) : Prop :=
  ∃ ids, Selects scores vocabulary.toInt.toNat budget.toInt.toNat previous.toInt ids ∧
    (∀ nth sse2 selector,
      (select nth sse2 selector (some scores) vocabulary budget previous).map (·.result) =
        .ok ids) ∧
    ∀ nth sse2 cutoff samples,
      wanted vocabulary.toInt.toNat budget.toInt.toNat previous.toInt ≠ 0 →
      (selectAbove nth scores sse2 vocabulary.toInt.toNat budget.toInt.toNat previous.toInt
        cutoff samples).map (·.result) = .ok ids

theorem selectsAlways_iff (scores : ℕ → BitVec 32) (vocabulary budget previous : Int32)
    (hbudget : 0 ≤ budget.toInt) (hle : budget.toInt ≤ vocabulary.toInt) :
    SelectsAlways scores vocabulary budget previous ↔
      wanted vocabulary.toInt.toNat budget.toInt.toNat previous.toInt = 0 ∨
        Fits true vocabulary.toInt.toNat budget.toInt.toNat := by
  have hvocabulary : vocabulary.toInt.toNat ≤ 2 ^ 31 := by
    have hlt := vocabulary.toInt_lt
    omega
  have hle' : budget.toInt.toNat ≤ vocabulary.toInt.toNat := by omega
  constructor
  · rintro ⟨ids, -, -, habove⟩
    by_contra hnot
    obtain ⟨hwanted, hover⟩ := not_or.mp hnot
    have hresult := habove (sorting _) true 0 [] hwanted
    rw [selectAbove_overflow _ _ _ _ hover] at hresult
    cases hresult
  · intro hcond
    by_cases hzero : budget.toInt.toNat = 0
    · refine ⟨[], ?_, fun nth sse2 selector => ?_, fun _ _ _ _ hwanted => ?_⟩
      · rw [hzero]
        exact selects_nil scores _ _
      · rw [select_of_valid nth sse2 selector scores previous hbudget hle, if_pos hzero]
        rfl
      · rw [hzero, wanted, permanent, Nat.zero_div, Nat.zero_sub] at hwanted
        exact absurd rfl hwanted
    by_cases hwanted : wanted vocabulary.toInt.toNat budget.toInt.toNat previous.toInt = 0
    · refine ⟨_, selects_unchosen scores hwanted hzero, fun nth sse2 selector => ?_,
        fun _ _ _ _ hne => absurd hwanted hne⟩
      rw [select_of_valid nth sse2 selector scores previous hbudget hle, if_neg hzero,
        if_pos hwanted]
      rfl
    · have hfits : ∀ sse2, Fits sse2 vocabulary.toInt.toNat budget.toInt.toNat :=
        fun _ => ⟨(hcond.resolve_left hwanted).1, fun _ => (hcond.resolve_left hwanted).2 rfl⟩
      obtain ⟨s, -, hselects⟩ := selectAbove_spec (sorting _) scores true
        previous.toInt 0 [] hvocabulary hzero hle' (hfits true)
      have habove : ∀ nth sse2 cutoff samples,
          (selectAbove nth scores sse2 vocabulary.toInt.toNat budget.toInt.toNat previous.toInt
            cutoff samples).map (·.result) = .ok s.result := by
        intro nth sse2 cutoff samples
        obtain ⟨s', hs', hselects'⟩ := selectAbove_spec nth scores sse2
          previous.toInt cutoff samples hvocabulary hzero hle' (hfits sse2)
        rw [hs', hselects.unique hselects']
        rfl
      refine ⟨s.result, hselects, fun nth sse2 selector => ?_,
        fun nth sse2 cutoff samples _ => habove nth sse2 cutoff samples⟩
      rw [select_of_valid nth sse2 selector scores previous hbudget hle, if_neg hzero,
        if_neg hwanted]
      exact habove _ _ _ _

theorem selectsAlways_iff_small :
    SelectsAlways (fun _ => 0) 20 7 3 ↔
      wanted 20 7 3 = 0 ∨ Fits true 20 7 :=
  selectsAlways_iff (fun _ => 0) 20 7 3 (by decide) (by decide)

/-- The size of the bitmap overflows for a vocabulary that fills an `int`. -/
theorem select_overflows :
    select (sorting _) false ⟨[], [], [], []⟩ (some fun _ => 0) 2147483647 1 (-1) =
        .error .signedOverflow ∧
      ¬ SelectsAlways (fun _ => 0) 2147483647 1 (-1) := by
  have hwanted : wanted 2147483647 1 (-1) ≠ 0 := by decide
  have hover : ¬ Fits false 2147483647 1 := fun h => absurd h.1 (by decide)
  have hselect : select (sorting _) false ⟨[], [], [], []⟩ (some fun _ => 0) 2147483647 1 (-1) =
      .error .signedOverflow := by
    rw [select_of_valid _ _ _ _ _ (by decide) (by decide), if_neg (by decide)]
    refine (if_neg hwanted).trans ?_
    exact selectAbove_overflow _ _ _ _ hover
  refine ⟨hselect, ?_⟩
  rintro ⟨ids, -, hall, -⟩
  have hresult := hall (sorting _) false ⟨[], [], [], []⟩
  rw [hselect] at hresult
  cases hresult

end

end DraftSelect
end RocmFpx
